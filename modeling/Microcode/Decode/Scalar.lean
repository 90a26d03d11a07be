import Microcode.Decode.Arithmetic

/-!
Words on single lanes: bitwise operations, literals, loads and stores, and increment tables.
-/

namespace Microcode
namespace Decode

def bitwiseOpcode? (code : Nat) (alternate : Bool) : Option Opcode :=
  match code, alternate with
  | 0b010, true => some .or
  | 0b010, false => some .and
  | 0b011, _ => some .xor
  | 0b100, true => some .rol
  | 0b100, false => some .shl
  | 0b101, true => some .asr
  | 0b101, false => some .shr
  | _, _ => none

/-- The immediate is inverted here, the register when it is read. -/
def bitwise (f : Fields) (secondary : Bool) : Except DecodeFault Instruction :=
  match bitwiseOpcode? (f.get 'o') (f.flag 'a') with
  | none => .error (.bitwiseOperation (f.get 'o'))
  | some opcode =>
    let regs : RegisterField := ⟨false, 7, secondary⟩
    let src2 := { regs.source (f.get 'u') (f.get 'g') (f.flag 'x') 2 with element := .u32 }
    let invert := f.flag 'i'
    let value : Lane := BitVec.ofNat 32 (f.get 'u' + f.get 'l' <<< 7 + f.get 'h' <<< 14)
    checked {
      opcode := opcode
      dest := { regs.dest (f.get 'j') (f.get 'k') (f.flag 'd') with element := .u32 }
      src1 := { regs.source (f.get 'q') (f.get 'f') (f.flag 'c') 1 with element := .u32 }
      src2 := src2
      destMask := 0b0001
      sourceMask := 0b0001
      predicate := .ofCode (f.get 'p')
      repeatCount := f.get 'm'
      repeatMultiplier := .replicate 1
      skipInvalid := f.flag 's'
      isLast := f.flag 'e'
      detail := .bitwise invert (f.get 't') <|
        if f.flag 'x' && src2.bank = .immediate then some (if invert then ~~~value else value)
        else none }

def literal (f : Fields) (secondary : Bool) : Except DecodeFault Instruction :=
  let regs : RegisterField := ⟨false, 7, secondary⟩
  checked {
    opcode := .limm
    dest := { regs.dest (f.get 't') (f.get 'b') (f.flag 'd') with element := .u32 }
    destMask := 0b0001
    predicate := .ofCode (f.get 'p')
    skipInvalid := f.flag 's'
    isLast := f.flag 'e'
    detail := .literal
      (BitVec.ofNat 32 (f.get 'z' + f.get 'x' <<< 21 + f.get 'y' <<< 26)) }

/-- Loads and stores of consecutive words; the data register is not aliased like other operands. -/
def memory (f : Fields) (secondary : Bool) : Except DecodeFault Instruction := do
  let opcode ← match f.get 'o' with
    | 0b01 => pure Opcode.ldr
    | 0b10 => pure .str
    | code => throw (.memoryOperation code)
  let element ← match f.get 'f' with
    | 0 => pure Element.f32
    | 1 => pure .f16
    | 2 => pure .c10
    | _ => throw .memoryElement
  let regs : RegisterField := ⟨false, 7, secondary⟩
  let bank : Bank :=
    if secondary then .secondaryAttribute
    else if f.flag 't' then .primaryAttribute
    else .temporary
  checked {
    opcode := opcode
    dest := { Operand.ofRegister bank (f.get 'v') .f32 with slot := 3 }
    src0 := { regs.src0 (f.get 'w') (f.get 'h') (f.flag 'r') with element := .s32 }
    src1 := { regs.source (f.get 'x') (f.get 'q') (f.flag 'b') 1 with element := .s32 }
    src2 := { regs.source (f.get 'z') (f.get 'u') (f.flag 'a') 2 with element := .s32 }
    destMask := 0b0001
    predicate := .ofCode (f.get 'p')
    skipInvalid := f.flag 's'
    detail := .memory element (f.get 'k' + 1) (f.flag 'm') }

def increments (f : Fields) : Instruction :=
  { opcode := .smlsi
    detail := .increments ⟨f.flag 'd', f.flag 'r', f.flag 'c', f.flag 'i'⟩
      (Quad.map (BitVec.ofNat 8) ⟨f.get 'e', f.get 'a', f.get 'b', f.get 'f'⟩)
      (f.get 't', f.get 'p', f.get 's') }

end Decode
end Microcode
