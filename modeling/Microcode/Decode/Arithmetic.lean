import Microcode.Decode.Error
import Microcode.Decode.Register
import Microcode.Decode.SwizzleCode
import Microcode.Instruction
import Microcode.Word.Family

/-!
Vector arithmetic words: moves, multiply-adds, two-source operations, complex operations and dot
products.
-/

namespace Microcode
namespace Decode

/-- Refuses an instruction with an operand in the special bank. -/
def checked (i : Instruction) : Except DecodeFault Instruction :=
  if i.usesSpecial then .error .specialRegister else .ok i

/-- Element of a move, by its three-bit code. -/
def moveElement (code : Nat) : Element :=
  match code % 8 with
  | 0 => .s8
  | 1 => .s16
  | 2 => .s32
  | 3 => .c10
  | 4 => .f16
  | 5 => .f32
  | 6 => .u8
  | _ => .u16

def move (f : Fields) (secondary : Bool) : Except DecodeFault Instruction := do
  let kind ← match f.get 'm' with
    | 0 => pure MoveKind.unconditional
    | 1 => pure .conditional
    | 2 => pure .conditionalByte
    | _ => throw .moveKind
  let opcode : Opcode := match kind with
    | .unconditional => .vmov
    | .conditional => .vmovc
    | .conditionalByte => .vmovcu8
  let conditional := kind ≠ .unconditional
  let element := moveElement (f.get 'o')
  let doubled := element.isFloat
  let regs : RegisterField := ⟨doubled, if doubled then 7 else 6, secondary⟩
  let swizzle := Swizzle.ofTable (f.get 'w') false .vector4
  let base : Operation := {
    opcode := opcode
    dest := { regs.dest (f.get 'j') (f.get 'l') (f.flag 'd') with element := element }
    src1 := { regs.source (f.get 'u') (f.get 'f') (f.flag 'c') 1 with
      swizzle := swizzle, element := element }
    destMask := f.get 'h'
    sourceMask := f.get 'h'
    predicate := .ofCode (f.get 'p')
    repeatCount := f.get 'a'
    repeatMultiplier := .replicate (if element = .f16 || element = .f32 then 2 else 1)
    skipInvalid := f.flag 's'
    isLast := !conditional && f.flag 'e' }
  if conditional then
    let src0 := regs.src0 (f.get 'q') (f.get 'k') (f.flag 'e')
    let src2 := regs.source (f.get 'v') (f.get 'g') (f.flag 'b') 2
    checked { base with
      src0 := { src0 with
        swizzle := if f.flag 'r' then swizzle else src0.swizzle
        element := if kind = .conditionalByte then .u8 else element }
      src2 := { src2 with swizzle := swizzle, element := element }
      detail := .move kind (.ofCode (2 * f.get 't' + f.get 'i')) }
  else checked { base with detail := .move kind .notEqual }

/-- Multiply-add with two internal sources. -/
def multiplyAddInternal (f : Fields) (secondary : Bool) : Except DecodeFault Instruction :=
  let fourWide := f.flag 'o'
  let width : Swizzle.Width := if fourWide then .vector4 else .vector3
  let regs : RegisterField := ⟨true, 7, secondary⟩
  let dest := regs.dest (f.get 'm') (f.get 'k') (f.flag 'd')
  checked {
    opcode := .vmad
    dest := { dest with swizzle := if fourWide then dest.swizzle else { dest.swizzle with w := .x } }
    src0 := { Operand.ofInternal (f.get 'l') 0 .f32 with
      swizzle := .ofTable (f.get 'q') (f.flag 'z') width
      modifiers := { absolute := f.flag 'a', negative := f.flag 'x', pinned := true } }
    src1 := { regs.source (f.get 'B') (f.get 'j') (f.flag 'r') 1 with
      swizzle := .ofTable (f.get 'A') (f.flag 'y') width
      modifiers := { absolute := f.flag 'b', negative := f.flag 'c' } }
    src2 := { Operand.ofInternal (f.get 'v') 2 .f32 with
      swizzle := .ofTable (f.get 'u') (f.flag 'g') width
      modifiers := { absolute := f.flag 'h', negative := f.flag 'f', pinned := true } }
    destMask := f.get 'w'
    sourceMask := f.get 'w'
    predicate := .ofCode (f.get 'p')
    repeatCount := f.get 't'
    repeatMode := .ofCode (f.get 'i')
    repeatMultiplier := ⟨2, 2, 2, 4⟩
    skipInvalid := f.flag 's'
    isLast := f.flag 'e' }

/-- Multiply-add of three registers, in full or half precision. -/
def multiplyAdd (f : Fields) (secondary : Bool) : Except DecodeFault Instruction :=
  let half := f.flag 'd'
  let element : Element := if half then .f16 else .f32
  let regs : RegisterField := ⟨true, 7, secondary⟩
  let dest := { regs.dest (f.get 'h') (f.get 't') false with element := element }
  let mask := writeMask dest.bank (f.get 'e') half
  checked {
    opcode := if half then .vf16mad else .vmad
    dest := dest
    src0 := { regs.src0 (f.get 'l') (f.get 'k') false with
      element := element
      swizzle := Swizzle.multiplyTable0.getD (f.get 'j' + 4 * f.get 'r') .identity
      modifiers := { absolute := f.flag 'c' } }
    src1 := { regs.source (f.get 'q') (f.get 'f') (f.flag 'b') 1 with
      element := element
      swizzle := Swizzle.multiplyTable1.getD (f.get 'z' + 4 * f.get 'i') .identity
      modifiers := .ofCode (f.get 'm') }
    src2 := { regs.source (f.get 'u') (f.get 'g') (f.flag 'a') 2 with
      element := element
      swizzle := Swizzle.multiplyTable2.getD (f.get 'w') .identity
      modifiers := .ofCode (f.get 'o') }
    destMask := mask
    sourceMask := mask
    predicate := .ofCode (f.get 'p')
    skipInvalid := f.flag 's' }

def fullOpcode (code : Nat) : Opcode :=
  match code % 8 with
  | 0 => .vmul
  | 1 => .vadd
  | 2 => .vfrc
  | 3 => .vdsx
  | 4 => .vdsy
  | 5 => .vmin
  | 6 => .vmax
  | _ => .vdp

def halfOpcode (code : Nat) : Opcode :=
  match code % 8 with
  | 0 => .vf16mul
  | 1 => .vf16add
  | 2 => .vf16frc
  | 3 => .vf16dsx
  | 4 => .vf16dsy
  | 5 => .vf16min
  | 6 => .vf16max
  | _ => .vf16dp

/-- Two-source arithmetic.  A dot product reads the whole vector whatever it writes. -/
def twoSource (f : Fields) (half secondary : Bool) : Except DecodeFault Instruction :=
  let code := f.get 'g'
  let isDot := code % 8 = 7
  let element : Element := if half then .f16 else .f32
  let regs : RegisterField := ⟨true, 7, secondary⟩
  checked {
    opcode := if half then halfOpcode code else fullOpcode code
    dest := { regs.dest (f.get 'f') (f.get 't') (f.flag 'd') with element := element }
    src1 := { regs.source (f.get 'h') (f.get 'k') (f.flag 'b') 1 with
      element := element
      swizzle := .ofPacked (f.get 'z' + f.get 'i' <<< 7 + f.get 'c' <<< 9 + f.get 'r' <<< 10)
      modifiers := .ofCode (f.get 'm') }
    src2 := { regs.source (f.get 'j') (f.get 'l') (f.flag 'a') 2 with
      element := element
      swizzle := .ofTable (f.get 'w') false .vector4
      modifiers := { absolute := f.flag 'o' } }
    destMask := f.get 'e'
    sourceMask := if isDot then 0b1111 else f.get 'e'
    predicate := .ofCode (f.get 'p')
    skipInvalid := f.flag 's'
    detail := if isDot then .dot false else .none }

def complexElement (code : Nat) : Element :=
  match code % 4 with
  | 0 => .f32
  | 1 => .f16
  | 2 => .c10
  | _ => .unknown

/-- Reciprocal, reciprocal square root, logarithm and exponential of one component. -/
def complex (f : Fields) (secondary : Bool) : Except DecodeFault Instruction :=
  let regs : RegisterField := ⟨true, 8, secondary⟩
  let opcode : Opcode := match f.get 'b' % 4 with
    | 0 => .vrcp
    | 1 => .vrsq
    | 2 => .vlog
    | _ => .vexp
  let source := complexElement (f.get 'c')
  let dest := complexElement (f.get 'd')
  if source = .unknown || dest = .unknown then .error .complexElement
  else checked {
    opcode := opcode
    dest := { regs.dest (f.get 'g') (f.get 't') (f.flag 'e') with element := dest }
    src1 := { regs.source (f.get 'h') (f.get 'k') (f.flag 'r') 1 with
      element := source, modifiers := .ofCode (f.get 'm') }
    destMask := f.get 'w'
    sourceMask := 1 <<< f.get 'f'
    predicate := .ofCode (f.get 'p')
    repeatCount := f.get 'a'
    skipInvalid := f.flag 's'
    isLast := f.flag 'n' }

/-- Dot product with an internal register. -/
def dotProduct (f : Fields) (secondary : Bool) : Except DecodeFault Instruction :=
  let fourWide := f.flag 'o'
  let regs : RegisterField := ⟨true, 7, secondary⟩
  checked {
    opcode := .vdp
    dest := regs.dest (f.get 'j') (f.get 't') (f.flag 'd')
    src1 := { regs.source (f.get 'u') (f.get 'k') (f.flag 'r') 1 with
      swizzle := .ofCodes (f.get 'x') (f.get 'y') (f.get 'q') (f.get 'm')
      modifiers := { negative := f.flag 'b', absolute := f.flag 'f' } }
    src2 := { Operand.ofInternal (f.get 'h') 2 .f32 with
      swizzle := .ofTable (f.get 'z') false (if fourWide then .vector4 else .vector3)
      modifiers := { absolute := f.flag 'g', pinned := true } }
    destMask := f.get 'w'
    sourceMask := if fourWide then 0b1111 else 0b0111
    predicate := .ofCode (f.get 'p')
    repeatCount := f.get 'a'
    repeatMode := .ofCode (f.get 'i')
    skipInvalid := f.flag 's'
    isLast := f.flag 'e'
    detail := .dot true }

end Decode
end Microcode
