import Microcode.Decode.Arithmetic

/-!
Test words: an arithmetic result compared with zero.
-/

namespace Microcode
namespace Decode

/-- Operation of a test and the element its sources have.  Float tests have full or half
precision; the fixed-point byte forms share the plain byte arithmetic. -/
def testOperation? (group code : Nat) (full : Bool) : Option (TestOp × Element) :=
  let float : Element := if full then .f32 else .f16
  match group, code with
  | 0, 2 => some (.add, float)
  | 0, 3 => some (.frc, float)
  | 0, 4 => some (.rcp, float)
  | 0, 5 => some (.rsq, float)
  | 0, 6 => some (.log, float)
  | 0, 7 => some (.exp, float)
  | 0, 8 => some (.dp, float)
  | 0, 9 => some (.min, float)
  | 0, 10 => some (.max, float)
  | 0, 11 => some (.dsx, float)
  | 0, 12 => some (.dsy, float)
  | 0, 13 => some (.mul, float)
  | 0, 14 => some (.sub, float)
  | 1, 6 => some (.add, .s16)
  | 1, 7 => some (.sub, .s16)
  | 1, 8 => some (.mul, .s16)
  | 1, 9 => some (.add, .u16)
  | 1, 10 => some (.sub, .u16)
  | 1, 11 => some (.mul, .u16)
  | 1, 12 => some (.add, .s32)
  | 1, 13 => some (.add, .u32)
  | 1, 14 => some (.sub, .s32)
  | 1, 15 => some (.sub, .u32)
  | 2, 0 | 2, 2 | 2, 7 => some (.add, .u8)
  | 2, 1 | 2, 3 | 2, 8 => some (.sub, .u8)
  | 2, 4 | 2, 5 | 2, 6 => some (.mul, .u8)
  | 3, 0 => some (.and, .u32)
  | 3, 1 => some (.or, .u32)
  | 3, 2 => some (.xor, .u32)
  | 3, 3 => some (.shl, .u32)
  | 3, 4 => some (.shr, .u32)
  | 3, 5 => some (.rol, .u32)
  | 3, 7 => some (.asr, .u32)
  | _, _ => none

/-- Comparison of a sign test; the zero test adds equality. -/
def comparison? (zeroTest signTest : Nat) : Option Comparison :=
  match decide (zeroTest = 1), signTest with
  | false, 0 => some .notEqual
  | false, 1 => some .less
  | false, 2 => some .greater
  | true, 0 => some .equal
  | true, 1 => some .lessOrEqual
  | true, 2 => some .greaterOrEqual
  | _, _ => none

/-- Turns a missing value into a fault. -/
def require {α : Type} (value? : Option α) (fault : DecodeFault) : Except DecodeFault α :=
  match value? with
  | some a => .ok a
  | none => .error fault

/-- Test of one component, written to a predicate register. -/
def testPredicate (f : Fields) (secondary : Bool) : Except DecodeFault Instruction := do
  let group := f.get 'l'
  let (op, element) ← require (testOperation? group (f.get 'u') (f.flag 'a')) .testOperation
  let comparison ← require (comparison? (f.get 'z') (f.get 'i')) .signTest
  let channel := f.get 'h'
  if 4 ≤ channel then throw (.testChannel channel)
  let float := group = 0
  let regs : RegisterField := ⟨float, if float then 8 else 7, secondary⟩
  checked {
    opcode := .vtst
    dest := { Operand.ofRegister .predicate (f.get 'n') .u32 with slot := 3 }
    src1 := { regs.source (f.get 'j') (f.get 'k') (f.flag 'c') 1 with
      element := element, modifiers := { negative := f.flag 'r' } }
    src2 := { regs.source (f.get 'q') (f.get 'f') (f.flag 'e') 2 with
      element := element
      swizzle := if f.flag 'v' && float then .replicate .x else .identity }
    destMask := 0b0001
    sourceMask := 1 <<< channel
    predicate := .ofCode (f.get 'p')
    skipInvalid := f.flag 's'
    detail := .test op comparison none }

/-- Test of four components, written as a mask. -/
def testMask (f : Fields) (secondary : Bool) : Except DecodeFault Instruction := do
  let group := f.get 'l'
  let (op, element) ← require (testOperation? group (f.get 'g') (f.flag 'e')) .testOperation
  let comparison ← require (comparison? (f.get 'z') (f.get 'i')) .signTest
  let mask ← match f.get 'a' with
    | 0 => pure Element.u8
    | 1 => pure .f16
    | 2 => pure .f32
    | _ => throw .maskElement
  if !f.flag 'w' then throw .maskWriteDisabled
  let regs : RegisterField := ⟨group = 0, 8, secondary⟩
  checked {
    opcode := .vtstmsk
    dest := { regs.dest (f.get 'f') (f.get 'b') (f.flag 'd') with element := mask }
    src1 := { regs.source (f.get 'h') (f.get 'n') (f.flag 'r') 1 with
      element := element, modifiers := { negative := f.flag 't' } }
    src2 := { regs.source (f.get 'j') (f.get 'k') (f.flag 'c') 2 with
      element := element
      swizzle := if f.flag 'v' then .replicate .x else .identity }
    predicate := .ofCode (f.get 'p')
    skipInvalid := f.flag 's'
    detail := .test op comparison (some mask) }

end Decode
end Microcode
