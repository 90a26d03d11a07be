import Microcode.Lowering.Arithmetic

/-!
Tests: a comparison whose outcome goes to a predicate register or to a mask.
-/

namespace Microcode
namespace Lowering

open Emit

/-- What a test computes before it compares with zero.  A subtraction computes nothing: its sources
are compared with each other. -/
def TestOp.opcode? : TestOp → Option Opcode
  | .sub => none
  | .add => some .vadd
  | .mul => some .vmul
  | .min => some .vmin
  | .max => some .vmax
  | .frc => some .vfrc
  | .rcp => some .vrcp
  | .rsq => some .vrsq
  | .log => some .vlog
  | .exp => some .vexp
  | .dp => some .vdp
  | .dsx => some .vdsx
  | .dsy => some .vdsy
  | .and => some .and
  | .or => some .or
  | .xor => some .xor
  | .shl => some .shl
  | .shr => some .shr
  | .rol => some .rol
  | .asr => some .asr

def Comparison.compareOp : Comparison → CompareOp
  | .notEqual => .ne
  | .equal => .eq
  | .less => .lt
  | .lessOrEqual => .le
  | .greater => .gt
  | .greaterOrEqual => .ge

def evaluateTest (ctx : Context) (i : Instruction) : Emit Value := do
  match i.detail with
  | .test op comparison _ =>
    let a ← Access.load ctx i.src1 i.sourceMask 0
    let b ← Access.load ctx i.src2 i.sourceMask 0
    match TestOp.opcode? op with
    | none => compare (Comparison.compareOp comparison) a b
    | some opcode =>
      let v ← compute ctx opcode [a, b] (i.src1.readsSame i.src2 i.sourceMask)
      let shape ← shapeOf v
      let zero ← splatConstant (.zero shape.scalar) shape.count
      compare (Comparison.compareOp comparison) v zero
  | _ => unsupported (.testMissing i.opcode)

/-- Writes the outcome for the first component. -/
def test (ctx : Context) (i : Instruction) : Emit Unit := do
  let condition ← Access.condition i.predicate
  Access.store ctx i.dest (← evaluateTest ctx i) 0b0001 0 condition

/-- What a mask holds where the test succeeds and where it fails. -/
def maskConstants (element : Element) : Constant × Constant :=
  if element = .u8 then (.u32 0xff#32, .u32 0#32) else (.f32 Binary32.one, .f32 0#32)

/-- Writes a mask with one element for each component. -/
def testMask (ctx : Context) (i : Instruction) : Emit Unit := do
  let element := match i.detail with
    | .test _ _ (some element) => element
    | _ => .f32
  let condition ← Access.condition i.predicate
  let outcome ← evaluateTest ctx i
  let count ← countOf outcome
  let on ← splatConstant (maskConstants element).1 count
  let off ← splatConstant (maskConstants element).2 count
  let v ← select outcome on off
  Access.store ctx i.dest v i.destMask 0 condition

end Lowering
end Microcode
