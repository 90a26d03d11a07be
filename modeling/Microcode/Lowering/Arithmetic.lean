import Microcode.Access.Store
import Microcode.Lowering.Repeat

/-!
Arithmetic instructions.
-/

namespace Microcode
namespace Lowering

open Emit

/-- Dot product; scalars are multiplied. -/
def dot (x y : Value) : Emit Value := do
  if (← shapeOf x).isScalar then binary .mul x y else builtin .dot [x, y]

/-- Rotation to the left, both shifts by amounts below 32. -/
def rotateLeft (a amount : Value) : Emit Value := do
  let shape ← shapeOf amount
  let last ← splatConstant (.ofNumber shape.scalar (Binary32.ofInt 31)) shape.count
  let width ← splatConstant (.ofNumber shape.scalar (Binary32.ofInt 32)) shape.count
  let up ← binary .and amount last
  let rest ← binary .sub width up
  let down ← binary .and rest last
  let left ← binary .shl a up
  let right ← binary .shr a down
  binary .or left right

/-- Opcodes that are one operation on two sources. -/
def binaryOp? : Opcode → Option BinaryOp
  | .vadd | .vf16add | .fadd => some .add
  | .vmul | .vf16mul | .fmul => some .mul
  | .vmin | .vf16min => some .min
  | .vmax | .vf16max => some .max
  | .and => some .and
  | .or => some .or
  | .xor => some .xor
  | .shl => some .shl
  | .shr => some .shr
  | .asr => some .asr
  | _ => none

/-- Derivatives exist in fragment shaders; elsewhere they are zero. -/
def derivative (ctx : Context) (f : Builtin) (a : Value) : Emit Value := do
  if ctx.shader.stage = .fragment then builtin f [a]
  else splatConstant (.f32 0#32) (← countOf a)

/-- The result of an arithmetic opcode.  `same` says that the first two sources read the same
data. -/
def compute (ctx : Context) (opcode : Opcode) (sources : List Value) (same : Bool) :
    Emit Value := do
  let arg (i : Nat) : Emit Value :=
    match sources[i]? with
    | some v => pure v
    | none => unsupported (.missingSource opcode i)
  match binaryOp? opcode with
  | some op => binary op (← arg 0) (← arg 1)
  | none =>
    match opcode with
    | .vmov => arg 0
    | .vmad | .vf16mad | .fmad =>
      let product ← binary .mul (← arg 0) (← arg 1)
      binary .add product (← arg 2)
    | .vfrc | .vf16frc | .fsubflr =>
      let a ← arg 0
      if same then builtin .fract [a]
      else
        let whole ← builtin .floor [← arg 1]
        binary .sub a whole
    | .vdp | .vf16dp => dot (← arg 0) (← arg 1)
    | .vssq =>
      let a ← arg 0
      dot a a
    | .vrcp | .frcp =>
      let a ← arg 0
      let one ← splatConstant (.f32 Binary32.one) (← countOf a)
      binary .div one a
    | .vrsq | .frsq => builtin .inverseSqrt [← arg 0]
    | .vlog | .flog => builtin .log2 [← arg 0]
    | .vexp | .fexp => builtin .exp2 [← arg 0]
    | .vdsx | .vf16dsx => derivative ctx .dfdx (← arg 0)
    | .vdsy | .vf16dsy => derivative ctx .dfdy (← arg 0)
    | .rol => rotateLeft (← arg 0) (← arg 1)
    | _ => unsupported (.noArithmetic opcode)

/-- Loads operands, each advanced as its slot is. -/
def loadSources (ctx : Context) (operands : List Operand) (mask : Mask) (advances : Quad Int) :
    Emit (List Value) :=
  operands.mapM fun op => Access.load ctx op mask (advances.get op.slot)

/-- Whether the first two operands read the same data. -/
def firstTwoSame (operands : List Operand) (mask : Mask) (advances : Quad Int) : Bool :=
  match operands with
  | a :: b :: _ => a.readsSame b mask && advances.get a.slot = advances.get b.slot
  | _ => false

/-- The write mask at a repeat. -/
def maskAt (i : Instruction) (iteration : Nat) : Mask :=
  match i.detail with
  | .dot true => iteration.repeat Mask.rotate i.destMask
  | _ => i.destMask

/-- Loads the sources, computes and stores, once for each repeat. -/
def arithmetic (ctx : Context) (i : Instruction) (sources : List Operand) : Emit Unit := do
  let condition ← Access.condition i.predicate
  repeated i.toOperation fun iteration advances => do
    let values ← loadSources ctx sources i.sourceMask advances
    let same := firstTwoSame sources i.sourceMask advances
    let v ← compute ctx i.opcode values same
    Access.store ctx i.dest v (maskAt i iteration) advances.w condition

end Lowering
end Microcode
