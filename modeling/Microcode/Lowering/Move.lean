import Microcode.Lowering.Arithmetic

/-!
Conditional moves.
-/

namespace Microcode
namespace Lowering

open Emit

/-- A choice between floats by arithmetic.  Infinities, NaNs and negative zeros of either side may
show in the result. -/
def blendMove (test : ZeroTest) (subject on off : Value) : Emit Value := do
  let zero ← splatConstant (.f32 0#32) (← countOf subject)
  match test with
  | .less =>
    let t ← builtin .step [zero, subject]
    builtin .mix [on, off, t]
  | .lessOrEqual =>
    let t ← builtin .step [subject, zero]
    builtin .mix [off, on, t]
  | .equal =>
    let sign ← builtin .sign [subject]
    let t ← unary .abs sign
    builtin .mix [on, off, t]
  | .notEqual =>
    let sign ← builtin .sign [subject]
    let t ← unary .abs sign
    builtin .mix [off, on, t]

def ZeroTest.compareOp : ZeroTest → CompareOp
  | .notEqual => .ne
  | .equal => .eq
  | .less => .lt
  | .lessOrEqual => .le

def selectMove (test : ZeroTest) (subject on off : Value) : Emit Value := do
  let shape ← shapeOf subject
  let zero ← splatConstant (.zero shape.scalar) shape.count
  let holds ← compare (ZeroTest.compareOp test) subject zero
  select holds on off

/-- Whether a conditional move is done by arithmetic. -/
def movesByBlend (ctx : Context) (o : Operation) : Bool :=
  ctx.options.move = .blend && o.src1.element.isFloat && o.src0.element.isFloat &&
    o.opcode ≠ .vmovcu8

/-- Moves the second source where the test holds of the first, and the third elsewhere. -/
def conditionalMove (ctx : Context) (i : Instruction) : Emit Unit := do
  let test := match i.detail with
    | .move _ test => test
    | _ => .notEqual
  let condition ← Access.condition i.predicate
  repeated i.toOperation fun _ advances => do
    let subject ← Access.load ctx i.src0 i.sourceMask advances.x
    let on ← Access.load ctx i.src1 i.sourceMask advances.y
    let off ← Access.load ctx i.src2 i.sourceMask advances.z
    let v ←
      if movesByBlend ctx i.toOperation then blendMove test subject on off
      else selectMove test subject on off
    Access.store ctx i.dest v i.destMask advances.w condition

end Lowering
end Microcode
