import Microcode.Access.Division
import Microcode.Resolve

/-!
Conversions between elements and numbers, and the predicates of instructions.
-/

namespace Microcode
namespace Access

open Emit

/-- Elements as floats; integers are divided by their maximum when `scale` is set. -/
def toFloat (v : Value) (source : Element) (scale : Bool) : Emit Value := do
  let shape ← shapeOf v
  let v ← if shape.scalar = .f32 then pure v else convert .numeric v .f32
  if scale && !source.isFloat then
    let factor ← splatConstant (.f32 (Binary32.div Binary32.one source.maximum)) shape.count
    binary .mul v factor
  else return v

/-- Floats as elements; when `scale` is set they are cut to the normalized range and multiplied by
the maximum. -/
def ofFloat (v : Value) (dest : Element) (scale : Bool) : Emit Value := do
  let count ← countOf v
  let v ←
    if scale then do
      let least := if dest.isSigned then Binary32.neg Binary32.one else 0#32
      let lo ← splatConstant (.f32 least) count
      let hi ← splatConstant (.f32 Binary32.one) count
      let maximum ← splatConstant (.f32 dest.maximum) count
      let clamped ← builtin .clamp [v, lo, hi]
      let scaled ← binary .mul clamped maximum
      builtin .round [scaled]
    else pure v
  convert .numeric v dest.scalar

/-- Brings a value to a scalar.  `keepBits` keeps the bits and not the number; truth values become
one and zero. -/
def coerce (v : Value) (scalar : Scalar) (keepBits : Bool) : Emit Value := do
  let shape ← shapeOf v
  if shape.scalar = scalar then return v
  if shape.scalar = .bool then
    let one ← splatConstant (.ofNumber scalar Binary32.one) shape.count
    let zero ← splatConstant (.zero scalar) shape.count
    select v one zero
  else convert (if keepBits then .bitcast else .numeric) v scalar

/-- The condition a predicate stands for, if it is one. -/
def condition (p : Predicate) : Emit (Option Value) := do
  match p.register? with
  | some (n, negated) =>
    let v ← Emit.load (← predicatePlace n)
    if negated then some <$> unary .not v else return some v
  | none => if p = .perLane then unsupported .perLanePredicate else return none

/-- The value where the condition holds, and what the place holds elsewhere. -/
def guarded (place : Place) (v : Value) (condition : Option Value) : Emit Value := do
  match condition with
  | some c => select c v (← Emit.load place)
  | none => return v

end Access
end Microcode
