import Microcode.Emit

/-!
Swizzles over values, and the modifiers of operands.
-/

namespace Microcode
namespace Access

open Emit

/-- What feeds one component of a swizzled value. -/
inductive Pick where
  | component (index : Nat)
  | literal (bits : Lane)
  deriving DecidableEq, Repr, Inhabited

namespace Pick

def index : Pick → Nat
  | component index => index
  | literal _ => 0

def literal? : Pick → Option Lane
  | component _ => none
  | literal bits => some bits

end Pick

/-- Component `c` of the storage is component `c + shift` of a value of `total` components, or the
nearest one there is. -/
def pick (total : Nat) (shift : Int) (channel : Channel) : Emit Pick := do
  match channel.storage? with
  | some c =>
    let index ← offset (c + shift)
    return .component (min (max 0 index) (total - 1)).toNat
  | none => return .literal channel.literal

/-- Literals of the picks, each with its position. -/
def literals (picks : List Pick) : List (Nat × Lane) :=
  picks.zipIdx.filterMap fun (p, slot) => p.literal?.map fun bits => (slot, bits)

/-- Applies a swizzle under a mask to `left` continued by `right`. -/
def bridge (left right : Value) (swizzle : Swizzle) (shift : Int) (mask : Mask) : Emit Value := do
  let scalar ← scalarOf left
  let count ← countOf left
  let total := count + (← countOf right)
  let picks ← (Mask.components mask).mapM fun i => pick total shift (swizzle.get i)
  match picks with
  | [.literal bits] => constant (.ofNumber scalar bits)
  | _ =>
    let indices := picks.map Pick.index
    let fixed := literals picks
    let base ←
      if fixed.isEmpty && indices == List.range count then pure left
      else shuffle left right indices
    fixed.foldlM
      (fun v (slot, bits) => do insert v (← constant (.ofNumber scalar bits)) slot) base

/-- Absolute value first, then negation.  Unsigned values have no absolute value and are negated as
differences from zero. -/
def modify (m : Modifiers) (v : Value) : Emit Value := do
  let shape ← shapeOf v
  let signed := shape.scalar = .f32 || shape.scalar = .i32
  let v ← if m.absolute && signed then unary .abs v else pure v
  if !m.negative then return v
  if signed then unary .neg v
  else if shape.scalar = .u32 then
    let zero ← splatConstant (.u32 0#32) shape.count
    binary .sub zero v
  else return v

end Access
end Microcode
