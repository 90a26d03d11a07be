import Microcode.Emit

/-!
Repeats.

A repeated instruction runs once more for each repeat, with its operands advanced by amounts that
depend on the repeat mode.
-/

namespace Microcode
namespace Lowering

open Emit

/-- Lanes by which the increment table advances an operand.  The multiplier is a signed number of
32 bits. -/
def tableAdvance (increments : Quad Increment) (multiplier : Quad Nat) (op : Operand)
    (iteration : Nat) : Int :=
  let amount := (increments.get op.slot).amount iteration
  if op.bank.isRepeatable then amount * (BitVec.ofNat 32 (multiplier.get op.slot)).toInt
  else amount

/-- Lanes, or internal registers, by which an operand is advanced at a repeat. -/
def advance (increments : Quad Increment) (o : Operation) (op : Operand) (iteration : Nat) : Int :=
  let isInternal := op.bank = .internal
  if o.repeatMode = .internal && isInternal then iteration
  else if op.modifiers.pinned then 0
  else match o.repeatMode with
    | .internal => 0
    | .external => if isInternal then 0 else 4 * iteration
    | .both => if isInternal then iteration else 4 * iteration
    | .table => tableAdvance increments o.repeatMultiplier op iteration

/-- Advances of the three sources and of the destination. -/
def advances (o : Operation) (iteration : Nat) : Emit (Quad Int) := do
  let increments := (← get).increments
  let amount (op : Operand) : Emit Int := offset (advance increments o op iteration)
  return ⟨← amount o.src0, ← amount o.src1, ← amount o.src2, ← amount o.dest⟩

/-- Runs a body once, and again for each repeat. -/
def repeated (o : Operation) (body : Nat → Quad Int → Emit Unit) : Emit Unit :=
  (List.range (o.repeatCount + 1)).forM fun iteration => do
    body iteration (← advances o iteration)

/-- Sets the increment table; modes and steps give the destination first, the table has it last. -/
def setIncrements (modes : Quad Bool) (steps : Quad (BitVec 8)) : Emit Unit :=
  let row (mode : Bool) (step : BitVec 8) := if mode then Increment.stride step else .codes step
  modify fun w => { w with
    increments := ⟨row modes.y steps.y, row modes.z steps.z, row modes.w steps.w,
      row modes.x steps.x⟩ }

end Lowering
end Microcode
