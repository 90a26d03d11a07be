import Microcode.Proofs.Confinement
import Microcode.Proofs.FramedLowering
import Microcode.Proofs.Decoders

/-!
Streams that keep to some banks.

The code of an instruction keeps to the banks of its operands.  A word of a secondary program names
secondary attributes and internal registers and no other lanes, so that its code keeps to these,
whatever the word is.
-/

namespace Microcode

open Emit Footprint

/-! ## Operands of instructions -/

/-- An operation all of whose operands are in banks of `B`. -/
structure Operation.In (B : Bank → Prop) (o : Operation) : Prop where
  dest : o.dest.In B
  src0 : o.src0.In B
  src1 : o.src1.In B
  src2 : o.src2.In B

/-- An instruction all of whose operands are in banks of `B`, those of a second operation
included. -/
structure Instruction.In (B : Bank → Prop) (i : Instruction) : Prop extends
    Operation.In B i.toOperation where
  second : ∀ o, i.detail = .dual o → o.In B

theorem Operand.in_any (op : Operand) : op.In Bank.any := ⟨fun _ => trivial⟩

theorem Operation.in_any (o : Operation) : o.In Bank.any := ⟨o.dest.in_any, o.src0.in_any, o.src1.in_any, o.src2.in_any⟩

theorem Instruction.in_any (i : Instruction) : i.In Bank.any :=
  ⟨i.toOperation.in_any, fun o _ => o.in_any⟩

/-! ## Code of instructions -/

section

variable {B : Bank → Prop}

instance Footprint.confined_hosts : (confined B).Hosts :=
  ⟨fun e _ => confined_may B e, fun _ => inferInstance⟩

theorem Operand.In.open {op : Operand} (h : op.In B) (sub : Int) : op.Open (confined B) sub := by
  constructor
  · intro ctx swizzle mask
    have : Operand.In B { op with swizzle } := h.of_bank rfl
    infer_instance
  · intro ctx v mask condition
    infer_instance

theorem Operation.In.reached {o : Operation} (h : o.In B) :
    o.Reached (confined B) fun _ => True where
  zero := trivial
  dest sub _ := h.dest.open sub
  src0 sub _ := h.src0.open sub
  src1 sub _ := h.src1.open sub
  src2 sub _ := h.src2.open sub
  advances _ _ w := (Within.leads w).mono fun _ _ _ _ _ => trivial

theorem Instruction.In.reached {i : Instruction} (h : i.In B) :
    i.Reached (confined B) fun _ => True where
  toReached := h.toIn.reached
  second o ho := (h.second o ho).reached
  lanes _ _ _ _ k _ :=
    have hlane : (Lowering.nextLane { i.dest with element := .f32 } k).In B := h.dest.of_bank rfl
    hlane.open 0
  words _ _ _ _ _ _ := inferInstance

end

/-! ## Words of secondary programs -/

/-- The lanes that a secondary program has. -/
def Bank.isSecondary (bank : Bank) : Prop := bank = .secondaryAttribute ∨ bank = .internal

namespace RegisterField

theorem restrict_in {regs : RegisterField} (h : regs.secondary = true) (bank : Bank) :
    (regs.restrict bank).In Bank.isSecondary := by
  intro hregister
  unfold restrict at hregister ⊢
  rw [h] at hregister ⊢
  cases bank with
  | internal => exact .inr rfl
  | constant | immediate => cases hregister
  | _ => exact .inl rfl

end RegisterField

theorem Decode.Traced.in {family : Family} {f : Fields} {second : Bool} {slot : OperandSlot}
    {op : Operand} (h : Traced family f true second slot op) : op.In Bank.isSecondary := by
  constructor
  cases h with
  | named name hname hwidth hop =>
    rw [hop.bank]
    exact RegisterField.restrict_in rfl _
  | internal _ hbank => exact fun _ => .inr hbank
  | absent _ hbank => exact fun hregister => absurd (hbank.symm.trans hregister) Bool.false_ne_true
  | data _ _ _ hbank => exact fun _ => .inl (hbank rfl)

/-- A word of a secondary program names no lanes but those of secondary attributes and internal
registers. -/
theorem decode_secondary_in {word : Word} {i : Instruction} (h : decode word true = .ok i) :
    i.In Bank.isSecondary := by
  obtain ⟨family, -, hfollows⟩ := decode_follows h
  have within (second : Bool) {o : Operation} (ho : i.operation? second = some o) :
      o.In Bank.isSecondary :=
    have operand (slot : OperandSlot) := ((hfollows.formed second o ho).operand slot).in
    ⟨operand .dest, operand .src0, operand .src1, operand .src2⟩
  exact ⟨within false rfl, fun o ho => within true (congrArg Detail.second? ho)⟩

end Microcode
