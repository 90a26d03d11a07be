import Microcode.Proofs.Ranges
import Microcode.Proofs.Decoders

/-!
How far the operands of a word reach.

The number of a register has at most seven bits, so that the registers that a word names, and the
lanes that its repeats and its transfers go on to, are far from the last lane.
-/

namespace Microcode

open Emit Footprint

/-! ## Operands -/

/-- An operation whose registers, repeats and multipliers are small numbers. -/
structure Operation.Near (o : Operation) : Prop where
  dest : o.dest.num < 2 ^ 24
  src0 : o.src0.num < 2 ^ 24
  src1 : o.src1.num < 2 ^ 24
  src2 : o.src2.num < 2 ^ 24
  repeatCount : o.repeatCount < 2 ^ 21
  multiplier : ∀ k, o.repeatMultiplier.get k ≤ 4

structure Instruction.Near (i : Instruction) : Prop extends Operation.Near i.toOperation where
  second : ∀ o, i.detail = .dual o → o.Near
  transfer : ∀ element count expanded, i.detail = .memory element count expanded → count ≤ 2 ^ 21

namespace RegisterField

theorem operand_num_lt (f : RegisterField) (bank : Bank) {num : Nat} (h : num < 2 ^ 23)
    (slot : Nat) : (f.operand bank num slot).num < 2 ^ 24 := by
  have hscale : f.scale bank num < 2 ^ 23 := by
    unfold scale
    split
    · exact Nat.lt_trans (Nat.mod_lt _ (by decide)) (by decide)
    · exact h
  have halias : (f.aliasInternal bank (f.scale bank num)).2 < 2 ^ 23 := by
    unfold aliasInternal
    split
    · dsimp only
      split <;> omega
    · exact hscale
  have hsplit (b : Bank) {n : Nat} (hn : n < 2 ^ 23) : (splitSpecial b n).2 < 2 ^ 24 := by
    unfold splitSpecial
    split
    · split
      · exact Nat.lt_trans (Nat.xor_lt_two_pow hn (by decide)) (by decide)
      · exact Nat.lt_trans hn (by decide)
    · exact Nat.lt_trans hn (by decide)
  exact hsplit _ halias

end RegisterField

theorem Decode.Traced.num_lt {family : Family} {f : Fields} {secondary second : Bool}
    {slot : OperandSlot} {op : Operand} (h : Traced family f secondary second slot op) :
    op.num < 2 ^ 24 := by
  cases h with
  | named name hname hwidth hop =>
    have hnumber := name.number_lt f
    rw [hop.num]
    refine RegisterField.operand_num_lt _ _ (Nat.lt_trans hnumber ?_) 0
    rcases hwidth with hwidth | hwidth <;> rw [hwidth] <;> decide
  | internal _ _ hnum | absent _ _ _ hnum | data _ _ _ _ hnum => exact Nat.lt_trans hnum (by decide)

theorem decode_near {word : Word} {secondary : Bool} {i : Instruction}
    (h : decode word secondary = .ok i) : i.Near := by
  obtain ⟨family, -, hfollows⟩ := decode_follows h
  have near (second : Bool) {o : Operation} (ho : i.operation? second = some o) : o.Near :=
    have hformed := hfollows.formed second o ho
    have operand (slot : OperandSlot) := (hformed.operand slot).num_lt
    ⟨operand .dest, operand .src0, operand .src1, operand .src2,
      Nat.lt_trans hformed.repeatCount (by decide), hformed.multiplier⟩
  exact ⟨near false rfl, fun o ho => near true (congrArg Detail.second? ho),
    fun element count expanded ho => Nat.le_trans (hfollows.transfer element count expanded ho)
      (by decide)⟩

/-! ## Reach of instructions -/

/-- Distances that repeats and transfers stay within. -/
def Nearby (sub : Int) : Prop := -2 ^ 24 ≤ sub ∧ sub ≤ 2 ^ 24

theorem Increment.amount_le (increment : Increment) {n : Nat} (hn : n < 2 ^ 21) :
    -2 ^ 21 ≤ increment.amount n ∧ increment.amount n ≤ 2 ^ 21 := by
  cases increment with
  | identity =>
    dsimp only [amount]
    omega
  | stride step =>
    have hlow : (n : Int) * -128 ≤ n * step.toInt :=
      Int.mul_le_mul_of_nonneg_left (BitVec.le_toInt step) (Int.natCast_nonneg n)
    have hhigh : (n : Int) * step.toInt ≤ n * 128 :=
      Int.mul_le_mul_of_nonneg_left (Int.le_of_lt BitVec.toInt_lt) (Int.natCast_nonneg n)
    dsimp only [amount]
    split <;> omega
  | codes packed =>
    dsimp only [amount]
    split <;> omega

namespace Lowering

theorem advance_nearby {o : Operation} (h : o.Near) (increments : Quad Increment) (op : Operand)
    {n : Nat} (hn : n ≤ o.repeatCount) : Nearby (advance increments o op n) := by
  have hcount := h.repeatCount
  have hmultiplier := h.multiplier op.slot
  have htable : Nearby (tableAdvance increments o.repeatMultiplier op n) := by
    have hamount := (increments.get op.slot).amount_le (Nat.lt_of_le_of_lt hn hcount)
    have hnonneg := Int.natCast_nonneg (o.repeatMultiplier.get op.slot)
    have hlow := Int.mul_le_mul_of_nonneg_right hamount.1 hnonneg
    have hhigh := Int.mul_le_mul_of_nonneg_right hamount.2 hnonneg
    unfold Nearby tableAdvance
    dsimp only
    rw [Steady.toInt_ofNat_of_lt (by omega)]
    split <;> omega
  unfold advance
  dsimp only
  split
  · unfold Nearby
    omega
  · split
    · exact ⟨by decide, by decide⟩
    · split
      · exact ⟨by decide, by decide⟩
      · unfold Nearby
        split <;> omega
      · unfold Nearby
        split <;> omega
      · exact htable

theorem leads_advances {F : Footprint} {o : Operation} (h : o.Near) {n : Nat}
    (hn : n ≤ o.repeatCount) (w : Workspace) :
    F.Leads (advances o n) w fun amounts _ => ∀ k, Nearby (amounts.get k) := by
  have amount (increments : Quad Increment) (op : Operand) (w : Workspace) :
      F.Leads (offset (advance increments o op n)) w fun m _ => Nearby m := by
    have hnear := advance_nearby h increments op hn
    unfold Nearby at hnear
    apply (leads_offset (within_offset_of_lt (by omega) (by omega)) w).mono
    rintro m _ - ⟨rfl, -⟩
    exact hnear
  unfold advances
  apply Leads.andThen
  intro w1 w2 _
  apply (amount _ _ w2).bind
  intro x w3 _ hx
  apply (amount _ _ w3).bind
  intro y w4 _ hy
  apply (amount _ _ w4).bind
  intro z w5 _ hz
  apply (amount _ _ w5).bind
  intro dest w6 _ hdest
  refine .pure fun k => ?_
  unfold Quad.get
  split
  · exact hx
  · exact hy
  · exact hz
  · exact hdest

end Lowering

/-- All lanes that a word can reach are clear. -/
class RegisterFile.Roomy (r : RegisterFile) : Prop extends r.Narrow where
  clear : ∀ bank lane, lane < 2 ^ 28 → r.Clear bank lane

section

variable {E : Error → Prop} [Ordinary E] {r : RegisterFile} [hr : r.Roomy]

theorem Operand.clear_of_lt {op : Operand} {sub : Int} (hnum : op.num < 2 ^ 25)
    (hsub : Nearby sub) :
    op.Clear r sub := by
  unfold Nearby at hsub
  refine ⟨by omega, by omega, fun _ => by omega, fun _ k hk lane hlane _ => hr.clear _ lane ?_⟩
  have hfour : k < 4 := Nat.lt_of_lt_of_le hk (Nat.div_le_self 4 _)
  unfold laneNumber at hlane
  split at hlane <;> omega

theorem Operation.Near.reached {o : Operation} (h : o.Near) : o.Reached (steady E r) Nearby where
  zero := ⟨by decide, by decide⟩
  dest _ hsub := (Operand.clear_of_lt (Nat.lt_trans h.dest (by decide)) hsub).open
  src0 _ hsub := (Operand.clear_of_lt (Nat.lt_trans h.src0 (by decide)) hsub).open
  src1 _ hsub := (Operand.clear_of_lt (Nat.lt_trans h.src1 (by decide)) hsub).open
  src2 _ hsub := (Operand.clear_of_lt (Nat.lt_trans h.src2 (by decide)) hsub).open
  advances _ hn w := Lowering.leads_advances h hn w

theorem Element.size_le (e : Element) : e.size ≤ 4 := by cases e <;> decide

theorem Instruction.Near.reached {i : Instruction} (h : i.Near) :
    i.Reached (steady E r) Nearby where
  toReached := h.toNear.reached
  second o ho := (h.second o ho).reached
  lanes element count expanded hdetail k hk := by
    have hcount := h.transfer element count expanded hdetail
    have hbytes := Nat.mul_le_mul element.size_le hcount
    have hdest := h.dest
    apply Operand.Clear.open
    apply Operand.clear_of_lt _ ⟨by decide, by decide⟩
    show i.dest.num + k < 2 ^ 25
    omega
  words element count expanded hdetail n hn := by
    have hcount := h.transfer element count expanded hdetail
    have hsrc1 := h.src1
    have hsrc2 := h.src2
    have hdest := h.dest
    have hbytes : element.size * (i.src1.num + count) ≤ 4 * (2 ^ 24 + 2 ^ 21) :=
      Nat.mul_le_mul element.size_le (by omega)
    exact within_word_of_lt (by omega)

/-- Words do not overflow where all lanes that they can reach are clear. -/
theorem Steady.within_stream (ctx : Context) (words : List Word) (secondary : Bool) :
    Within (steady E r) (lowerStream ctx words secondary) :=
  within_lowerStream ctx words secondary fun _ _ h => (decode_near h).reached

end

end Microcode
