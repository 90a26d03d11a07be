import Microcode.Proofs.Storing

/-!
Accesses of one lane.

Operands of bitwise instructions and of transfers have a single component.  Such an operand reads
one lane as it is, or a constant or an immediate as a number, and writes one lane; nothing else is
touched.
-/

namespace Microcode

open Machine Emit Access List

variable (ctx : Context) {x : Lane}

variable {start : Nat → Nat → Lanes} {w w' : Workspace} {s s' : State} {op dest : Operand} {sub : Int}

/-! ## Plain operands -/

/-- An operand that reads its elements, as wide as lanes, without changing them. -/
structure Operand.Plain (op : Operand) : Prop where
  swizzle : op.swizzle = Swizzle.identity
  absolute : op.modifiers.absolute = false
  negative : op.modifiers.negative = false
  whole : op.storage.ratio = 1

/-- The number of the lane that an operand names, advanced by `sub`. -/
def Operand.laneOf (op : Operand) (sub : Int) : Nat := (laneNumber op.bank op.num sub).toNat

/-- The word that a plain operand reads: the lane of a register, a constant converted to a number,
or an immediate. -/
def Operand.word? (ctx : Context) (op : Operand) (r : RegisterFile) (s : State) (sub : Int) :
    Option Lane :=
  match op.bank with
  | .immediate => some (immediateFill op).lane
  | .constant => (constantAt ctx op 0 op.num).map (Machine.convert .numeric .f32 op.element.scalar)
  | bank => r.laneAt s bank (op.laneOf sub)

theorem Operand.word?_of_isRegister (r : RegisterFile) (s : State)
    (hbank : op.bank.isRegister = true) (sub : Int) :
    op.word? ctx r s sub = r.laneAt s op.bank (op.laneOf sub) := by
  rw [Operand.word?]
  generalize op.bank = bank at hbank
  cases bank <;> first | rfl | cases hbank

namespace Operand.Plain

theorem span? (h : op.Plain) : op.span? 0b0001 = some (0, 0) := by
  rw [Operand.span?, Operand.storageOf, h.swizzle, h.whole]
  rfl

theorem apply (h : op.Plain) (scalar : Scalar) (x : Lane) : op.modifiers.apply scalar x = x := by
  simp [Modifiers.apply, h.absolute, h.negative]

theorem immediate (h : op.Plain) (scalar : Scalar) :
    ((Mask.components 0b0001).map op.immediate).map (op.modifiers.apply scalar) =
      [(immediateFill op).lane] := by
  rw [show Mask.components 0b0001 = [0] by decide, map_singleton, map_singleton, h.apply,
    Operand.immediate, h.swizzle]
  rfl

end Operand.Plain

theorem SameLanes.word? (h : SameLanes w s w' s') (ctx : Context) (op : Operand) (sub : Int) :
    op.word? ctx w'.registers s' sub = op.word? ctx w.registers s sub := by
  rw [Operand.word?, Operand.word?]
  split
  · rfl
  · rfl
  · exact h _ _

/-! ## Loads -/

theorem Operand.Plain.gathered (h : op.Plain) (good : Good w s)
    (hreach : w.registers.Reaches op.bank (laneNumber op.bank op.num sub) false) :
    w.registers.laneAt s op.bank (op.laneOf sub) =
      some (op.gathered w.registers s 0b0001 sub 0) := by
  rw [Operand.gathered, h.span?]
  simp only [Nat.sub_self, Nat.zero_add, Int.natCast_zero, Int.add_zero]
  have hlane : w.registers.laneAt s op.bank (laneNumber op.bank op.num sub + (0 : Nat)).toNat = _ :=
    good.registers.getD_lanesFrom (Nat.le_refl 1) (fun h => absurd h (Nat.lt_irrefl 0)) Nat.one_pos
      fun i hi => by
        obtain rfl : i = 0 := Nat.le_zero.1 hi
        rw [Int.natCast_zero, Int.add_zero]
        exact ⟨⟨hreach.1, hreach.2.1⟩, hreach.isSome_laneAt s⟩
  rwa [Int.natCast_zero, Int.add_zero] at hlane

theorem Operand.Plain.reads (h : op.Plain) (encoding : HalfEncoding) (lanes : Nat → Lane) :
    (Mask.components 0b0001).map (op.reads encoding lanes) = [lanes 0] := by
  rw [show Mask.components 0b0001 = [0] by decide, map_singleton, Operand.reads, h.swizzle]
  simp only [show (Swizzle.identity.get 0).storage? = some 0 from rfl, Nat.zero_div,
    Element.decode_whole _ h.whole]

theorem emits_load_lane (h : op.Plain) (hbank : op.bank.isRegister = true) (sub : Int) :
    Emits (.keeps start) (Access.load ctx op 0b0001 sub) w s
      (fun v w' s' => SameLanes w s w' s' ∧
        ∃ x, w.registers.laneAt s op.bank (op.laneOf sub) = some x ∧
          Holds w' s' v op.storage.scalar [x]) (fun _ _ => True) := by
  refine (emits_load ctx hbank (by decide) sub).rel.mono (fun v w' s' k h1 => ?_) fun _ _ _ => trivial
  obtain ⟨-, hv, hreach, -, hsame⟩ := h1
  have hnumber := hreach 0 0 h.span?
  rw [Int.natCast_zero, Int.add_zero] at hnumber
  refine ⟨hsame, _, h.gathered k.good hnumber, ?_⟩
  simp only [h.apply, h.reads] at hv
  exact hv

theorem Operand.Plain.word? (h : op.Plain) (hx : op.fixed? ctx 0 = some x) (r : RegisterFile)
    (s : State) (sub : Int) : op.word? ctx r s sub = some x := by
  rw [Operand.fixed?] at hx
  rw [Operand.word?]
  split at hx
  case h_1 hb =>
    rw [Operand.constant?, h.swizzle, op.storage_scalar] at hx
    rw [hb]
    exact hx
  case h_2 hb =>
    rw [Operand.immediate, h.swizzle] at hx
    rw [hb]
    exact hx
  case h_3 => cases hx

/-- A plain operand reads its word, and all lanes stay as they are. -/
theorem emits_load_word (h : op.Plain) (hbank : op.bank ≠ .predicate) (sub : Int) :
    Emits (.keeps start) (Access.load ctx op 0b0001 sub) w s
      (fun v w' s' => SameLanes w s w' s' ∧ ∃ x, op.word? ctx w.registers s sub = some x ∧
        Holds w' s' v op.storage.scalar [x]) (fun _ _ => True) := by
  by_cases hregister : op.bank.isRegister = true
  · simp only [Operand.word?_of_isRegister ctx _ _ hregister]
    exact emits_load_lane ctx h hregister sub
  · refine Emits.keeps ((emits_load_fixed ctx hregister hbank (by decide) sub).rel.gives
      fun v w' s' _ h1 => ?_)
    obtain ⟨q, xs, hxs, hv⟩ := h1
    obtain ⟨x, rfl⟩ : ∃ x, xs = [x] := length_eq_one_iff.1 (length_map some ▸ hxs ▸ rfl)
    refine ⟨Quiet.sameLanes q, x, h.word? ctx (head_eq_of_cons_eq hxs) .., ?_⟩
    rwa [map_singleton, h.apply] at hv

/-! ## Stores -/

/-- A write to one lane that takes place if the condition does. -/
theorem emits_store_lane (hbank : dest.bank.isRegister = true) (hwhole : dest.storage.ratio = 1)
    (sub : Int) {v : Value} (hv : Holds w s v dest.storage.scalar [x]) {condition : Option Value}
    {taken : Bool} (hc : Permits w s condition taken) :
    Emits (.alters start) (Access.store ctx dest v 0b0001 sub condition) w s
      (fun _ w' s' => w'.registers.BacksAt dest.bank (laneNumber dest.bank dest.num sub) ∧
        Writes w s w' s' dest.bank fun lane =>
          if taken = true ∧ lane = dest.laneOf sub then some x else none)
      (fun _ _ => Unwritable w.registers dest.bank dest.num sub [0]) := by
  have hlanes : dest.writtenLanes 0b0001 = [0] := by
    rw [writtenLanes_whole hwhole]
    decide
  refine (emits_store_value ctx hbank 0b0001 sub hv hc).mono (fun _ w' s' _ h => ?_) fun _ _ he => ?_
  · obtain ⟨g, hwrites, hg⟩ := h
    rw [hlanes] at hwrites hg
    obtain ⟨hbacks, old, -, hg⟩ := hg 0 (mem_singleton.2 rfl)
    have hg : g 0 = x := by
      rw [hg, merged_whole hwhole _ _ (by decide), Element.written, coerced, if_pos rfl]
      rfl
    rw [Int.natCast_zero, Int.add_zero] at hbacks
    have hnonneg := hbacks.1
    refine ⟨hbacks, ?_⟩
    have hnews : (fun lane : Nat => if taken = true then newLanes dest.bank dest.num sub [0] g lane
        else none) = fun lane => if taken = true ∧ lane = dest.laneOf sub then some x else none := by
      funext lane
      cases taken with
      | false => rfl
      | true =>
        have hlane : decide (laneNumber dest.bank dest.num (sub + (0 : Nat)) = lane) =
            decide (lane = dest.laneOf sub) := by
          rw [decide_eq_decide, Operand.laneOf, Int.natCast_zero, Int.add_zero]
          omega
        simp only [newLanes, find?_singleton, hlane, true_and]
        by_cases heq : lane = dest.laneOf sub
        · simp [heq, hg]
        · simp [heq]
    rwa [hnews] at hwrites
  · rwa [hlanes] at he

theorem store_of_not_isRegister (hbank : ¬ dest.bank.isRegister = true)
    (hpredicate : dest.bank ≠ .predicate) (v : Value) (sub : Int) (condition : Option Value) :
    Access.store ctx dest v 0b0001 sub condition = unsupported (.storeBank dest.bank) := by
  have hmask : (0b0001 : Mask) % 16 = 0b0001 := by decide
  rw [Access.store]
  simp only [hmask, if_neg (show ¬ (0b0001 : Mask) = 0 by decide)]
  generalize dest.bank = bank at hbank hpredicate
  cases bank
  case predicate => exact absurd rfl hpredicate
  all_goals first | rfl | exact absurd rfl hbank

/-! ## Writes on a machine -/

section

variable {S T : State} {bank : Bank} {news : Nat → Option Lane}

theorem Writes.laneAt_written (h : Writes w (S.upTo w.listing) w' s' bank news)
    (a : Advances S.held w (S.upTo w.listing) w' s') (hT : T.Shows S.held w'.listing s')
    {lane : Nat} (hx : news lane = some x) : w'.registers.laneAt T bank lane = some x := by
  rw [hT.laneAt a.good'.registers]
  exact h.written hx

theorem Writes.laneAt_kept (h : Writes w (S.upTo w.listing) w' s' bank news)
    (a : Advances S.held w (S.upTo w.listing) w' s') (hT : T.Shows S.held w'.listing s')
    {bank' : Bank} {lane : Nat} (hnone : bank' = bank → news lane = none)
    (hx : w.registers.laneAt S bank' lane = some x) :
    w'.registers.laneAt T bank' lane = some x := by
  rw [(State.shows_upTo w.listing S).laneAt a.good.registers] at hx
  rw [hT.laneAt a.good'.registers]
  exact h.kept hnone hx

theorem Alters.predicateAt_kept (a : Alters S.held w (S.upTo w.listing) w' s')
    (hT : T.Shows S.held w'.listing s') {slot : Nat} (hslot : slot < 4)
    (hx : w.registers.predicateAt S slot = some x) : w'.registers.predicateAt T slot = some x := by
  rw [(State.shows_upTo w.listing S).predicateAt a.good.registers hslot] at hx
  rw [hT.predicateAt a.good'.registers hslot]
  exact a.predicateAt hslot hx

end

end Microcode
