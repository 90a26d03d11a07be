import Microcode.Proofs.FramedAccess
import Microcode.Proofs.FramedLowering
import Microcode.Proofs.Storing

/-!
Register arithmetic that stays in its range.

Lane numbers have 32 bits.  A lane is clear if neither the binding at or before it nor, in an
attribute bank, its group ends past them; loads and stores whose lanes are clear do not overflow.
The frame of this module says which errors are left, for code that runs while the bindings are those
of a given register file: all but overflows, or none at all.
-/

namespace Microcode

open Emit Footprint List

variable (ctx : Context) {parts : List (Nat × Value)} {lane : Nat} {op : Operand}

/-- Holds of all errors that do not come from register arithmetic. -/
class Ordinary (E : Error → Prop) : Prop where
  holds : ∀ e, e ≠ .overflow → E e

instance ordinary_ne : Ordinary (· ≠ .overflow) := ⟨fun _ h => h⟩

/-- A register file with the bindings of `r`, in which the last group of no bank has a shadow. -/
structure RegisterFile.Over (r : RegisterFile) (r' : RegisterFile) : Prop where
  tables : r'.tables = r.tables
  last : ∀ bank, r'.shadow? bank 0xFFFFFFFC = none

/-- Code that, started over `r`, stays over it and fails with errors of `E` only. -/
def Footprint.steady (E : Error → Prop) (r : RegisterFile) : Footprint where
  Rel w w' := r.Over w.registers → r.Over w'.registers
  Fails w e w' := r.Over w.registers → r.Over w'.registers ∧ E e
  refl _ h := h
  trans h h' heq := h' (h heq)
  add _ _ _ h := h
  increments _ _ h := h
  earlier h hfails heq := hfails (h heq)

instance Footprint.steady_declaring (E : Error → Prop) (r : RegisterFile) :
    (steady E r).Declaring := ⟨fun _ _ h => h⟩

instance Footprint.steady_lenient (E : Error → Prop) (r : RegisterFile) : (steady E r).Lenient :=
  ⟨fun hfails h => (hfails h).1⟩

namespace RegisterFile

/-- Resolution of the lane stays in range. -/
structure Clear (r : RegisterFile) (bank : Bank) (lane : Nat) : Prop where
  ends : r.EndsAt bank lane
  seedable : bank.isShadowed = true → r.Seedable bank (lane / 4 * 4)

/-- No vector has more than four lanes. -/
class Narrow (r : RegisterFile) : Prop where
  vectors : ∀ bank, ∀ e ∈ (r.tables bank).entries, ∀ place lanes, e.2 = .vector place lanes →
    lanes ≤ 4

end RegisterFile

/-- An operand whose lanes, counted from `sub` on, are clear. -/
class Operand.Clear (r : RegisterFile) (op : Operand) (sub : Int) : Prop where
  low : -0x40000000 ≤ sub
  high : sub ≤ 0x40000000
  number : op.bank.isRegister = false → op.num < 0x40000000
  lanes : op.bank.isRegister = true → ∀ k < 4 / op.storage.ratio, ∀ lane : Nat,
    laneNumber op.bank op.num (sub + k) = lane → lane < 0x100000000 → r.Clear op.bank lane

namespace Steady

variable {E : Error → Prop} {r : RegisterFile} {w : Workspace} {bank : Bank}

-- Instances are sought for blocks of up to ten requests.
set_option synthInstance.maxSize 400

theorem within_of_over {α : Type} {x : Emit α}
    (h : ∀ w, r.Over w.registers → (steady E r).Leads x w fun _ _ => True) :
    Within (steady E r) x := by
  constructor
  intro w
  by_cases hover : r.Over w.registers
  · exact h w hover
  · unfold Leads
    split
    · exact ⟨fun h => absurd h hover, trivial⟩
    · exact fun h => absurd h hover

instance within_loadPlace (place : Place) : Within (steady E r) (Emit.load place) :=
  ⟨fun _ => ⟨fun h => h, trivial⟩⟩

instance within_storePlace (place : Place) (v : Value) : Within (steady E r) (Emit.store place v) :=
  ⟨fun _ => ⟨fun h => h, trivial⟩⟩

theorem may_ordinary [h : Ordinary E] {e : Error} (he : e ≠ .overflow) : (steady E r).May e :=
  ⟨fun _ hover => ⟨hover, h.holds e he⟩⟩

instance may_unresolved [Ordinary E] (bank : Bank) (index : Nat) :
    (steady E r).May (.unresolved bank index) := may_ordinary nofun

instance may_load [Ordinary E] (text : String) (fault : LoadFault) :
    (steady E r).May (.load text fault) := may_ordinary nofun

/-! ## Resolution -/

theorem leads_findBinding (h : r.EndsAt bank lane) (hover : r.Over w.registers) :
    (steady E r).Leads (findBinding bank lane) w fun found? _ =>
      ∀ e, found? = some e → e ∈ (r.tables bank).entries ∧ lane < e.1 + e.2.lanes := by
  unfold findBinding
  apply Leads.getRegisters
  rw [RegisterFile.candidate?, hover.tables]
  cases hc : (r.tables bank).floor? lane with
  | none => exact .pure fun _ h => by cases h
  | some entry =>
    have hmem := (OrderedMap.floorList_mem hc).1
    have hstop : entry.1 + entry.2.lanes < 0x100000000 := h entry.1 entry.2 hc
    apply (leads_word (within_word_of_lt (by omega)) w).bind
    rintro _ w1 - ⟨rfl, rfl⟩
    apply (leads_word (within_word_of_lt hstop) w1).bind
    rintro _ w2 - ⟨rfl, rfl⟩
    refine .pure fun e he => ?_
    by_cases hlane : lane < entry.1 + entry.2.lanes
    · rw [if_pos hlane, Option.some.injEq] at he
      subst he
      exact ⟨hmem, hlane⟩
    · rw [if_neg hlane] at he
      cases he

theorem leads_lookup [hr : r.Narrow] (h : r.EndsAt bank lane) (hover : r.Over w.registers) :
    (steady E r).Leads (lookup bank lane) w fun found? _ =>
      ∀ found, found? = some found → found.offset < 4 := by
  unfold Emit.lookup
  apply (leads_findBinding h hover).bind
  rintro entry? w1 - hentry
  cases entry? with
  | none => exact .pure fun _ h => by cases h
  | some entry =>
    obtain ⟨base, binding⟩ := entry
    obtain ⟨hmem, hlt⟩ := hentry _ rfl
    cases binding with
    | vector place lanes =>
      refine .pure fun found hfound => ?_
      obtain rfl := Option.some.inj hfound
      have hnarrow := hr.vectors bank _ hmem place lanes rfl
      dsimp only [Binding.lanes] at hlt ⊢
      omega
    | array place length =>
      dsimp only
      apply Leads.andThen
      intro place' w2 _
      refine .pure fun found hfound => ?_
      obtain rfl := Option.some.inj hfound
      dsimp only
      omega

theorem within_groupParts [r.Narrow] {stop : Nat} (fuel lane : Nat)
    (h : ∀ l, lane ≤ l → l < stop → r.EndsAt bank l) :
    Within (steady E r) (groupParts bank stop fuel lane) := by
  induction fuel generalizing lane with
  | zero =>
    unfold groupParts
    infer_instance
  | succ fuel ih =>
    unfold groupParts
    apply within_of_over
    intro w hover
    apply Leads.ite (fun _ => .pure trivial)
    intro hlane
    apply (leads_lookup (h lane (Nat.le_refl _) (Nat.lt_of_not_le hlane)) hover).bind
    intro found? w1 _ _
    have next (k : Nat) := ih (lane + k) fun l hl => h l (by omega)
    cases found? with
    | none =>
      have := next 1
      exact Within.leads w1
    | some found =>
      have := next (min (found.register.lanes - found.offset) (stop - lane))
      exact Within.leads w1

theorem within_makeShadow [r.Narrow] {group : Nat} (h : r.Seedable bank group) :
    Within (steady E r) (makeShadow bank group) := by
  unfold makeShadow
  apply Within.bind_cases
  intro place
  constructor
  intro w
  apply (leads_word (within_word_of_lt h.1) w).bind
  rintro _ w1 - ⟨rfl, rfl⟩
  have hends : ∀ l, group ≤ l → l < group + 4 → r.EndsAt bank l := by
    intro l hle hlt
    have heq : l = group + (l - group) := by omega
    rw [heq]
    exact h.2 (l - group) (by omega)
  have := within_groupParts (E := E) 4 group hends
  apply Leads.andThen
  intro parts w2 _
  apply Leads.andThen
  intro seed w3 _
  refine ⟨fun hover => ⟨hover.tables, fun b => ?_⟩, trivial⟩
  show (w3.registers.addShadow bank group place).shadow? b 0xFFFFFFFC = none
  rw [RegisterFile.shadow?_addShadow, if_neg]
  · exact hover.last b
  · have hgroup := h.1
    omega

/-- A lane that a store resolves in any case. -/
def Settled (bank : Bank) (num : Nat) (sub : Int) (forStore : Bool) : Prop :=
  0 ≤ laneNumber bank num sub ∧ laneNumber bank num sub < 0x100000000 ∧
    bank.isShadowed = true ∧ forStore = true

theorem leads_resolve [r.Narrow] {num : Nat} {sub : Int} {forStore : Bool}
    (hclear : ∀ lane : Nat, laneNumber bank num sub = lane → lane < 0x100000000 →
      r.Clear bank lane)
    (hfails : Settled bank num sub forStore ∨ E (.unresolved bank num))
    (hover : r.Over w.registers) :
    (steady E r).Leads (resolve bank num sub forStore) w fun found _ => found.offset < 4 ∧
      (bank.isShadowed = true → forStore = true →
        found.offset = (laneNumber bank num sub).toNat % 4) := by
  have unresolved (hnot : ¬ Settled bank num sub forStore) (w' : Workspace) :
      (steady E r).Fails w' (.unresolved bank num) w' :=
    fun hover => ⟨hover, hfails.resolve_left hnot⟩
  unfold resolve
  apply Leads.ite
  · intro hrange
    refine .throw (unresolved (fun hsettled => ?_) w)
    obtain ⟨hle, hlt, -⟩ := hsettled
    simp only [Bool.or_eq_true, decide_eq_true_eq] at hrange
    omega
  · intro hrange
    simp only [Bool.or_eq_true, decide_eq_true_eq, not_or] at hrange
    have hlane := hclear (laneNumber bank num sub).toNat (by omega) (by omega)
    have hoffset : (laneNumber bank num sub).toNat - (laneNumber bank num sub).toNat / 4 * 4 =
        (laneNumber bank num sub).toNat % 4 := by omega
    have held (register : Register) (w' : Workspace) : (steady E r).Leads (pure
        ⟨register, (laneNumber bank num sub).toNat - (laneNumber bank num sub).toNat / 4 * 4⟩ :
          Emit Resolved) w' fun found _ => found.offset < 4 ∧ (bank.isShadowed = true →
          forStore = true → found.offset = (laneNumber bank num sub).toNat % 4) :=
      .pure ⟨by dsimp only; omega, fun _ _ => hoffset⟩
    apply Leads.getRegisters
    split
    case h_1 register _ => exact held register w
    case h_2 =>
      apply Leads.ite
      · intro hshadowed
        rw [Bool.and_eq_true] at hshadowed
        have := within_makeShadow (E := E) (hlane.seedable hshadowed.1)
        apply Leads.andThen
        exact fun register w1 _ => held register w1
      · intro hshadowed
        apply (leads_lookup hlane.ends hover).bind
        intro found? w1 _ hfound
        cases found? with
        | some found =>
          refine .pure ⟨hfound found rfl, fun hbank hstore => absurd ?_ hshadowed⟩
          rw [hbank, hstore]
          rfl
        | none =>
          apply Leads.ite
          · rintro rfl
            have := within_makeShadow (E := E) (hlane.seedable rfl)
            apply Leads.andThen
            exact fun register w2 _ => held register w2
          · refine fun _ => .throw (unresolved (fun hsettled => hshadowed ?_) w1)
            rw [hsettled.2.2.1, hsettled.2.2.2]
            rfl

instance within_predicatePlace [Ordinary E] (n : Int) :
    Within (steady E r) (predicatePlace n) := by
  unfold predicatePlace
  constructor
  intro w
  refine .ite (fun _ => .raise) fun _ => .getRegisters ?_
  split
  · exact .pure trivial
  · exact ⟨fun hover => ⟨hover.tables, hover.last⟩, trivial⟩

/-! ## Loads -/

open Access

theorem leads_gatherFrom [Ordinary E] [r.Narrow] {num : Nat} {first : Int}
    (fuel got remaining : Nat)
    (hlow : -0x40000000 ≤ first) (hhigh : first + got + remaining ≤ 0x40000008)
    (hclear : ∀ j, j < got + remaining → ∀ lane : Nat,
      laneNumber bank num (first + j) = lane → lane < 0x100000000 → r.Clear bank lane)
    (hover : r.Over w.registers) :
    (steady E r).Leads (gatherFrom bank num first fuel got remaining) w fun segments _ =>
      ∀ s ∈ segments, s.start < 4 := by
  induction fuel generalizing w got remaining with
  | zero => exact .pure fun _ h => by cases h
  | succ fuel ih =>
    unfold gatherFrom
    refine .ite (fun _ => .pure fun _ h => by cases h) fun hremaining => ?_
    apply (leads_offset (within_offset_of_lt (by omega) (by omega)) w).bind
    rintro _ w1 - ⟨rfl, rfl⟩
    have hresolve : (steady E r).Leads (resolve bank num (first + got) false) w1 fun found _ =>
        found.offset < 4 :=
      (leads_resolve (hclear got (by omega)) (.inr (Ordinary.holds _ nofun)) hover).mono
        fun _ _ _ h => h.1
    apply hresolve.attempt.bind
    intro result w2 h2 hresult
    cases result with
    | error e =>
      apply Leads.ite
      · intro _
        refine Leads.bind (Q := fun _ _ => False) (.throw fun hover2 => ?_) fun _ _ _ h => h.elim
        exact ⟨hover2, (hresult.2 e rfl hover).2⟩
      · intro _
        apply Leads.andThen
        intro zeros w3 _
        refine .pure fun s hs => ?_
        rw [mem_singleton.1 hs]
        exact Nat.zero_lt_succ 3
    | ok found =>
      apply Leads.andThen
      intro v w3 h3
      have hrest := ih (w := w3) (got + min (found.register.lanes - found.offset) remaining)
        (remaining - min (found.register.lanes - found.offset) remaining) (by omega)
        (fun j hj => hclear j (by omega)) (h3 (h2 hover))
      apply hrest.bind
      intro rest w4 _ hstarts
      refine .pure fun s hs => ?_
      rcases mem_cons.1 hs with rfl | hmem
      · exact hresult.1 found rfl
      · exact hstarts s hmem

theorem leads_twoValues (segments : List Segment) :
    (steady E r).Leads (twoValues segments) w fun values _ =>
      values.2.2 = 0 ∨ ∃ s ∈ segments, values.2.2 = s.start := by
  have compacted (w : Workspace) : (steady E r).Leads (do
      let v ← compact segments
      return (v, v, 0)) w fun values _ =>
        values.2.2 = 0 ∨ ∃ s ∈ segments, values.2.2 = s.start := by
    apply Leads.andThen
    exact fun v w1 _ => .pure (.inl rfl)
  unfold twoValues
  split
  · exact .pure (.inr ⟨_, mem_cons_self, rfl⟩)
  · exact .ite (fun _ => .pure (.inr ⟨_, mem_cons_self, rfl⟩)) fun _ => compacted w
  · exact compacted w

/-- Shifts by no more than the elements of four lanes stay in range. -/
theorem within_shift {F : Footprint} (swizzle : Swizzle) {shift : Int} (hlow : -16 ≤ shift)
    (hhigh : shift ≤ 16) (i c : Nat) (h : (swizzle.get i).storage? = some c) :
    Within F (offset (c + shift)) := by
  have := Channel.storage?_lt h
  exact within_offset_of_lt (by omega) (by omega)

theorem leads_readLanes (op : Operand) (mask : Mask) {lo : Nat} (hlow : lo ≤ 4)
    (hlo : lo * op.storage.ratio ≤ 4) {segments : List Segment}
    (hsegments : ∀ s ∈ segments, s.start < 4) :
    (steady E r).Leads (readLanes ctx op mask lo segments) w fun _ _ => True := by
  unfold readLanes
  apply Leads.ite
  · intro _
    apply (leads_twoValues segments).bind
    rintro ⟨left, right, first⟩ w1 _ hfirst
    have hlt : first < 4 := by
      rcases hfirst with hzero | ⟨s, hs, heq⟩
      · exact Nat.lt_of_le_of_lt (Nat.le_of_eq hzero) (Nat.zero_lt_succ 3)
      · exact Nat.lt_of_le_of_lt (Nat.le_of_eq heq) (hsegments s hs)
    have hshift (i c : Nat) (h : (op.swizzle.get i).storage? = some c) :
        Within (steady E r) (offset (c + ((first : Int) - lo))) :=
      within_shift op.swizzle (by omega) (by omega) i c h
    have (left right : Value) := within_bridge_of hshift left right mask
    exact Within.leads w1
  · intro _
    have hshift (i c : Nat) (h : (op.swizzle.get i).storage? = some c) :
        Within (steady E r) (offset (c + -(lo * op.storage.ratio : Nat))) :=
      within_shift op.swizzle (by omega) (by omega) i c h
    have (packed : Value) := within_unpack_of ctx packed op.storage mask hshift
    exact Within.leads w

theorem within_loadRegister [Ordinary E] [r.Narrow] (mask : Mask) {sub : Int}
    (hbank : op.bank.isRegister = true) (h : op.Clear r sub) :
    Within (steady E r) (loadRegister ctx op mask sub) := by
  rw [loadRegister_eq]
  cases hspan : op.span? mask with
  | none =>
    dsimp only
    infer_instance
  | some span =>
    obtain ⟨lo, hi⟩ := span
    obtain ⟨hle, hwidth⟩ := Operand.span?_width hspan
    have hhi : hi + 1 ≤ 4 / op.storage.ratio :=
      (Nat.le_div_iff_mul_le op.storage.ratio_pos).2 hwidth
    have hlo : lo * op.storage.ratio ≤ 4 :=
      Nat.le_trans (Nat.mul_le_mul_right _ (Nat.le_succ_of_le hle)) hwidth
    have hfour : hi + 1 ≤ 4 := Nat.le_trans hhi (Nat.div_le_self 4 _)
    have hlow := h.low
    have hhigh := h.high
    apply within_of_over
    intro w hover
    apply (leads_offset (within_offset_of_lt (by omega) (by omega)) w).bind
    rintro _ w1 - ⟨rfl, rfl⟩
    apply (leads_gatherFrom (hi - lo + 1) 0 (hi - lo + 1) (by omega) (by omega) ?_ hover).bind
    · intro segments w2 _ hsegments
      exact leads_readLanes ctx op mask (by omega) hlo hsegments
    · intro j hj lane hlane
      refine h.lanes hbank (lo + j) (by omega) lane ?_
      rw [← hlane, Int.add_assoc, Int.natCast_add]

instance within_condition [Ordinary E] (p : Predicate) :
    Within (steady E r) (condition p) := by
  have (what : Unsupported) : (steady E r).May (.unsupported what) := may_ordinary nofun
  unfold condition
  split <;> infer_instance

instance hosts [Ordinary E] : (steady E r).Hosts where
  may _ he := may_ordinary he
  condition _ := inferInstance

theorem toInt_ofNat_of_lt {n : Nat} (h : n < 0x40000000) : (BitVec.ofNat 32 n).toInt = n := by
  have hmod : (BitVec.ofNat 32 n).toNat = n := by
    rw [BitVec.toNat_ofNat, Nat.mod_eq_of_lt (by omega)]
  rw [BitVec.toInt_eq_toNat_of_lt (by omega), hmod]

theorem within_predicateNumber {sub : Int} (hbank : op.bank.isRegister = false)
    (h : op.Clear r sub) : Within (steady E r) (predicateNumber op sub) := by
  have hnumber := h.number hbank
  have hlow := h.low
  have hhigh := h.high
  unfold predicateNumber
  rw [toInt_ofNat_of_lt hnumber]
  exact within_offset_of_lt (by omega) (by omega)

instance within_load [Ordinary E] [r.Narrow] (ctx : Context) (op : Operand) (mask : Mask)
    (sub : Int)
    [h : op.Clear r sub] : Within (steady E r) (Access.load ctx op mask sub) := by
  unfold Access.load
  dsimp only
  split
  · infer_instance
  · split
    case h_1 hbank =>
      have hnumber := h.number (by rw [hbank]; rfl)
      have hword (i : Nat) : Within (steady E r)
          (word (op.num + (op.swizzle.get i).storage?.getD 0)) := by
        apply within_word_of_lt
        cases hc : (op.swizzle.get i).storage? with
        | none => exact Nat.lt_trans hnumber (by decide)
        | some c =>
          have := Channel.storage?_lt hc
          simp only [Option.getD_some]
          omega
      have := within_loadConstant_of ctx (mask % 16) hword
      infer_instance
    case h_2 =>
      have : Within (steady E r) (loadImmediate op (mask % 16)) :=
        within_loadImmediate_of (mask % 16) (within_shift op.swizzle (by decide) (by decide))
      infer_instance
    case h_3 hbank =>
      have := within_predicateNumber (E := E) (by rw [hbank]; rfl) h
      infer_instance
    case h_4 =>
      split
      case isTrue hregister =>
        have := within_loadRegister (E := E) ctx (mask % 16) hregister h
        infer_instance
      case isFalse => infer_instance

/-! ## Stores -/

/-- Lane `k` of a destination is clear, and resolved unless the error is one of `E`. -/
structure Writable (E : Error → Prop) (r : RegisterFile) (dest : Operand) (sub : Int) (k : Nat) :
    Prop where
  low : -0x80000000 ≤ sub + k
  high : sub + k < 0x80000000
  clear : ∀ lane : Nat, laneNumber dest.bank dest.num (sub + k) = lane → lane < 0x100000000 →
    r.Clear dest.bank lane
  resolved : Settled dest.bank dest.num (sub + k) true ∨ E (.unresolved dest.bank dest.num)

theorem touched_lt (element : Element) {mask : Mask} {k : Nat} (h : Touched element.ratio mask k) :
    k < 4 / element.ratio := by
  obtain ⟨c, hc, rfl⟩ := h
  have hfour := Mask.lt_of_mem_components hc
  rcases element.ratio_cases with hratio | hratio | hratio <;> rw [hratio] <;> omega

/-- Every place may be written. -/
def rights (E : Error → Prop) (r : RegisterFile) : (steady E r).Rights where
  Writes _ _ := True
  later _ h := h
  load _ := Within.leads _
  store _ _ := Within.leads _

variable [r.Narrow] {dest : Operand} {sub : Int}

theorem Writable.serves {k : Nat} (h : Writable E r dest sub k) : (rights E r).Serves dest sub k where
  offset := within_offset_of_lt h.low h.high
  resolve := (within_of_over fun _ hover =>
    (leads_resolve h.clear h.resolved hover).mono fun _ _ _ _ => trivial).leads

theorem within_store (v : Value) {mask : Mask} (condition : Option Value)
    (hbank : dest.bank.isRegister = true)
    (h : ∀ k, Touched dest.storage.ratio mask k → Writable E r dest sub k) :
    Within (steady E r) (Access.store ctx dest v mask sub condition) := by
  have : Within (steady E r) (storeRegister ctx dest v (mask % 16) sub condition) :=
    Rights.within_storeRegister ctx v condition fun k hk =>
      (h k (by rwa [Touched, Mask.components_mod] at hk)).serves
  rw [store_of_isRegister ctx hbank]
  infer_instance

end Steady

open Steady

theorem Operand.Clear.open {E : Error → Prop} [Ordinary E] {r : RegisterFile} [r.Narrow] {sub : Int}
    (h : op.Clear r sub) : op.Open (steady E r) sub := by
  constructor
  · intro ctx swizzle mask
    have : Operand.Clear r { op with swizzle } sub := ⟨h.low, h.high, h.number, h.lanes⟩
    infer_instance
  · intro ctx v mask condition
    refine Access.within_store_of (fun hbank => ?_) fun hbank => Rights.within_storePredicate
      (A := rights E r) (within_predicateNumber hbank h) (fun _ _ => Within.leads _) v condition
    refine Rights.within_storeRegister ctx v condition fun k hk => Writable.serves ?_
    obtain ⟨c, hc, rfl⟩ := hk
    have hfour := Mask.lt_of_mem_components hc
    have hlow := h.low
    have hhigh := h.high
    have hlanes := h.lanes hbank
    rcases op.storage.ratio_cases with hratio | hratio | hratio <;> rw [hratio] at hlanes ⊢ <;>
      exact ⟨by omega, by omega, hlanes _ (by omega), .inr (Ordinary.holds _ nofun)⟩

end Microcode
