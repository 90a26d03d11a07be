import Microcode.Proofs.Histories
import Microcode.Proofs.Tandem

/-!
Registers of guarded code and of the same code without guards.

Both sides resolve a lane to corresponding registers, or neither resolves it.  New shadows hold the
same lanes because their groups do.  The predicate register that the guard tests is matched when the
right side declares it, and until then the left side has not written it.
-/

namespace Microcode

open Machine Emit List RegisterFile State

namespace Tandem

variable {σ : Course} {W W' : Tandem σ}

/-! ## New variables -/

/-- Code that keeps every lane, after which the variables `x` and `x'` correspond. -/
structure Extension (W : Tandem σ) (w : Workspace) (s : State) (w' : Workspace) (s' : State)
    (x x' : Nat) : Prop where
  keeps : Keeps σ.before.held W.left W.leftState w s
  keeps' : Keeps σ.before'.held W.right W.rightState w' s'
  unmatched : ∀ a ∈ W.map, a.1 ≠ x
  unmatched' : ∀ a ∈ W.map, a.2 ≠ x'
  declared : x < w.listing.vars.size ∧ x' < w'.listing.vars.size
  alike : w'.listing.vars.getD x' default = w.listing.vars.getD x default
  shadows : ∀ bank group, Option.Rel (Register.Matches ((x, x') :: W.map))
    (w.registers.shadow? bank group) (w'.registers.shadow? bank group)
  predicates : ∀ slot, slot < 4 → σ.PredicateMatches ((x, x') :: W.map) w.listing s slot
    (w.registers.predicates.get slot) (w'.registers.predicates.get slot)
  same : σ.Linked ((x, x') :: W.map) w.listing w'.listing s → ∀ path,
    elementIndex ⟨x, path⟩ < (w.listing.vars.getD x default).length →
      ∀ i, i < (w.listing.vars.getD x default).shape.count →
        (s'.read ⟨x', path⟩).get i = (s.read ⟨x, path⟩).get i
  still : ∀ {slot place}, slot < 4 → w.registers.predicates.get slot = some place →
    W.left.registers.predicates.get slot = some place ∨
      (s.read place).x = (σ.before.read place).x

namespace Extension

variable {w w' : Workspace} {s s' : State} {x x' : Nat}

theorem linked (h : W.Extension w s w' s' x x')
    (hlinked : σ.Linked ((x, x') :: W.map) w.listing w'.listing s) : W.Linked :=
  hlinked.before (fun _ ha => mem_cons_of_mem _ ha) h.keeps.steps h.keeps'.steps
    W.goodLeft.live.fits W.guard_defined

def tandem (h : W.Extension w s w' s' x x') : Tandem σ where
  left := w
  right := w'
  leftState := s
  rightState := s'
  map := (x, x') :: W.map
  goodLeft := h.keeps.good'
  goodRight := h.keeps'.good'
  increments := by rw [h.keeps.increments, h.keeps'.increments, W.increments]
  tables := by rw [h.keeps.tables, h.keeps'.tables, W.tables]
  bound hb := by
    rw [h.keeps.bound?] at hb
    exact (W.bound hb).mono fun _ ha => .tail _ ha
  shadows := h.shadows
  predicates := h.predicates
  injective a ha b hb := by
    rcases mem_cons.1 ha with rfl | ha <;> rcases mem_cons.1 hb with rfl | hb
    · exact ⟨fun _ => rfl, fun _ => rfl⟩
    · exact ⟨fun e => absurd e.symm (h.unmatched b hb), fun e => absurd e.symm (h.unmatched' b hb)⟩
    · exact ⟨fun e => absurd e (h.unmatched a ha), fun e => absurd e (h.unmatched' a ha)⟩
    · exact W.injective a ha b hb
  declared a ha := by
    rcases mem_cons.1 ha with rfl | ha
    · exact h.declared
    · obtain ⟨hleft, hright⟩ := W.declared a ha
      exact ⟨Nat.lt_of_lt_of_le hleft h.keeps.steps.extension.vars_size,
        Nat.lt_of_lt_of_le hright h.keeps'.steps.extension.vars_size⟩
  alike a ha := by
    rcases mem_cons.1 ha with rfl | ha
    · exact h.alike
    · obtain ⟨hleft, hright⟩ := W.declared a ha
      rw [h.keeps.steps.extension.vars _ hleft, h.keeps'.steps.extension.vars _ hright]
      exact W.alike a ha
  memory := h.keeps.memory.trans W.memory
  memory' := by rw [h.keeps.memory, h.keeps'.memory, W.memory']
  guard_defined := h.keeps.steps.extension.defines W.guard_defined
  guard_shape := (h.keeps.steps.extension.shapeOf W.guard_defined).trans W.guard_shape
  same hlinked p p' hp hin i hi := by
    obtain ⟨y, path⟩ := p
    obtain ⟨y', path'⟩ := p'
    obtain rfl : path' = path := hp.path
    rcases mem_cons.1 hp.mem with heq | hmem
    · obtain ⟨rfl, rfl⟩ := Prod.mk.inj heq
      exact h.same hlinked path' hin i hi
    · have hstorage : W.Storage ⟨y, path'⟩ ⟨y', path'⟩ := ⟨hmem, rfl⟩
      obtain ⟨hleft, hright⟩ := hstorage.declares
      rw [h.keeps.steps.extension.variableAt hleft] at hin hi
      rw [h.keeps.read hleft, h.keeps'.read hright]
      exact W.same (h.linked hlinked) hstorage hin i hi
  still hguard := by
    rw [h.keeps.steps.lanes_eq W.goodLeft.live.fits W.guard_defined] at hguard
    have hbefore := W.still hguard
    constructor
    · intro bank lane y hy
      exact h.keeps.lanes (hbefore.lanes hy)
    · intro slot place hslot hplace
      rcases h.still hslot hplace with hold | hnew
      · rw [h.keeps.read (W.goodLeft.registers.predicate hslot hold).declared]
        exact hbefore.predicates hslot hold
      · exact hnew

theorem later (h : W.Extension w s w' s' x x') : W.Later h.tandem :=
  ⟨h.keeps.steps, h.keeps'.steps, fun _ ha => (.tail _ ha), h.keeps.predicates⟩

end Extension

/-! ## Shadows -/

theorem bound?_eq (W : Tandem σ) (bank : Bank) (lane : Nat) :
    W.right.registers.bound? bank lane = W.left.registers.bound? bank lane := by
  simp only [RegisterFile.bound?, RegisterFile.find?, RegisterFile.candidate?, W.tables]

theorem lookup_rel {α β κ : Type} [BEq κ] {R : α → β → Prop} {as : List (κ × α)} {bs : List (κ × β)}
    (h : List.Forall₂ (fun a b => b.1 = a.1 ∧ R a.2 b.2) as bs) (key : κ) :
    Option.Rel R (as.lookup key) (bs.lookup key) := by
  induction h with
  | nil => exact .none
  | @cons a b _ _ hab _ ih =>
    obtain ⟨hkey, hR⟩ := hab
    rw [lookup_cons, lookup_cons, hkey]
    split
    · exact .some hR
    · exact ih

theorem isSome_eq_of_rel {α β : Type} {R : α → β → Prop} {a : Option α} {b : Option β}
    (h : Option.Rel R a b) : b.isSome = a.isSome := by
  cases h <;> rfl

theorem shadows_cons (W : Tandem σ) (pair : Nat × Nat) (bank : Bank) (group : Nat) :
    Option.Rel (Register.Matches (pair :: W.map)) (W.left.registers.shadow? bank group)
      (W.right.registers.shadow? bank group) := by
  have hrel := W.shadows bank group
  generalize W.left.registers.shadow? bank group = register at hrel ⊢
  generalize W.right.registers.shadow? bank group = register' at hrel ⊢
  cases hrel with
  | none => exact .none
  | some h => exact .some (h.mono fun _ ha => mem_cons_of_mem _ ha)

theorem boundLane_eq (W : Tandem σ) (hlinked : W.Linked) (bank : Bank) (lane : Nat) :
    W.right.registers.boundLane W.rightState bank lane =
      W.left.registers.boundLane W.leftState bank lane := by
  rw [boundLane, boundLane, W.bound?_eq]
  cases hfound : W.left.registers.bound? bank lane with
  | none => rfl
  | some found =>
    have hvalid := (W.goodLeft.registers.bound hfound).place
    show found.content W.rightState = found.content W.leftState
    apply W.same hlinked (W.bound hfound) hvalid.element
    rw [hvalid.shape]
    exact (bound?_covers hfound).2

theorem unmatched_new (W : Tandem σ) : ∀ a ∈ W.map, a.1 ≠ W.left.listing.vars.size :=
  fun a ha => Nat.ne_of_lt (W.declared a ha).1

theorem unmatched_new' (W : Tandem σ) : ∀ a ∈ W.map, a.2 ≠ W.right.listing.vars.size :=
  fun a ha => Nat.ne_of_lt (W.declared a ha).2

/-- A place within a variable that is no array stands for the whole variable. -/
theorem read_of_length_one {v : Variable} {x : Nat} {path : List Nat} (hv : v.length = 1)
    (hin : elementIndex ⟨x, path⟩ < v.length) (s : State) (y : Nat) :
    s.read ⟨y, path⟩ = s.read ⟨y, []⟩ := by
  have hzero : elementIndex ⟨y, path⟩ = 0 := by
    show elementIndex ⟨x, path⟩ = 0
    omega
  rw [State.read, State.read, hzero]
  rfl

theorem sim_makeShadow {bank : Bank} {group : Nat} (hbank : bank.isShadowed = true)
    (hgroup : group % 4 = 0) (hnone : W.left.registers.shadow? bank group = none) :
    W.Sim (makeShadow bank group) (makeShadow bank group) fun W' r r' => r.Matches W'.map r' := by
  intro r w r' w' hw hw'
  have hnone' : W.right.registers.shadow? bank group = none := by
    rw [← Option.not_isSome_iff_eq_none, isSome_eq_of_rel (W.shadows bank group), hnone]
    exact Bool.false_ne_true
  obtain ⟨s, k, hs⟩ :=
    (@emits_makeShadow σ.before.held _ _ _ _ hbank hgroup hnone).of_ok W.goodLeft hw
  obtain ⟨s', k', hs'⟩ :=
    (@emits_makeShadow σ.before'.held _ _ _ _ hbank hgroup hnone').of_ok W.goodRight hw'
  obtain ⟨rfl, hregisters, -, hvars, hseeded⟩ := hs
  obtain ⟨rfl, hregisters', -, hvars', hseeded'⟩ := hs'
  have hnew : w.listing.vars.getD W.left.listing.vars.size default =
      ⟨bank.name ++ toString group ++ "_shadow", Shape.group, .hidden⟩ := by
    rw [hvars, getD_push_size]
  have hnew' : w'.listing.vars.getD W.right.listing.vars.size default =
      ⟨bank.name ++ toString group ++ "_shadow", Shape.group, .hidden⟩ := by
    rw [hvars', getD_push_size]
  have extension : W.Extension w s w' s' W.left.listing.vars.size W.right.listing.vars.size := by
    constructor
    · exact k
    · exact k'
    · exact W.unmatched_new
    · exact W.unmatched_new'
    · rw [hvars, hvars']
      simp
    · rw [hnew, hnew']
    · intro b g
      rw [hregisters, hregisters', shadow?_addShadow, shadow?_addShadow]
      by_cases hnew : b = bank ∧ g = group
      · rw [if_pos hnew, if_pos hnew]
        exact .some ⟨⟨mem_cons_self, rfl⟩, rfl, rfl⟩
      · rw [if_neg hnew, if_neg hnew]
        exact W.shadows_cons _ b g
    · intro slot hslot
      rw [hregisters, hregisters']
      apply (W.predicates slot hslot).mono (fun _ ha => mem_cons_of_mem _ ha) ?_
        k.steps.extension k.read
      intro a ha
      rcases mem_cons.1 ha with rfl | ha
      · exact .inr (Nat.le_refl _)
      · exact .inl ha
    · intro hlinked path hin i hi
      rw [hnew] at hin hi
      have hW : W.Linked := hlinked.before (fun _ ha => mem_cons_of_mem _ ha) k.steps k'.steps
        W.goodLeft.live.fits W.guard_defined
      rw [read_of_length_one rfl hin, read_of_length_one rfl hin, hseeded i hi, hseeded' i hi]
      exact W.boundLane_eq hW bank (group + i)
    · intro slot place _ hplace
      rw [hregisters] at hplace
      exact .inl hplace
  exact ⟨extension.tandem, extension.later, rfl, rfl, ⟨mem_cons_self, rfl⟩, rfl, rfl⟩

/-! ## Lanes -/

theorem sim_lookup (bank : Bank) (lane : Nat) :
    W.Sim (lookup bank lane) (lookup bank lane) fun W' found? found?' => found?' = found? ∧
      W'.left.registers = W.left.registers ∧
        ∀ found, found? = some found → found.register.Matches W'.map found.register := by
  intro found? w found?' w' hw hw'
  obtain ⟨s, q, hfound, -⟩ := (@emits_lookup σ.before.held _ _ bank lane).of_ok W.goodLeft.live hw
  obtain ⟨s', q', hfound', -⟩ :=
    (@emits_lookup σ.before'.held _ _ bank lane).of_ok W.goodRight.live hw'
  refine ⟨W.quiet q q', W.later_quiet q q', rfl, rfl, ?_, q.registers, ?_⟩
  · rw [hfound, hfound', W.bound?_eq]
  · intro found h
    rw [hfound] at h
    exact ⟨W.bound h, rfl, rfl⟩

/-- Resolved lanes at the same offset of corresponding registers. -/
instance : Related σ Resolved where
  rel W a b := a.register.Matches W.map b.register ∧ b.offset = a.offset
  later h hr := ⟨hr.1.mono h.map, hr.2⟩

instance : Related σ Register where
  rel W := Register.Matches W.map
  later h hr := hr.mono h.map

theorem Sim.getRegisters {α β : Type} {f : RegisterFile → Emit α} {g : RegisterFile → Emit β}
    {R : Tandem σ → α → β → Prop} (h : W.Sim (f W.left.registers) (g W.right.registers) R) :
    W.Sim (Emit.getRegisters >>= f) (Emit.getRegisters >>= g) R := h

instance sided_resolve (bank : Bank) (index : Nat) (sub : Int) (forStore : Bool) :
    Sided W (resolve bank index sub forStore) (resolve bank index sub forStore) := by
  constructor
  unfold resolve
  apply Sim.ite (fun _ => .throw)
  intro _
  apply Sim.getRegisters
  generalize (laneNumber bank index sub).toNat = lane
  have hgroup : lane / 4 * 4 % 4 = 0 := by omega
  have hrel : Option.Rel (Register.Matches W.map)
      (if bank.isShadowed = true then W.left.registers.shadow? bank (lane / 4 * 4) else none)
      (if bank.isShadowed = true then W.right.registers.shadow? bank (lane / 4 * 4) else none) := by
    by_cases hbank : bank.isShadowed = true
    · rw [if_pos hbank, if_pos hbank]
      exact W.shadows bank _
    · rw [if_neg hbank, if_neg hbank]
      exact .none
  have hshadow (W' : Tandem σ) (hbank : bank.isShadowed = true)
      (hnone : W'.left.registers.shadow? bank (lane / 4 * 4) = none) :
      W'.Sim (do return ⟨← makeShadow bank (lane / 4 * 4), lane - lane / 4 * 4⟩)
        (do return ⟨← makeShadow bank (lane / 4 * 4), lane - lane / 4 * 4⟩)
        (fun W'' (a b : Resolved) => Related.rel W'' a b) :=
    (sim_makeShadow hbank hgroup hnone).bind fun _ _ _ _ h => .pure ⟨h, rfl⟩
  revert hrel
  generalize hleft : (if bank.isShadowed = true then W.left.registers.shadow? bank (lane / 4 * 4)
    else none) = left
  generalize (if bank.isShadowed = true then W.right.registers.shadow? bank (lane / 4 * 4)
    else none) = right
  intro hrel
  cases hrel with
  | some hregister => exact .pure ⟨hregister, rfl⟩
  | none =>
    have hnone (hbank : bank.isShadowed = true) :
        W.left.registers.shadow? bank (lane / 4 * 4) = none := by
      rw [if_pos hbank] at hleft
      exact hleft
    apply Sim.ite
    · intro hstore
      rw [Bool.and_eq_true] at hstore
      exact hshadow W hstore.1 (hnone hstore.1)
    · intro _
      apply (sim_lookup bank lane).bind
      rintro W1 _ found? - ⟨rfl, hregisters, hfound⟩
      cases found? with
      | some found => exact .pure ⟨hfound found rfl, rfl⟩
      | none =>
        apply Sim.ite
        · intro hbank
          subst hbank
          exact hshadow W1 rfl (hregisters ▸ hnone rfl)
        · exact fun _ => .throw

theorem reaches_iff (W : Tandem σ) (bank : Bank) (number : Int) (forStore : Bool) :
    W.right.registers.Reaches bank number forStore ↔
      W.left.registers.Reaches bank number forStore := by
  have hheld (lane : Nat) : (W.right.registers.held? bank lane).isSome =
      (W.left.registers.held? bank lane).isSome := by
    rw [held?, held?]
    by_cases hbank : bank.isShadowed = true
    · rw [if_pos hbank, if_pos hbank, Option.isSome_map, Option.isSome_map]
      exact isSome_eq_of_rel (W.shadows bank (lane / 4 * 4))
    · rw [if_neg hbank, if_neg hbank]
  simp only [Reaches, Seedable, EndsAt,
    candidate?, W.tables, W.bound?_eq, hheld]

/-- What goes on after an attempt to resolve a lane, unless register arithmetic left its range. -/
theorem sim_attempt_resolve {bank : Bank} {index : Nat} {sub : Int} {forStore : Bool} {α β : Type}
    {f : Except Error Resolved → Emit α} {g : Except Error Resolved → Emit β}
    {R : Tandem σ → α → β → Prop}
    (hok : ∀ W' found found', W.Later W' → Related.rel W' found found' →
      W'.Sim (f (.ok found)) (g (.ok found')) R)
    (herror : ∀ e e', e ≠ .overflow → e' ≠ .overflow → W.Sim (f (.error e)) (g (.error e')) R)
    (hleft : ∀ w a w', f (.error .overflow) w ≠ .ok a w')
    (hright : ∀ w b w', g (.error .overflow) w ≠ .ok b w') :
    W.Sim (attempt (resolve bank index sub forStore) >>= f)
      (attempt (resolve bank index sub forStore) >>= g) R := by
  intro a w b w' ha hb
  obtain ⟨result, w1, hresult, ha⟩ := Emit.bind_eq_ok ha
  obtain ⟨result', w1', hresult', hb⟩ := Emit.bind_eq_ok hb
  have hemits := @emits_resolve σ.before.held W.left W.leftState bank index sub forStore
  have hemits' := @emits_resolve σ.before'.held W.right W.rightState bank index sub forStore
  have hreach := W.reaches_iff bank (laneNumber bank index sub) forStore
  unfold attempt at hresult hresult'
  cases hx : resolve bank index sub forStore W.left with
  | ok found v =>
    obtain ⟨s, -, hfinds⟩ := hemits.of_ok W.goodLeft hx
    cases hy : resolve bank index sub forStore W.right with
    | error e v' => exact absurd (hreach.2 hfinds.reached) (hemits'.of_error W.goodRight hy).unreached
    | ok found' v' =>
      rw [hx] at hresult
      rw [hy] at hresult'
      cases hresult
      cases hresult'
      obtain ⟨W1, h1, rfl, rfl, hfound⟩ :=
        (sided_resolve bank index sub forStore).sim found _ found' _ hx hy
      obtain ⟨W2, h2, hW2⟩ := hok W1 found found' h1 hfound a w b w' ha hb
      exact ⟨W2, h1.trans h2, hW2⟩
  | error e v =>
    have hfails := hemits.of_error W.goodLeft hx
    cases hy : resolve bank index sub forStore W.right with
    | ok found' v' =>
      obtain ⟨s, -, hfinds⟩ := hemits'.of_ok W.goodRight hy
      exact absurd (hreach.1 hfinds.reached) hfails.unreached
    | error e' v' =>
      have hfails' := hemits'.of_error W.goodRight hy
      rw [hx] at hresult
      rw [hy] at hresult'
      cases hresult
      cases hresult'
      have he : e ≠ .overflow := by
        rintro rfl
        exact hleft _ _ _ ha
      have he' : e' ≠ .overflow := by
        rintro rfl
        exact hright _ _ _ hb
      rw [(hfails.unbacked he).1] at ha
      rw [(hfails'.unbacked he').1] at hb
      exact herror e e' he he' a w b w' ha hb

end Tandem

/-! ## Predicate registers -/

section

variable {start : Nat → Nat → Lanes} {w : Workspace} {s : State} {l l' : Listing} {r : RegisterFile}
  {slot : Nat} {place : Place}

theorem RegisterFile.get_setPredicate (r : RegisterFile) (place : Place) {slot slot' : Nat}
    (hslot : slot < 4) (hslot' : slot' < 4) : (r.setPredicate slot place).predicates.get slot' =
      if slot' = slot then some place else r.predicates.get slot' := by
  rw [setPredicate]
  by_cases h : slot' = slot
  · rw [if_pos h, h, Quad.get_set_self]
  · rw [if_neg h, Quad.get_set_ne _ _ hslot hslot' (Ne.symm h)]

theorem RegisterFile.WellFormed.setPredicate (h : r.WellFormed l) (hl : l.Extends l')
    (hslot : slot < 4) (hvalid : place.Valid l' Shape.bool) :
    (r.setPredicate slot place).WellFormed l' where
  disjoint := h.disjoint
  bound hb := (h.bound hb).mono hl
  shadow hs := (h.mono hl).shadow hs
  numbered := h.numbered
  predicate {slot' p} hslot' hp := by
    rw [get_setPredicate r place hslot hslot'] at hp
    by_cases heq : slot' = slot
    · rw [if_pos heq, Option.some.injEq] at hp
      exact hp ▸ hvalid
    · rw [if_neg heq] at hp
      exact (h.mono hl).predicate hslot' hp

theorem RegisterFile.Separate.setPredicate (h : r.Separate) (hr : r.WellFormed l) (hslot : slot < 4)
    (hfresh : ¬ l.Declares place) : (r.setPredicate slot place).Separate := by
  refine h.of_cases (.predicate slot) hr hfresh fun hb => ?_
  cases hb with
  | bound hb => exact .inr (.bound hb)
  | shadow hs => exact .inr (.shadow hs)
  | @predicate slot' _ hslot' hp =>
    rw [get_setPredicate r place hslot hslot'] at hp
    by_cases heq : slot' = slot
    · rw [if_pos heq, Option.some.injEq] at hp
      exact .inl ⟨by rw [heq], hp.symm⟩
    · rw [if_neg heq] at hp
      exact .inr (.predicate hslot' hp)

/-- The workspace with one more predicate register. -/
def Workspace.declarePredicate (w : Workspace) (slot : Nat) : Workspace :=
  ({ w with listing := (w.listing.declare (predicateVariable slot)).2 } : Workspace).setRegisters
    (w.registers.setPredicate slot ⟨w.listing.vars.size, []⟩)

/-- Its state, in which the register holds what its variable starts with. -/
def Machine.State.declarePredicate (start : Nat → Nat → Lanes) (slot : Nat) (s : State) : State :=
  { s with vars := s.vars.push (fresh start s.vars.size (predicateVariable slot)) }

theorem keeps_declarePredicate (good : Good w s) (hslot : slot < 4)
    (hnone : w.registers.predicates.get slot = none) :
    Keeps start w s (w.declarePredicate slot) (s.declarePredicate start slot) := by
  have step : Step start w.listing s (w.declarePredicate slot).listing
      (s.declarePredicate start slot) := .declare (predicateVariable slot)
  have hread {p : Place} (hp : w.listing.Declares p) :
      (s.declarePredicate start slot).read p = s.read p :=
    read_push _ _ (good.live.fits.vars ▸ hp)
  have hregisters : (w.declarePredicate slot).registers.WellFormed (w.declarePredicate slot).listing :=
    good.registers.setPredicate step.extension hslot (w.listing.valid_declare (predicateVariable slot))
  have hlanes (bank : Bank) (lane : Nat) :
      (w.declarePredicate slot).registers.laneAt (s.declarePredicate start slot) bank lane =
        w.registers.laneAt s bank lane := by
    have hsame : (w.declarePredicate slot).registers.resolved? bank lane =
        w.registers.resolved? bank lane := rfl
    rw [laneAt, laneAt, hsame]
    cases hfound : w.registers.resolved? bank lane with
    | none => rfl
    | some found =>
      simp only [Resolved.content, hread (good.registers.resolved?_covers hfound).2.2.place.declared]
  refine ⟨⟨good, ⟨⟨step.fits good.live.fits, good.live.target⟩, hregisters⟩, .one step, rfl, rfl, rfl,
    fun h => h, fun _ hp => Quad.get_set_of_none hnone hp, fun h => ?_⟩, hread,
    fun hx => (hlanes _ _).trans hx, fun bank lane => congrArg (·.getD 0#32) (hlanes bank lane)⟩
  exact h.setPredicate good.registers hslot w.listing.not_declares_new

theorem read_declarePredicate (s : State) (hvars : s.vars.size = w.listing.vars.size) :
    (s.declarePredicate start slot).read ⟨w.listing.vars.size, []⟩ = start w.listing.vars.size 0 := by
  rw [← hvars, State.read, State.declarePredicate, getD_push_size]
  rfl

end

namespace Tandem

variable {σ : Course} {W W' : Tandem σ}

theorem get_declarePredicate (w : Workspace) {slot slot' : Nat} (hslot : slot < 4)
    (hslot' : slot' < 4) : (w.declarePredicate slot).registers.predicates.get slot' =
      if slot' = slot then some ⟨w.listing.vars.size, []⟩ else w.registers.predicates.get slot' :=
  get_setPredicate _ _ hslot hslot'

theorem predicateVariable_declared (w : Workspace) (slot : Nat) :
    (w.declarePredicate slot).listing.vars.getD w.listing.vars.size default = predicateVariable slot :=
  getD_push_size _ _ _

theorem extension_both {slot : Nat} (hslot : slot < 4)
    (hleft : W.left.registers.predicates.get slot = none)
    (hright : W.right.registers.predicates.get slot = none) :
    W.Extension (W.left.declarePredicate slot) (W.leftState.declarePredicate σ.before.held slot)
      (W.right.declarePredicate slot) (W.rightState.declarePredicate σ.before'.held slot)
      W.left.listing.vars.size W.right.listing.vars.size := by
  have k : Keeps σ.before.held _ _ _ _ := keeps_declarePredicate W.goodLeft hslot hleft
  have k' : Keeps σ.before'.held _ _ _ _ := keeps_declarePredicate W.goodRight hslot hright
  constructor
  · exact k
  · exact k'
  · exact W.unmatched_new
  · exact W.unmatched_new'
  · constructor
    · show _ < (W.left.listing.vars.push _).size
      simp
    · show _ < (W.right.listing.vars.push _).size
      simp
  · rw [predicateVariable_declared, predicateVariable_declared]
  · exact W.shadows_cons _
  · intro slot' hslot'
    rw [get_declarePredicate _ hslot hslot', get_declarePredicate _ hslot hslot']
    by_cases heq : slot' = slot
    · rw [if_pos heq, if_pos heq]
      exact .both ⟨mem_cons_self, rfl⟩
    · rw [if_neg heq, if_neg heq]
      apply (W.predicates slot' hslot').mono (fun _ ha => mem_cons_of_mem _ ha) ?_
        k.steps.extension k.read
      intro a ha
      rcases mem_cons.1 ha with rfl | ha
      · exact .inr (Nat.le_refl _)
      · exact .inl ha
  · intro hlinked path hin i hi
    rw [predicateVariable_declared] at hin
    rw [read_of_length_one rfl hin, read_of_length_one rfl hin,
      read_declarePredicate _ W.goodLeft.live.fits.vars,
      read_declarePredicate _ W.goodRight.live.fits.vars, hlinked.started _ mem_cons_self]
  · intro slot' place hslot' hplace
    rw [get_declarePredicate _ hslot hslot'] at hplace
    by_cases heq : slot' = slot
    · rw [if_pos heq, Option.some.injEq] at hplace
      rw [← hplace, read_declarePredicate _ W.goodLeft.live.fits.vars]
      exact .inr rfl
    · rw [if_neg heq] at hplace
      exact .inl hplace

theorem extension_pending {slot x : Nat} (hslot : slot < 4)
    (hleft : W.left.registers.predicates.get slot = some ⟨x, []⟩)
    (hright : W.right.registers.predicates.get slot = none) (tested : slot = σ.slot)
    (unmatched : ∀ a ∈ W.map, a.1 ≠ x) (declared : x < W.left.listing.vars.size)
    (is_predicate : W.left.listing.vars.getD x default = predicateVariable slot)
    (unchanged : (W.leftState.read ⟨x, []⟩).x = (σ.before.read ⟨x, []⟩).x) :
    W.Extension W.left W.leftState (W.right.declarePredicate slot)
      (W.rightState.declarePredicate σ.before'.held slot) x W.right.listing.vars.size := by
  have k' : Keeps σ.before'.held _ _ _ _ := keeps_declarePredicate W.goodRight hslot hright
  constructor
  · exact .refl W.goodLeft
  · exact k'
  · exact unmatched
  · exact W.unmatched_new'
  · constructor
    · exact declared
    · show _ < (W.right.listing.vars.push _).size
      simp
  · rw [predicateVariable_declared, is_predicate]
  · exact W.shadows_cons _
  · intro slot' hslot'
    rw [get_declarePredicate _ hslot hslot']
    by_cases heq : slot' = slot
    · rw [if_pos heq, heq, hleft]
      exact .both ⟨mem_cons_self, rfl⟩
    · rw [if_neg heq]
      have hold := W.predicates slot' hslot'
      generalize W.left.registers.predicates.get slot' = p at hold ⊢
      generalize W.right.registers.predicates.get slot' = p' at hold ⊢
      cases hold with
      | none => exact .none
      | both hp => exact .both (hp.mono fun _ ha => mem_cons_of_mem _ ha)
      | pending tested' => exact absurd (tested'.trans tested.symm) heq
  · intro hlinked path hin i hi
    rw [is_predicate] at hin hi
    have hzero : i = 0 := Nat.lt_one_iff.1 hi
    subst hzero
    rw [read_of_length_one rfl hin, read_of_length_one rfl hin,
      read_declarePredicate _ W.goodRight.live.fits.vars, hlinked.started _ mem_cons_self]
    exact unchanged.symm
  · exact fun _ hplace => .inl hplace

instance sided_predicatePlace (n : Int) : Sided W (predicatePlace n) (predicatePlace n) := by
  constructor
  unfold predicatePlace
  apply Sim.ite (fun _ => .throw)
  intro hrange
  have hslot : n.toNat < 4 := by
    simp only [Bool.or_eq_true, decide_eq_true_eq, not_or] at hrange
    omega
  generalize n.toNat = slot at hslot ⊢
  apply Sim.getRegisters
  have hmatches := W.predicates slot hslot
  generalize hleft : W.left.registers.predicates.get slot = p at hmatches ⊢
  generalize hright : W.right.registers.predicates.get slot = p' at hmatches ⊢
  cases hmatches with
  | both hp => exact .pure hp
  | none =>
    have h := extension_both hslot hleft hright
    intro p w p' w' hw hw'
    cases hw
    cases hw'
    exact ⟨h.tandem, h.later, rfl, rfl, mem_cons_self, rfl⟩
  | @pending x tested unmatched declared is_predicate unchanged =>
    have h := extension_pending hslot hleft hright tested unmatched declared is_predicate unchanged
    intro p w p' w' hw hw'
    cases hw
    cases hw'
    exact ⟨h.tandem, h.later, rfl, rfl, mem_cons_self, rfl⟩

/-! ## Guarded stores -/

/-- Code that changes one place on each side.  Where the guard does not hold, the left side puts
back what was there. -/
structure Overwriting (W : Tandem σ) (p p' : Place) (x x' : Lanes) (w : Workspace) (s : State)
    (w' : Workspace) (s' : State) : Prop where
  storage : W.Storage p p'
  steps : Steps σ.before.held W.left.listing W.leftState w.listing s
  steps' : Steps σ.before'.held W.right.listing W.rightState w'.listing s'
  registers : w.registers = W.left.registers
  registers' : w'.registers = W.right.registers
  increments : w.increments = W.left.increments
  increments' : w'.increments = W.right.increments
  vars : w.listing.vars = W.left.listing.vars
  vars' : w'.listing.vars = W.right.listing.vars
  read : ∀ q, s.read q = (W.leftState.write p x).read q
  read' : ∀ q, s'.read q = (W.rightState.write p' x').read q
  memory : s.memory = W.leftState.memory
  memory' : s'.memory = W.rightState.memory
  same : σ.Linked W.map w.listing w'.listing s →
    ∀ i, i < (W.left.listing.variableAt p).shape.count → x'.get i = x.get i
  still : (W.leftState.lanes σ.guard).x = 0#32 → ∀ i, i < 4 →
    i < (W.left.listing.variableAt p).shape.count → x.get i = (W.leftState.read p).get i

namespace Overwriting

variable {p p' : Place} {x x' : Lanes} {w w' : Workspace} {s s' : State}

/-- Where the guard does not hold, nothing can be told apart. -/
theorem get_read (h : W.Overwriting p p' x x' w s w' s')
    (hguard : (W.leftState.lanes σ.guard).x = 0#32) {q : Place} {shape : Shape}
    (hq : q.Valid W.left.listing shape) {i : Nat} (hi : i < shape.count) (hfour : i < 4) :
    (s.read q).get i = (W.leftState.read q).get i := by
  rw [h.read]
  by_cases hcell : cell p = cell q
  · have hvariable : p.variableIndex = q.variableIndex := congrArg Prod.fst hcell
    have hin : elementIndex q < (W.leftState.vars.getD q.variableIndex #[]).size := by
      rw [W.goodLeft.live.fits.elements _ hq.declared]
      exact hq.element
    have hread : W.leftState.read p = W.leftState.read q := by
      rw [State.read, State.read, hvariable, show State.elementIndex p = _ from congrArg Prod.snd hcell]
      rfl
    rw [read_write_self _ _ hcell hin, ← hread]
    apply h.still hguard i hfour
    rw [Listing.variableAt, hvariable]
    exact hq.shape ▸ hi
  · rw [read_write_of_ne _ _ hcell]

def tandem (h : W.Overwriting p p' x x' w s w' s') : Tandem σ where
  left := w
  right := w'
  leftState := s
  rightState := s'
  map := W.map
  goodLeft := by
    refine ⟨W.goodLeft.live.steps h.steps, ?_⟩
    rw [h.registers]
    exact W.goodLeft.registers.mono h.steps.extension
  goodRight := by
    refine ⟨W.goodRight.live.steps h.steps', ?_⟩
    rw [h.registers']
    exact W.goodRight.registers.mono h.steps'.extension
  increments := by rw [h.increments, h.increments', W.increments]
  tables := by rw [h.registers, h.registers', W.tables]
  bound hb := W.bound (h.registers ▸ hb)
  shadows := by
    rw [h.registers, h.registers']
    exact W.shadows
  predicates slot hslot := by
    rw [h.registers, h.registers']
    have hmatches := W.predicates slot hslot
    generalize W.left.registers.predicates.get slot = q at hmatches ⊢
    generalize W.right.registers.predicates.get slot = q' at hmatches ⊢
    cases hmatches with
    | none => exact .none
    | both hq => exact .both hq
    | @pending y tested unmatched declared is_predicate unchanged =>
      -- The place that is written corresponds to one on the right, and this one does not.
      have hcell : cell p ≠ cell ⟨y, []⟩ := by
        intro hcell
        exact unmatched _ h.storage.mem (congrArg Prod.fst hcell)
      rw [← h.vars] at declared is_predicate
      apply Course.PredicateMatches.pending tested unmatched declared is_predicate
      rw [h.read, read_write_of_ne _ _ hcell]
      exact unchanged
  injective := W.injective
  declared := by
    rw [h.vars, h.vars']
    exact W.declared
  alike := by
    rw [h.vars, h.vars']
    exact W.alike
  memory := h.memory.trans W.memory
  memory' := by rw [h.memory, h.memory', W.memory']
  guard_defined := h.steps.extension.defines W.guard_defined
  guard_shape := (h.steps.extension.shapeOf W.guard_defined).trans W.guard_shape
  same hlinked q q' hq hin i hi := by
    have hstorage : W.Storage q q' := hq
    obtain ⟨hdeclared, hdeclared'⟩ := hstorage.declares
    rw [Listing.variableAt, h.vars] at hin hi
    rw [h.read, h.read']
    by_cases hcell : cell p = cell q
    · have hvariable : p.variableIndex = q.variableIndex := congrArg Prod.fst hcell
      have hcell' : cell p' = cell q' := by
        apply Prod.ext
        · exact (W.injective _ h.storage.mem _ hq.mem).1 hvariable
        · exact h.storage.elementIndex.trans ((congrArg Prod.snd hcell).trans hq.elementIndex.symm)
      have hsize : elementIndex q < (W.leftState.vars.getD q.variableIndex #[]).size := by
        rw [W.goodLeft.live.fits.elements _ hdeclared]
        exact hin
      have hsize' : elementIndex q' < (W.rightState.vars.getD q'.variableIndex #[]).size := by
        rw [W.goodRight.live.fits.elements _ hdeclared', W.alike _ hq.mem, hq.elementIndex]
        exact hin
      rw [read_write_self _ _ hcell hsize, read_write_self _ _ hcell' hsize']
      apply h.same hlinked i
      rw [Listing.variableAt, hvariable]
      exact hi
    · have hcell' : cell p' ≠ cell q' := by
        intro hcell'
        apply hcell
        apply Prod.ext
        · exact (W.injective _ h.storage.mem _ hq.mem).2 (congrArg Prod.fst hcell')
        · exact h.storage.elementIndex.symm.trans ((congrArg Prod.snd hcell').trans hq.elementIndex)
      rw [read_write_of_ne _ _ hcell, read_write_of_ne _ _ hcell']
      exact W.same (hlinked.before (fun _ ha => ha) h.steps h.steps' W.goodLeft.live.fits
        W.guard_defined) hq hin i hi
  still hguard := by
    rw [h.steps.lanes_eq W.goodLeft.live.fits W.guard_defined] at hguard
    have hbefore := W.still hguard
    constructor
    · intro bank lane y hy
      have hlane := hbefore.lanes hy
      rw [laneAt] at hlane ⊢
      rw [h.registers]
      cases hfound : W.left.registers.resolved? bank lane with
      | none =>
        rw [hfound] at hlane
        exact hlane
      | some found =>
        rw [hfound] at hlane
        obtain ⟨-, hoffset, hvalid⟩ := W.goodLeft.registers.resolved?_covers hfound
        simp only [Resolved.content, h.get_read hguard hvalid.place hoffset
          (Nat.lt_of_lt_of_le hoffset hvalid.width)]
        exact hlane
    · intro slot place hslot hplace
      rw [h.registers] at hplace
      rw [← hbefore.predicates hslot hplace]
      exact h.get_read hguard (W.goodLeft.registers.predicate hslot hplace) (i := 0) (by decide)
        (by decide)

theorem later (h : W.Overwriting p p' x x' w s w' s') : W.Later h.tandem :=
  ⟨h.steps, h.steps', fun _ ha => ha, fun _ hp => h.registers ▸ hp⟩

end Overwriting

/-- A value that an operation has defined. -/
structure Defined (start : Nat → Nat → Lanes) (w : Workspace) (s : State) (op : Op) (v : Value)
    (w' : Workspace) (s' : State) : Prop where
  quiet : Quiet start w s w' s'
  defined : w'.listing.Defines v
  shape : w'.listing.shapeOf v = w.listing.opShape op
  lanes : s'.lanes v = s.eval (.ofShapes w.listing.shapes) (w.listing.opShape op) op

theorem exists_defined {start : Nat → Nat → Lanes} {w w' : Workspace} {s : State} {op : Op}
    {v : Value} (live : Live w s) (hop : w.listing.Scoped op) (h : define op w = .ok v w') :
    ∃ s', Defined start w s op v w' s' := by
  cases h
  refine ⟨_, ⟨live, .one (.define op hop), rfl, rfl, rfl, rfl, rfl⟩, ?_,
    w.listing.shapeOf_define op, ?_⟩
  · show _ < (w.listing.shapes.push _).size
    simp
  · show (s.values.push _).getD w.listing.shapes.size _ = _
    rw [← live.fits.values, getD_push_size]

theorem get_select {l : Listing} {s : State} {c v old : Value} (hc : l.shapeOf c = Shape.bool)
    {i : Nat} (hi : i < 4) (hcount : i < (l.opShape (.select c v old)).count) :
    (s.eval (.ofShapes l.shapes) (l.opShape (.select c v old)) (.select c v old)).get i =
      if (s.lanes c).x ≠ 0#32 then s.lane (.ofShapes l.shapes) v i
      else s.lane (.ofShapes l.shapes) old i := by
  have hlane : s.lane (.ofShapes l.shapes) c i = (s.lanes c).x := by
    have hone : (Program.ofShapes l.shapes).countOf c = 1 := congrArg Shape.count hc
    rw [lane, if_pos hone]
  simp only [eval]
  rw [get_fill _ _ hi, if_pos hcount, hlane]

theorem lane_of_lt {l : Listing} {s : State} {v : Value} {i : Nat} (hi : i < l.countOf v) :
    s.lane (.ofShapes l.shapes) v i = (s.lanes v).get i := by
  rw [lane]
  show (if l.countOf v = 1 then _ else _) = _
  by_cases hone : l.countOf v = 1
  · have hzero : i = 0 := by omega
    rw [if_pos hone, hzero]
    rfl
  · rw [if_neg hone]

theorem count_select {l : Listing} (htarget : l.target = .machine) (c v old : Value) :
    (l.opShape (.select c v old)).count = max (l.countOf v) (l.countOf old) := by
  simp only [Listing.opShape, Listing.selectShape, htarget]
  rfl

/-- What is stored under the guard: the old lanes, or those of the value. -/
structure Selected (W : Tandem σ) (p : Place) (v : Value) (w : Workspace) (s : State) (u : Value) :
    Prop where
  quiet : Quiet σ.before.held W.left W.leftState w s
  defined : w.listing.Defines u
  kept : (W.leftState.lanes σ.guard).x = 0#32 → ∀ i, i < 4 →
    i < (W.left.listing.variableAt p).shape.count → (s.lanes u).get i = (W.leftState.read p).get i
  taken : (W.leftState.lanes σ.guard).x ≠ 0#32 → ∀ i, i < 4 → i < W.left.listing.countOf v →
    (s.lanes u).get i = (W.leftState.lanes v).get i

theorem exists_selected {p : Place} {v u : Value} {w : Workspace} (hp : W.left.listing.Declares p)
    (hv : W.left.listing.Defines v)
    (h : Access.guarded p v (some σ.guard) W.left = .ok u w) : ∃ s, W.Selected p v w s u := by
  obtain ⟨old, w1, hload, hselect⟩ := Emit.bind_eq_ok h
  have hscoped : W.left.listing.Scoped (.load p) :=
    ⟨by simp [Op.values], by simpa [Op.place?] using hp⟩
  obtain ⟨s1, old_defined⟩ := @exists_defined σ.before.held _ _ _ _ _ W.goodLeft.live hscoped hload
  have q1 := old_defined.quiet
  have hextends := q1.steps.extension
  have hscoped : w1.listing.Scoped (.select σ.guard v old) := by
    constructor
    · simp only [Op.values, forall_mem_cons, not_mem_nil, false_implies, implies_true,
        and_true]
      exact ⟨hextends.defines W.guard_defined, hextends.defines hv, old_defined.defined⟩
    · simp [Op.place?]
  obtain ⟨s, selected⟩ := @exists_defined σ.before.held _ _ _ _ _ q1.live_after hscoped hselect
  have hfits := W.goodLeft.live.fits
  have hguard := q1.steps.lanes_eq hfits W.guard_defined
  have hshape := (hextends.shapeOf W.guard_defined).trans W.guard_shape
  have hcount := count_select q1.live_after.target σ.guard v old
  have hold : w1.listing.countOf old = (W.left.listing.variableAt p).shape.count :=
    congrArg Shape.count old_defined.shape
  have hnew : w1.listing.countOf v = W.left.listing.countOf v :=
    congrArg Shape.count (hextends.shapeOf hv)
  refine ⟨s, q1.trans selected.quiet, selected.defined, fun hfalse i hi hlt => ?_,
    fun htrue i hi hlt => ?_⟩
  · rw [selected.lanes, get_select hshape hi (by omega), hguard, if_neg (not_not_intro hfalse),
      lane_of_lt (by omega), old_defined.lanes]
    rfl
  · rw [selected.lanes, get_select hshape hi (by omega), hguard, if_pos htrue,
      lane_of_lt (by omega), q1.steps.lanes_eq hfits hv]

theorem overwriting_selected {p p' : Place} {v v' u : Value} {w : Workspace} {s : State}
    (hp : W.Storage p p') (hv : W.Val v v') (h : W.Selected p v w s u) :
    W.Overwriting p p' (s.lanes u) (W.rightState.lanes v')
      { w with listing := w.listing.push (.store p u) } (s.write p (s.lanes u))
      { W.right with listing := W.right.listing.push (.store p' v') }
      (W.rightState.write p' (W.rightState.lanes v')) := by
  obtain ⟨hdeclared, hdeclared'⟩ := hp.declares
  have q := h.quiet
  have steps : Steps σ.before.held W.left.listing W.leftState (w.listing.push (.store p u))
      (s.write p (s.lanes u)) :=
    q.steps.tail (.store p u (q.steps.extension.declares hdeclared) h.defined)
  have steps' : Steps σ.before'.held W.right.listing W.rightState
      (W.right.listing.push (.store p' v')) (W.rightState.write p' (W.rightState.lanes v')) :=
    .one (.store p' v' hdeclared' hv.defined')
  constructor
  · exact hp
  · exact steps
  · exact steps'
  · exact q.registers
  · rfl
  · exact q.increments
  · rfl
  · exact q.declared
  · rfl
  · intro place
    simp only [State.read, State.write, q.vars]
  · exact fun _ => rfl
  · exact q.memory
  · rfl
  · intro hlinked i hi
    have hbefore := hlinked.before (fun _ ha => ha) steps steps' W.goodLeft.live.fits W.guard_defined
    -- The plain store is admitted, so its value has as many components as the variable.
    obtain ⟨-, hadmits⟩ := Listing.WellTyped.of_add (e := .store p' v') hlinked.typed'
    have hcount : W.left.listing.countOf v = (W.left.listing.variableAt p).shape.count := by
      cases hadmits with
      | store valid has =>
        rw [Listing.countOf, ← hv.shape, has.shape, ← valid.shape, hp.variableAt]
    have hfour : i < 4 := Nat.lt_of_lt_of_le hi (hbefore.typed.proper.vars _ hdeclared).shape.2
    rw [h.taken hbefore.holds i hfour (hcount ▸ hi)]
    exact hv.lanes hbefore i (hcount ▸ hi)
  · exact h.kept

instance sided_guarded_store (p p' : Place) (v v' : Value) [hp : Twins W p p'] [hv : Twins W v v'] :
    Sided W (Access.guarded p v (some σ.guard) >>= fun u => Emit.store p u)
      (Access.guarded p' v' none >>= fun u => Emit.store p' u) := by
  constructor
  intro _ w _ w' hw hw'
  obtain ⟨u, w1, hu, hw⟩ := Emit.bind_eq_ok hw
  obtain ⟨s, selected⟩ := exists_selected hp.rel.declares.1 hv.rel.defined hu
  have h := overwriting_selected hp.rel hv.rel selected
  cases hw
  cases hw'
  exact ⟨h.tandem, h.later, rfl, rfl, rfl⟩

end Tandem

end Microcode
