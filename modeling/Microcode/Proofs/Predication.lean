import Microcode.Proofs.ConfinedStreams
import Microcode.Proofs.TandemLowering
import Microcode.Proofs.TypedAssembly

/-!
Predicated instructions.

An instruction that tests a predicate register does what it does without the test where the test
holds, and nothing at all where it does not.  Its condition is read once, before its first repeat, so
that this is so too when the instruction writes the register that it tests.
-/

namespace Microcode

open Machine Emit Lowering RegisterFile State

variable (ctx : Context) {i : Instruction}

/-- Whether an instruction takes effect.  A predicate register that is not declared has never been
written, and is false. -/
def Predicate.Holds (p : Predicate) (r : RegisterFile) (s : State) : Prop :=
  ∀ slot negated, p.register? = some (slot, negated) →
    ((r.predicateAt s slot).getD 0#32 ≠ 0#32 ↔ negated = false)

variable {start : Nat → Nat → Lanes} {w w' u : Workspace} {s t : State} {slot : Nat} {negated : Bool}
  {p : Predicate} {place : Place} {c : Value}

/-! ## Conditions -/

/-- A predicate register has its variable, which may be new. -/
structure Opens (start : Nat → Nat → Lanes) (w : Workspace) (s : State) (slot : Nat) (place : Place)
    (w' : Workspace) (s' : State) : Prop where
  keeps : Keeps start w s w' s'
  get : w'.registers.predicates.get slot = some place
  shadows : w'.registers.shadows = w.registers.shadows
  others : ∀ other, other < 4 → other ≠ slot →
    w'.registers.predicates.get other = w.registers.predicates.get other
  opened : w.registers.predicates.get slot = some place ∨
    w.registers.predicates.get slot = none ∧ place = ⟨w.listing.vars.size, []⟩ ∧
      w'.listing.vars = w.listing.vars.push (predicateVariable slot) ∧
        s'.read place = start w.listing.vars.size 0

theorem exists_opens (good : Good w s) (hslot : slot < 4)
    (h : predicatePlace slot w = .ok place u) : ∃ t, Opens start w s slot place u t := by
  have hrange : ¬ (decide ((slot : Int) < 0) || decide ((4 : Int) ≤ slot)) = true := by
    simp only [Bool.or_eq_true, decide_eq_true_eq, not_or]
    omega
  unfold predicatePlace at h
  rw [if_neg hrange, Int.toNat_natCast] at h
  obtain ⟨registers, _, hregisters, h⟩ := Emit.bind_eq_ok h
  cases hregisters
  cases hget : w.registers.predicates.get slot with
  | some old =>
    rw [hget] at h
    cases h
    exact ⟨s, .refl good, hget, rfl, fun _ _ _ => rfl, .inl hget⟩
  | none =>
    rw [hget] at h
    cases h
    refine ⟨s.declarePredicate start slot, keeps_declarePredicate good hslot hget, ?_, rfl, ?_, ?_⟩
    · exact (Tandem.get_declarePredicate w hslot hslot).trans (if_pos rfl)
    · intro other hother hne
      exact (Tandem.get_declarePredicate w hslot hother).trans (if_neg hne)
    · exact .inr ⟨hget, rfl, rfl, read_declarePredicate s good.live.fits.vars⟩

theorem Opens.quiet {s' : State} (h : Opens start w s slot place u t) (q : Quiet start u t w' s') :
    Opens start w s slot place w' s' where
  keeps := h.keeps.trans (q.keeps h.keeps.good'.registers)
  get := q.registers ▸ h.get
  shadows := q.registers ▸ h.shadows
  others := q.registers ▸ h.others
  opened := h.opened.imp id fun ⟨hnone, hplace, hvars, hread⟩ =>
    ⟨hnone, hplace, q.declared.trans hvars, by rw [q.read]; exact hread⟩

/-- Code that gives the value of a condition. -/
structure Guards (start : Nat → Nat → Lanes) (w : Workspace) (s : State) (slot : Nat) (negated : Bool)
    (place : Place) (c : Value) (w' : Workspace) (s' : State) : Prop
    extends Opens start w s slot place w' s' where
  defined : w'.listing.Defines c
  shape : w'.listing.shapeOf c = Shape.bool
  holds : (s'.lanes c).x ≠ 0#32 ↔ ((s'.read place).x ≠ 0#32 ↔ negated = false)

theorem Predicate.slot_lt (h : p.register? = some (slot, negated)) : slot < 4 := by
  cases p <;> simp [register?] at h <;> omega

theorem exists_guards (good : Good w s) (hp : p.register? = some (slot, negated))
    {condition : Option Value} (h : Access.condition p w = .ok condition w') :
    ∃ c place s', condition = some c ∧ Guards start w s slot negated place c w' s' := by
  have hslot := p.slot_lt hp
  unfold Access.condition at h
  rw [hp] at h
  obtain ⟨place, u, hplace, h⟩ := Emit.bind_eq_ok h
  obtain ⟨v, u', hload, h⟩ := Emit.bind_eq_ok h
  obtain ⟨t, opens⟩ := @exists_opens start _ _ _ _ _ good hslot hplace
  have hvalid := opens.keeps.good'.registers.predicate hslot opens.get
  have hscoped : u.listing.Scoped (.load place) :=
    ⟨by simp [Op.values], by simpa [Op.place?] using hvalid.declared⟩
  obtain ⟨t', loaded⟩ :=
    @Tandem.exists_defined start _ _ _ _ _ opens.keeps.good'.live hscoped hload
  have hshape : u'.listing.shapeOf v = Shape.bool := loaded.shape.trans hvalid.shape
  have hlane : (t'.lanes v).x = (t'.read place).x := by
    rw [loaded.lanes, loaded.quiet.read]
    rfl
  cases negated with
  | false =>
    rw [if_neg Bool.false_ne_true] at h
    cases h
    refine ⟨v, place, t', rfl, opens.quiet loaded.quiet, loaded.defined, hshape, ?_⟩
    rw [hlane]
    simp
  | true =>
    rw [if_pos rfl, map_eq_pure_bind] at h
    obtain ⟨c, _, hnot, h⟩ := Emit.bind_eq_ok h
    cases h
    have hscoped : u'.listing.Scoped (.unary .not v) :=
      ⟨by simpa [Op.values] using loaded.defined, by simp [Op.place?]⟩
    obtain ⟨t'', inverted⟩ :=
      @Tandem.exists_defined start _ _ _ _ _ loaded.quiet.live_after hscoped hnot
    have hcount : u'.listing.opShape (.unary .not v) = Shape.bool := hshape
    refine ⟨c, place, t'', rfl, (opens.quiet loaded.quiet).quiet inverted.quiet, inverted.defined,
      inverted.shape.trans hcount, ?_⟩
    have hc : (t''.lanes c).x = if (t'.lanes v).x = 0#32 then 1#32 else 0#32 := by
      have hscalar : (Program.ofShapes u'.listing.shapes).shapeOf v = Shape.bool := hshape
      have hone : t'.lane (.ofShapes u'.listing.shapes) v 0 = (t'.lanes v).x :=
        Tandem.lane_of_lt (l := u'.listing) (by rw [Listing.countOf, hshape]; decide)
      rw [inverted.lanes, hcount]
      simp only [eval, hscalar]
      show (fill 1 _).get 0 = _
      rw [get_fill _ _ (by decide), if_pos (by decide), hone]
      rfl
    rw [hc, inverted.quiet.read, ← hlane]
    by_cases hzero : (t'.lanes v).x = 0#32 <;> simp [hzero]

theorem Predicate.holds_iff (p : Predicate) (hp : p.register? = some (slot, negated))
    {r : RegisterFile} (hget : r.predicates.get slot = some place) :
    p.Holds r s ↔ ((s.read place).x ≠ 0#32 ↔ negated = false) := by
  have hat : r.predicateAt s slot = some (s.read place).x := by
    rw [predicateAt, hget, Option.map_some]
  constructor
  · intro h
    have := h slot negated hp
    rwa [hat] at this
  · intro h slot' negated' hp'
    obtain ⟨rfl, rfl⟩ := Prod.mk.inj (Option.some.inj (hp.symm.trans hp'))
    rw [hat]
    exact h

/-! ## Two runs that start together -/

theorem mem_same {n : Nat} {a : Nat × Nat} :
    a ∈ (List.range n).map (fun x => (x, x)) ↔ a.1 < n ∧ a.2 = a.1 := by
  obtain ⟨x, y⟩ := a
  simp only [List.mem_map, List.mem_range, Prod.mk.injEq]
  constructor
  · rintro ⟨z, hz, rfl, rfl⟩
    exact ⟨hz, rfl⟩
  · rintro ⟨hx, rfl⟩
    exact ⟨y, hx, rfl, rfl⟩

theorem Place.Matches.same {n : Nat} {place : Place} (h : place.variableIndex < n) :
    place.Matches ((List.range n).map fun x => (x, x)) place := ⟨mem_same.2 ⟨h, rfl⟩, rfl⟩

namespace Guards

variable {S S' s0 : State}

theorem read_predicate (h : Guards S.held w (S.upTo w.listing) slot negated place c u s0)
    {other : Nat} {q : Place} (hother : other < 4)
    (hq : u.registers.predicates.get other = some q) : s0.read q = S.read q := by
  have old {q : Place} (hq : w.listing.Declares q) : s0.read q = S.read q :=
    (h.keeps.read hq).trans ((shows_upTo w.listing S).read hq).symm
  by_cases hne : other = slot
  · subst hne
    obtain rfl : place = q := Option.some.inj (h.get.symm.trans hq)
    rcases h.opened with hold | ⟨-, rfl, -, hread⟩
    · exact old (h.keeps.good.registers.predicate hother hold).declared
    · exact hread
  · rw [h.others other hother hne] at hq
    exact old (h.keeps.good.registers.predicate hother hq).declared

/-- The guarded run has read its condition, and the plain run is still to start. -/
def tandem (h : Guards S.held w (S.upTo w.listing) slot negated place c u s₀)
    (right : Good w (S'.upTo w.listing)) (memory : S'.memory = S.memory) :
    Tandem ⟨w, S, S', c, slot⟩ where
  left := u
  right := w
  leftState := s₀
  rightState := S'.upTo w.listing
  map := (List.range w.listing.vars.size).map fun x => (x, x)
  goodLeft := h.keeps.good'
  goodRight := right
  increments := h.keeps.increments.symm
  tables := h.keeps.tables.symm
  bound hb := by
    rw [h.keeps.bound?] at hb
    exact .same (h.keeps.good.registers.bound hb).place.declared
  shadows bank group := by
    rw [shadow?, h.shadows, ← shadow?]
    cases hs : w.registers.shadow? bank group with
    | none => exact .none
    | some register =>
      obtain ⟨-, -, -, -, hvalid⟩ := h.keeps.good.registers.shadow hs
      exact .some ⟨.same hvalid.place.declared, rfl, rfl⟩
  predicates other hother := by
    by_cases hne : other = slot
    · subst hne
      rw [h.get]
      rcases h.opened with hold | ⟨hnone, rfl, hvars, hread⟩
      · rw [hold]
        exact .both (.same (h.keeps.good.registers.predicate hother hold).declared)
      · rw [hnone]
        apply Course.PredicateMatches.pending rfl
        · intro a ha
          exact Nat.ne_of_lt (mem_same.1 ha).1
        · rw [hvars]
          simp
        · rw [hvars, getD_push_size]
        · rw [hread]
          rfl
    · rw [h.others other hother hne]
      cases hp : w.registers.predicates.get other with
      | none => exact .none
      | some place => exact .both (.same (h.keeps.good.registers.predicate hother hp).declared)
  injective a ha b hb := by rw [(mem_same.1 ha).2, (mem_same.1 hb).2]
  declared a ha := by
    obtain ⟨hlt, heq⟩ := mem_same.1 ha
    exact ⟨Nat.lt_of_lt_of_le hlt h.keeps.steps.extension.vars_size, heq ▸ hlt⟩
  alike a ha := by
    obtain ⟨hlt, heq⟩ := mem_same.1 ha
    rw [heq, h.keeps.steps.extension.vars _ hlt]
  memory := h.keeps.memory
  memory' := memory.trans h.keeps.memory.symm
  guard_defined := h.defined
  guard_shape := h.shape
  same hlinked q q' hq hin i hi := by
    have hdeclared : w.listing.Declares q := (mem_same.1 hq.mem).1
    have hindex : q'.variableIndex = q.variableIndex := (mem_same.1 hq.mem).2
    have hdeclared' : w.listing.Declares q' := Nat.lt_of_le_of_lt (Nat.le_of_eq hindex) hdeclared
    have hread : S'.read q' = S.read q := by
      show S'.held q'.variableIndex (elementIndex q') = S.held q.variableIndex _
      rw [hlinked.started _ hq.mem, hq.elementIndex]
    rw [h.keeps.read hdeclared, ← (shows_upTo w.listing S).read hdeclared,
      ← (shows_upTo w.listing S').read hdeclared', hread]
  still _ := by
    constructor
    · intro bank lane x hx
      rw [(shows_upTo w.listing S).laneAt h.keeps.good.registers] at hx
      exact h.keeps.lanes hx
    · intro other q hother hq
      rw [h.read_predicate hother hq]

end Guards

/-! ## What two runs end with -/

namespace Tandem

variable {σ : Course} {W : Tandem σ}

theorem boundContent_eq (hlinked : W.Linked) (bank : Bank) (lane : Nat) :
    (match W.right.registers.bound? bank lane with
      | some found => some (found.content W.rightState)
      | none => if bank = Bank.secondaryAttribute then some 0#32 else none) =
      match W.left.registers.bound? bank lane with
      | some found => some (found.content W.leftState)
      | none => if bank = Bank.secondaryAttribute then some 0#32 else none := by
  have hsame := W.boundLane_eq hlinked bank lane
  rw [boundLane, boundLane, W.bound?_eq] at hsame
  rw [W.bound?_eq]
  cases hfound : W.left.registers.bound? bank lane with
  | none => rfl
  | some found =>
    rw [hfound] at hsame
    exact congrArg some hsame

theorem laneAt_eq (hlinked : W.Linked) (bank : Bank) (lane : Nat) :
    W.right.registers.laneAt W.rightState bank lane =
      W.left.registers.laneAt W.leftState bank lane := by
  rw [laneAt, laneAt, resolved?, resolved?,
    held?, held?]
  have hbound := W.boundContent_eq hlinked bank lane
  by_cases hbank : bank.isShadowed = true
  · rw [if_pos hbank, if_pos hbank]
    have hrel := W.shadows bank (lane / 4 * 4)
    have hvalid (register : Register)
        (h : W.left.registers.shadow? bank (lane / 4 * 4) = some register) :=
      W.goodLeft.registers.shadow h
    generalize W.left.registers.shadow? bank (lane / 4 * 4) = register? at hrel hvalid ⊢
    generalize W.right.registers.shadow? bank (lane / 4 * 4) = register?' at hrel ⊢
    cases hrel with
    | none => exact hbound
    | some hmatches =>
      obtain ⟨-, -, -, hlanes, hplace⟩ := hvalid _ rfl
      apply congrArg some
      apply W.same hlinked hmatches.place hplace.place.element
      rw [hplace.place.shape, hlanes]
      show lane - lane / 4 * 4 < 4
      omega
  · rw [if_neg hbank, if_neg hbank]
    exact hbound

/-- Corresponding predicate registers hold the same.  The one that the guard tests may not be
declared on the right, and is as it was then. -/
theorem predicateAt_eq (hlinked : W.Linked) {slot : Nat} (hslot : slot < 4) :
    W.left.registers.predicateAt W.leftState slot = W.right.registers.predicateAt W.rightState slot ∨
      W.right.registers.predicateAt W.rightState slot = none ∧
        W.left.registers.predicateAt W.leftState slot =
          W.left.registers.predicateAt σ.before slot := by
  rw [predicateAt, predicateAt, predicateAt]
  have hmatches := W.predicates slot hslot
  have hvalid (place : Place) (h : W.left.registers.predicates.get slot = some place) :=
    W.goodLeft.registers.predicate hslot h
  generalize W.left.registers.predicates.get slot = place? at hmatches hvalid ⊢
  generalize W.right.registers.predicates.get slot = place?' at hmatches ⊢
  cases hmatches with
  | none => exact .inl rfl
  | both h =>
    have hplace := hvalid _ rfl
    have hsame := W.same hlinked h hplace.element 0 (by rw [hplace.shape]; decide)
    exact .inl (congrArg some hsame.symm)
  | pending _ _ _ _ unchanged => exact .inr ⟨rfl, congrArg some unchanged⟩

end Tandem

/-- Two machines start with the same memory and with the same in each variable of `w`, and in
variables of one name that were declared after it. -/
structure Machine.State.StartsAlike (w w₁ w₂ : Workspace) (S₁ S₂ : State) : Prop where
  memory : S₂.memory = S₁.memory
  vars : ∀ x, x < w.listing.vars.size → S₂.held x = S₁.held x
  added : ∀ x y, w.listing.vars.size ≤ x → x < w₁.listing.vars.size → w.listing.vars.size ≤ y →
    y < w₂.listing.vars.size →
      (w₁.listing.vars.getD x default).name = (w₂.listing.vars.getD y default).name →
        S₂.held y = S₁.held x

/-- Variables that correspond start alike: those of `w` correspond to themselves only, and all others
have one name. -/
theorem Machine.State.StartsAlike.started {σ : Course} {W : Tandem σ} {w : Workspace} {S1 S2 : State}
    (h : S1.StartsAlike w W.left W.right S2)
    (hmap : ∀ a ∈ (List.range w.listing.vars.size).map (fun x => (x, x)), a ∈ W.map) :
    ∀ a ∈ W.map, S2.held a.2 = S1.held a.1 := by
  intro a ha
  have self {x : Nat} (hx : x < w.listing.vars.size) : (x, x) ∈ W.map :=
    hmap _ (mem_same.2 ⟨hx, rfl⟩)
  by_cases hleft : a.1 < w.listing.vars.size
  · have heq : a.1 = a.2 := (W.injective _ (self hleft) _ ha).1 rfl
    rw [← heq]
    exact h.vars _ hleft
  · have hright : ¬ a.2 < w.listing.vars.size := by
      intro hlt
      have heq : a.2 = a.1 := (W.injective _ (self hlt) _ ha).2 rfl
      omega
    obtain ⟨hdeclared, hdeclared'⟩ := W.declared a ha
    apply h.added _ _ (Nat.le_of_not_lt hleft) hdeclared (Nat.le_of_not_lt hright) hdeclared'
    rw [W.alike a ha]

/-- Two runs end with the same lanes, predicate registers and memory.  A predicate register that the
second run has no variable for is as it was. -/
structure SameOutcome (w₁ : Workspace) (S₁ T₁ : State) (w₂ : Workspace) (T₂ : State) : Prop where
  lanes : ∀ bank lane, w₁.registers.laneAt T₁ bank lane = w₂.registers.laneAt T₂ bank lane
  predicates : ∀ slot, slot < 4 →
    w₁.registers.predicateAt T₁ slot = w₂.registers.predicateAt T₂ slot ∨
      w₂.registers.predicateAt T₂ slot = none ∧
        w₁.registers.predicateAt T₁ slot = w₁.registers.predicateAt S₁ slot
  memory : T₁.memory = T₂.memory

/-- A run keeps every lane that could be read before it, the predicate registers and the memory. -/
structure Unchanged (w : Workspace) (S : State) (w₁ : Workspace) (T : State) : Prop where
  lanes : ∀ bank lane x, w.registers.laneAt S bank lane = some x →
    w₁.registers.laneAt T bank lane = some x
  predicates : ∀ slot, slot < 4 →
    w₁.registers.predicateAt T slot = w₁.registers.predicateAt S slot
  memory : T.memory = S.memory

/-- On every machine of a finished program, code that tests a predicate does what the code without
the test does where the predicate holds, and nothing where it does not. -/
def ExactOn (p : Predicate) (w w₁ w₂ : Workspace) : Prop :=
  ∀ l₁ l₂ : Listing, w₁.listing.entries.toList <+: l₁.entries.toList →
    w₂.listing.entries.toList <+: l₂.entries.toList →
  ∀ S₁ S₂ : State, S₁.Loaded (.ofListing l₁) → S₂.Loaded (.ofListing l₂) →
    S₁.StartsAlike w w₁ w₂ S₂ →
    let T₁ := S₁.runSince (.ofListing l₁) w.listing w₁.listing
    let T₂ := S₂.runSince (.ofListing l₂) w.listing w₂.listing
    (p.Holds w₁.registers S₁ → SameOutcome w₁ S₁ T₁ w₂ T₂) ∧
      (¬ p.Holds w₁.registers S₁ → Unchanged w S₁ w₁ T₁)

variable {w1 w2 : Workspace}

theorem exactOn_of_rest {rest : Option Value → Emit Unit}
    (sided : ∀ (σ : Course) (W : Tandem σ), W.Sided (rest (some σ.guard)) (rest none))
    (hp : p.register? = some (slot, negated)) (ready : w.Ready)
    (typed1 : w1.listing.WellTyped) (typed2 : w2.listing.WellTyped)
    (before1 : w.listing.entries.toList <+: w1.listing.entries.toList)
    (before2 : w.listing.entries.toList <+: w2.listing.entries.toList)
    (h1 : (Access.condition p >>= rest) w = .ok () w1) (h2 : rest none w = .ok () w2) :
    ExactOn p w w1 w2 := by
  intro l1 l2 hl1 hl2 S1 S2 hS1 hS2 alike T1 T2
  have hin1 := Program.within_ofListing (before1.trans hl1)
  have hin2 := Program.within_ofListing (before2.trans hl2)
  have hslot := p.slot_lt hp
  obtain ⟨condition, u, hcondition, h1⟩ := Emit.bind_eq_ok h1
  obtain ⟨c, place, s0, rfl, guards⟩ :=
    @exists_guards S1.held _ _ _ _ _ _ (ready.good hS1 hin1) hp _ hcondition
  obtain ⟨W, later, rfl, rfl, -⟩ :=
    (sided _ (guards.tandem (ready.good hS2 hin2) alike.memory)).sim () w1 () w2 h1 h2
  have steps1 := guards.keeps.steps.trans later.left
  obtain ⟨-, -, shows1⟩ :=
    steps1.runSince ready.consistent hS1 (Program.within_ofListing hl1) hin1
  have steps2 : Steps S2.held w.listing (S2.upTo w.listing) W.right.listing W.rightState :=
    later.right
  obtain ⟨-, -, shows2⟩ :=
    steps2.runSince ready.consistent hS2 (Program.within_ofListing hl2) hin2
  have hguard : (W.leftState.lanes c).x ≠ 0#32 ↔ p.Holds W.left.registers S1 := by
    rw [later.left.lanes_eq guards.keeps.good'.live.fits guards.defined,
      p.holds_iff hp (later.predicates hslot guards.get), ← guards.read_predicate hslot guards.get]
    exact guards.holds
  constructor
  · intro holds
    have linked : W.Linked := ⟨hguard.2 holds, typed1, typed2, alike.started later.map⟩
    constructor
    · intro bank lane
      rw [shows1.laneAt W.goodLeft.registers, shows2.laneAt W.goodRight.registers]
      exact (W.laneAt_eq linked bank lane).symm
    · intro slot hslot
      rw [shows1.predicateAt W.goodLeft.registers hslot,
        shows2.predicateAt W.goodRight.registers hslot]
      exact W.predicateAt_eq linked hslot
    · rw [shows1.memory, shows2.memory]
      exact W.memory'.symm
  · intro fails
    have still := W.still (not_not.1 fun h => fails (hguard.1 h))
    constructor
    · intro bank lane x hx
      rw [shows1.laneAt W.goodLeft.registers]
      exact still.lanes hx
    · intro slot hslot
      rw [shows1.predicateAt W.goodLeft.registers hslot, predicateAt,
        predicateAt]
      cases hget : W.left.registers.predicates.get slot with
      | none => rfl
      | some q => exact congrArg some (still.predicates hslot hget)
    · exact shows1.memory.trans W.memory

theorem exactOn_of_silent (ready : w.Ready)
    (h1 : w1.listing = w.listing ∧ w1.registers = w.registers)
    (h2 : w2.listing = w.listing ∧ w2.registers = w.registers) : ExactOn p w w1 w2 := by
  intro l1 l2 hl1 hl2 S1 S2 hS1 hS2 alike T1 T2
  obtain ⟨hlisting1, hregisters1⟩ := h1
  obtain ⟨hlisting2, hregisters2⟩ := h2
  rw [hlisting1] at hl1
  rw [hlisting2] at hl2
  have shows {S : State} {l : Listing} (hl : w.listing.entries.toList <+: l.entries.toList)
      (hS : S.Loaded (.ofListing l)) :
      (S.runSince (.ofListing l) w.listing w.listing).Shows S.held w.listing (S.upTo w.listing) :=
    (Steps.refl.runSince ready.consistent hS (Program.within_ofListing hl)
      (Program.within_ofListing hl)).2.2
  have shows1 : T1.Shows S1.held w.listing (S1.upTo w.listing) := by
    unfold T1
    rw [hlisting1]
    exact shows hl1 hS1
  have shows2 : T2.Shows S2.held w.listing (S2.upTo w.listing) := by
    unfold T2
    rw [hlisting2]
    exact shows hl2 hS2
  have before1 := shows_upTo w.listing S1
  have before2 := shows_upTo w.listing S2
  have hread {q : Place} (hq : w.listing.Declares q) : S2.read q = S1.read q :=
    congrFun (alike.vars _ hq) (elementIndex q)
  have hpredicate {slot : Nat} (hslot : slot < 4) :
      w.registers.predicateAt T1 slot = w.registers.predicateAt S1 slot := by
    rw [shows1.predicateAt ready.registers hslot, before1.predicateAt ready.registers hslot]
  constructor
  · intro _
    constructor
    · intro bank lane
      rw [hregisters1, hregisters2, shows1.laneAt ready.registers, shows2.laneAt ready.registers,
        ← before1.laneAt ready.registers, ← before2.laneAt ready.registers, laneAt,
        laneAt]
      cases hfound : w.registers.resolved? bank lane with
      | none => rfl
      | some found =>
        have hdeclared := (ready.registers.resolved?_covers hfound).2.2.place.declared
        simp only [Resolved.content, hread hdeclared]
    · intro slot hslot
      apply Or.inl
      rw [hregisters1, hregisters2, hpredicate hslot, shows2.predicateAt ready.registers hslot,
        ← before2.predicateAt ready.registers hslot, predicateAt,
        predicateAt]
      cases hget : w.registers.predicates.get slot with
      | none => rfl
      | some q =>
        rw [Option.map_some, Option.map_some, hread (ready.registers.predicate hslot hget).declared]
    · rw [shows1.memory, shows2.memory]
      exact alike.memory.symm
  · intro _
    constructor
    · intro bank lane x hx
      rw [hregisters1, shows1.laneAt ready.registers, ← before1.laneAt ready.registers]
      exact hx
    · intro slot hslot
      rw [hregisters1]
      exact hpredicate hslot
    · exact shows1.memory

/-! ## Instructions -/

/-- How the code of an instruction depends on its predicate: it reads the condition and then goes on
under it, or it never looks at the predicate and emits nothing. -/
inductive Tested (x : Predicate → Emit Unit) : Prop
  | first (rest : Option Value → Emit Unit) (eq : ∀ p, x p = Access.condition p >>= rest)
      (sided : ∀ (σ : Course) (W : Tandem σ), W.Sided (rest (some σ.guard)) (rest none))
  | silent (h : ∀ p w w', x p w = .ok () w' →
      w'.listing = w.listing ∧ w'.registers = w.registers)

namespace Tested

set_option synthInstance.maxSize 10000

/-- All that comes after the condition is the same for every predicate. -/
theorem of_rest {x : Predicate → Emit Unit} (rest : Predicate → Option Value → Emit Unit)
    (eq : ∀ p, x p = Access.condition p >>= rest p) (same : ∀ p, rest p = rest .none)
    [sided : ∀ (σ : Course) (W : Tandem σ),
      W.Sided (rest .none (some σ.guard)) (rest .none none)] : Tested x :=
  .first (rest .none) (fun p => by rw [eq, same]) sided

theorem unsupported {what : Unsupported} : Tested fun _ => Emit.unsupported what :=
  .silent fun _ _ _ h => nomatch h

theorem arithmetic (i : Instruction) (sources : List Operand) :
    Tested fun p => Lowering.arithmetic ctx { i with predicate := p } sources := by
  exact of_rest _ (fun _ => rfl) fun _ => rfl

theorem bitwise (i : Instruction) :
    Tested fun p => Lowering.bitwise ctx { i with predicate := p } := by
  unfold Lowering.bitwise
  dsimp only
  split
  · rename_i invert rotation immediate? _
    by_cases hrotation : rotation ≠ 0
    · simp only [if_pos hrotation]
      exact .silent fun _ _ _ h => nomatch h
    · simp only [if_neg hrotation]
      exact of_rest _ (fun _ => rfl) fun _ => rfl
  · simp only [ne_eq, not_true_eq_false, if_false]
    exact of_rest _ (fun _ => rfl) fun _ => rfl

theorem conditionalMove (i : Instruction) :
    Tested fun p => Lowering.conditionalMove ctx { i with predicate := p } := by
  exact of_rest _ (fun _ => rfl) fun _ => rfl

theorem pack (i : Instruction) (dest source : Element) :
    Tested fun p => Lowering.pack ctx { i with predicate := p } dest source := by
  exact of_rest _ (fun _ => rfl) fun _ => rfl

theorem blend (i : Instruction) : Tested fun p => Lowering.blend ctx { i with predicate := p } := by
  unfold Lowering.blend
  dsimp only
  split
  · exact of_rest _ (fun _ => rfl) fun _ => rfl
  · exact unsupported

theorem maskedBlend (i : Instruction) :
    Tested fun p => Lowering.maskedBlend ctx { i with predicate := p } := by
  unfold Lowering.maskedBlend
  dsimp only
  split
  · refine @of_rest _ _ (fun _ => rfl) (fun _ => rfl) fun σ W => ?_
    iterate 6
      apply Tandem.Sided.bind_cases
      intro _ _
    infer_instance
  · exact unsupported

theorem test (i : Instruction) : Tested fun p => Lowering.test ctx { i with predicate := p } := by
  exact of_rest _ (fun _ => rfl) fun _ => rfl

theorem testMask (i : Instruction) :
    Tested fun p => Lowering.testMask ctx { i with predicate := p } := by
  exact of_rest _ (fun _ => rfl) fun _ => rfl

theorem transfer (i : Instruction) (hload : i.opcode ≠ .str) :
    Tested fun p => Lowering.transfer ctx { i with predicate := p } := by
  unfold Lowering.transfer
  dsimp only
  split
  · rename_i element count expanded _
    by_cases hword : element.size * count < 0x100000000
    · have hpure : word (element.size * count) = pure (element.size * count) := if_pos hword
      simp only [hload, decide_false, Bool.false_and, Bool.not_false, Bool.false_eq_true, if_false,
        hpure, pure_bind]
      refine @of_rest _ _ (fun _ => rfl) (fun _ => rfl) fun σ W => ?_
      by_cases hspace : (decide (memorySpace ctx.shader.aliases i.src0 = .literal) && true) = true
      · simp only [if_pos hspace]
        apply Tandem.Sided.data_cases
        intro W1 fixed?
        split <;> infer_instance
      · simp only [if_neg hspace]
        infer_instance
    · have hthrow : word (element.size * count) = throw .overflow := if_neg hword
      simp only [hthrow]
      exact .silent fun _ _ _ h => by cases h
  · exact unsupported

end Tested

theorem tested_lower (i : Instruction) (single : ∀ second, i.detail ≠ .dual second)
    (notLiteral : i.opcode ≠ .limm) (notStore : i.opcode ≠ .str) :
    Tested fun p => lower ctx { i with predicate := p } := by
  unfold lower
  dsimp only
  split
  · exact absurd ‹_› (single _)
  · cases hopcode : i.opcode with
    | vmov | vrcp | vrsq | vlog | vexp => simpa only [hopcode] using Tested.arithmetic ctx i [i.src1]
    | vmad | vf16mad => simpa only [hopcode] using Tested.arithmetic ctx i [i.src0, i.src1, i.src2]
    | vmul | vadd | vfrc | vdsx | vdsy | vmin | vmax | vdp
    | vf16mul | vf16add | vf16frc | vf16dsx | vf16dsy | vf16min | vf16max | vf16dp =>
      simpa only [hopcode] using Tested.arithmetic ctx i [i.src1, i.src2]
    | vmovc | vmovcu8 => simpa only [hopcode] using Tested.conditionalMove ctx i
    | vpck dest source => simpa only [hopcode] using Tested.pack ctx i dest source
    | and | or | xor | shl | rol | shr | asr => simpa only [hopcode] using Tested.bitwise ctx i
    | sop2 => simpa only [hopcode] using Tested.blend ctx i
    | sop2m => simpa only [hopcode] using Tested.maskedBlend ctx i
    | vtst => simpa only [hopcode] using Tested.test ctx i
    | vtstmsk => simpa only [hopcode] using Tested.testMask ctx i
    | ldr => simpa only [hopcode] using Tested.transfer ctx i notStore
    | str => exact absurd hopcode notStore
    | limm => exact absurd hopcode notLiteral
    | smlsi =>
      dsimp only
      split
      · refine .silent fun _ _ _ h => ?_
        cases h
        exact ⟨rfl, rfl⟩
      · exact .unsupported
    | nop | phas | spec =>
      refine .silent fun _ _ _ h => ?_
      cases h
      exact ⟨rfl, rfl⟩
    | sop3 | smp | kill | br
    | vssq | fmad | fadd | fmul | fsubflr | frsq | frcp | fexp | flog => exact .unsupported

theorem Instruction.Regular.rerun (h : i.Regular) (p : Predicate) (repeats : Nat) :
    ({ i with predicate := p, repeatCount := repeats } : Instruction).Regular := by
  have floats (o : Operation) :
      o.Floats ↔ o.src0.Reads .f32 ∧ o.src1.Reads .f32 ∧ o.src2.Reads .f32 ∧
        (o.opcode = .fsubflr → o.src0.Alike o.src1) :=
    ⟨fun h => ⟨h.src0, h.src1, h.src2, h.alike⟩, fun h => ⟨h.1, h.2.1, h.2.2.1, h.2.2.2⟩⟩
  simp only [Instruction.Regular, floats, Operation.Pair] at h ⊢
  exact h

theorem lower_after {ctx : Context} (h : lower ctx i w = .ok () w') :
    w.listing.entries.toList <+: w'.listing.entries.toList := by
  have hwithin := (within_lower ctx i.in_any.reached).leads w
  unfold Footprint.Leads at hwithin
  rw [h] at hwithin
  obtain ⟨added, hadded, -⟩ := hwithin.1.entries
  exact ⟨added, hadded.symm⟩

theorem lower_fits {ctx : Context} (regular : i.Regular) (sound : w.Sound)
    (h : lower ctx i w = .ok () w') :
    w'.listing.WellTyped ∧ w.listing.entries.toList <+: w'.listing.entries.toList := by
  have hchecks := (checks_lower ctx regular sound).2
  rw [h] at hchecks
  exact ⟨hchecks.2.1.listing, lower_after h⟩

theorem ready_empty : Workspace.Ready { listing := { target := .machine } } := by
  have fresh : Fresh { target := .machine } {} :=
    ⟨rfl, rfl, fun _ => .nil, fun _ _ h => absurd h List.not_mem_nil,
      fun _ _ _ h => absurd h List.not_mem_nil⟩
  exact ⟨⟨rfl, rfl⟩, rfl, fresh.wellFormed⟩

/-- A new machine, and what all code of the workspace leads to on it. -/
def Workspace.atStart (w : Workspace) : State := .initial (.ofListing w.listing)

def Workspace.atEnd (w : Workspace) : State :=
  w.atStart.runSince (.ofListing w.listing) { target := .machine } w.listing

theorem startsAlike_atStart (w w1 w2 : Workspace) : w1.atStart.StartsAlike w w1 w2 w2.atStart := by
  have hheld (w : Workspace) (x : Nat) : w.atStart.held x = fun _ => .replicate 0#32 :=
    funext fun j => read_initial _ ⟨x, [j]⟩
  constructor
  · rfl
  · intro x _
    rw [hheld, hheld]
  · intro x y _ _ _ _ _
    rw [hheld, hheld]

theorem Predicate.holds_atStart {p : Predicate} (hp : p.register? = some (slot, negated))
    (w : Workspace) : p.Holds w.registers w.atStart ↔ negated = true := by
  have hzero : (w.registers.predicateAt w.atStart slot).getD 0#32 = 0#32 := by
    rw [predicateAt]
    cases w.registers.predicates.get slot with
    | none => rfl
    | some place =>
      rw [Option.map_some, Option.getD_some, Workspace.atStart, read_initial]
      rfl
  constructor
  · intro h
    have := h slot negated hp
    rw [hzero] at this
    simpa using this
  · intro h slot' negated' hp'
    obtain ⟨rfl, rfl⟩ := Prod.mk.inj (Option.some.inj (hp.symm.trans hp'))
    rw [hzero, h]
    simp

end Microcode
