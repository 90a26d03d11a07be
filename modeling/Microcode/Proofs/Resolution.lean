import Microcode.Proofs.Registers

/-!
Resolution finds the storage of a lane and keeps what the registers hold.

A shadow is seeded with what its group holds, so making one changes no lane.  Resolution fails only
for lanes that nothing backs, and where lane numbers leave the 32-bit range.
-/

namespace Microcode

open Machine Emit List RegisterFile

variable {start : Nat → Nat → Lanes} {w w' : Workspace} {s s' : State} {bank : Bank}

/-! ## Bindings -/

theorem emits_findBinding (lane : Nat) :
    Emits (.quiet start) (findBinding bank lane) w s
      (fun found w' _ => found = w.registers.find? bank lane ∧ w' = w ∧
        w.registers.EndsAt bank lane)
      (fun e _ => e = .overflow ∧ ¬ w.registers.EndsAt bank lane) := by
  rw [findBinding]
  refine Emits.getRegisters ?_
  rw [RegisterFile.find?]
  cases hc : w.registers.candidate? bank lane with
  | none => exact .pure ⟨rfl, rfl, fun _ _ h => absurd (hc ▸ h) (by simp)⟩
  | some entry =>
    obtain ⟨base, binding⟩ := entry
    have tooHigh (h : 0x100000000 ≤ base + binding.lanes) :
        Error.overflow = .overflow ∧ ¬ w.registers.EndsAt bank lane :=
      ⟨rfl, fun hb => by have := hb base binding hc; omega⟩
    refine Emits.word (fun h => tooHigh (by omega)) fun _ => Emits.word tooHigh fun hend =>
      .pure ⟨by simp [Option.filter], rfl, fun base' binding' h => ?_⟩
    rw [hc] at h
    obtain ⟨rfl, rfl⟩ := Prod.mk.inj (Option.some.inj h)
    exact hend

theorem emits_lookup (lane : Nat) :
    Emits (.quiet start) (lookup bank lane) w s
      (fun found w' _ => found = w.registers.bound? bank lane ∧ (found = none → w' = w) ∧
        w.registers.EndsAt bank lane)
      (fun e _ => e = .overflow ∧ ¬ w.registers.EndsAt bank lane) := by
  rw [Emit.lookup]
  refine (emits_findBinding lane).bind fun found w1 s1 q1 h₁ => ?_
  rw [bound?, ← h₁.1]
  cases found with
  | none => exact .pure ⟨rfl, fun _ => h₁.2.1, h₁.2.2⟩
  | some entry =>
    obtain ⟨base, binding⟩ := entry
    cases binding with
    | vector place lanes => exact .pure ⟨rfl, fun h => absurd h (by simp), h₁.2.2⟩
    | array place length =>
      refine emits_element.bind fun p w2 s2 _ hp => .pure ⟨?_, fun h => absurd h (by simp), h₁.2.2⟩
      rw [hp]
      rfl

/-- What is bound to a lane holds this, and nothing bound counts as zero. -/
def RegisterFile.boundLane (r : RegisterFile) (s : State) (bank : Bank) (lane : Nat) : Lane :=
  ((r.bound? bank lane).map (·.content s)).getD 0#32

/-- The lanes of a register that is bound to a lane, from that lane on. -/
theorem RegisterFile.WellFormed.map_boundLane {l : Listing} {r : RegisterFile}
    (h : r.WellFormed l) {lane : Nat} {found : Resolved} (hb : r.bound? bank lane = some found)
    {take : Nat} (ht : take ≤ found.register.lanes - found.offset) :
    (List.range' found.offset take).map (s.read found.register.place).get =
      (List.range' lane take).map (r.boundLane s bank) := by
  have hcov := bound?_covers hb
  refine ext_getElem (by simp) fun i hi _ => ?_
  have hi' : i < take := by simpa using hi
  have hrun := h.bound?_run hb (show found.register.base ≤ lane + i by omega) (by omega)
  simp only [getElem_map, getElem_range', boundLane, hrun, Option.map_some,
    Option.getD_some, Resolved.content, Nat.one_mul]
  congr 1
  omega

theorem RegisterFile.WellFormed.boundLane_congr {l : Listing} {r r' : RegisterFile}
    (hr : r.WellFormed l) (tables : r'.tables = r.tables)
    (reads : ∀ {place}, l.Declares place → s'.read place = s.read place) :
    r'.boundLane s' bank = r.boundLane s bank := by
  funext lane
  have hsame : r'.bound? bank lane = r.bound? bank lane := by
    simp only [bound?, find?, candidate?, tables]
  rw [boundLane, boundLane, hsame]
  cases hb : r.bound? bank lane with
  | none => rfl
  | some found => simp only [Option.map_some, Resolved.content, reads (hr.bound hb).place.declared]

/-- The parts together hold what is bound to the lanes from `lane` to `stop`. -/
def Seeds (w : Workspace) (s : State) (bank : Bank) (lane stop : Nat) (parts : List Value)
    (w' : Workspace) (s' : State) : Prop :=
  (∃ lanes, List.Forall₂ (fun v xs => Holds w' s' v .f32 xs) parts lanes ∧
    lanes.flatten = (List.range' lane (stop - lane)).map (w.registers.boundLane s bank)) ∧
    ∀ i, lane ≤ i → i < stop → w.registers.EndsAt bank i

theorem seeds_nil {lane stop : Nat} (h : stop ≤ lane) : Seeds w s bank lane stop [] w' s' := by
  refine ⟨⟨[], .nil, ?_⟩, fun i hi hi' => by omega⟩
  rw [Nat.sub_eq_zero_of_le h]
  rfl

/-- Lane numbers from `lane` to `stop` leave the 32-bit range. -/
def Overruns (r : RegisterFile) (bank : Bank) (lane stop : Nat) (e : Error) (_ : Workspace) : Prop :=
  e = .overflow ∧ ∃ i, lane ≤ i ∧ i < stop ∧ ¬ r.EndsAt bank i

theorem emits_groupParts (stop fuel lane : Nat) (hfuel : stop ≤ lane + fuel)
    (hwidth : stop ≤ lane + 4) (hw : w.registers.WellFormed w.listing) :
    Emits (.quiet start) (groupParts bank stop fuel lane) w s (Seeds w s bank lane stop)
      (Overruns w.registers bank lane stop) := by
  induction fuel generalizing lane w s with
  | zero => exact .pure (seeds_nil hfuel)
  | succ fuel ih =>
    rw [groupParts]
    by_cases hstop : stop ≤ lane
    · rw [if_pos hstop]
      exact .pure (seeds_nil hstop)
    rw [if_neg hstop]
    refine ((emits_lookup lane).fails fun e _ he =>
      ⟨he.1, lane, Nat.le_refl _, by omega, he.2⟩).bind fun found w1 s1 q1 h₁ => ?_
    obtain ⟨hfound, -, hends⟩ := h₁
    -- What the rest of the group gives, after a first part that reaches to `lane + take`.
    have rest {take : Nat} (htake : 0 < take) (hle : take ≤ stop - lane)
        (hrun : ∀ i, lane ≤ i → i < lane + take → w.registers.EndsAt bank i) {part : Value}
        {w2 : Workspace} {s2 : State} (q2 : Quiet start w1 s1 w2 s2)
        (hpart : Holds w2 s2 part .f32
          ((List.range' lane take).map (w.registers.boundLane s bank))) :
        Emits (.quiet start)
          (groupParts bank stop fuel (lane + take) >>= fun more => pure (part :: more)) w2 s2
          (Seeds w s bank lane stop) (Overruns w.registers bank lane stop) := by
      have q : Quiet start w s w2 s2 := q1.trans q2
      have hw2 : w2.registers.WellFormed w2.listing := by
        rw [q.registers]; exact hw.mono q.steps.extension
      refine ((ih (lane + take) (by omega) (by omega) hw2).fails fun e _ he => ?_).bind
        fun more w3 s3 q3 hmore => ?_
      · obtain ⟨he, i, hi, hi', hnot⟩ := he
        exact ⟨he, i, by omega, hi', q.registers ▸ hnot⟩
      obtain ⟨⟨lanes, hlanes, hflat⟩, hmore⟩ := hmore
      rw [hw.boundLane_congr (by rw [q.registers]) fun _ => q.read _] at hflat
      refine .pure ⟨⟨_ :: lanes, .cons (hpart.quiet q3) hlanes, ?_⟩, fun i hi hi' => ?_⟩
      on_goal 2 =>
        by_cases hlt : i < lane + take
        · exact hrun i hi hlt
        · exact q.registers ▸ hmore i (by omega) hi'
      rw [flatten_cons, hflat, ← map_append, Nat.sub_add_eq,
        show stop - lane = take + (stop - lane - take) by omega, Nat.add_sub_cancel_left,
        ← range'_append_1]
    cases found with
    | none =>
      refine (computes_constant (.f32 0#32) _).bind fun part w2 s2 q2 hpart => ?_
      refine rest Nat.one_pos (by omega) (fun i hi hi' => ?_) q2 ?_
      · rw [show i = lane by omega]
        exact hends
      have hzero : (List.range' lane 1).map (w.registers.boundLane s bank) = [0#32] := by
        simp [boundLane, ← hfound]
      rw [hzero]
      exact hpart
    | some found =>
      have hb : w.registers.bound? bank lane = some found := hfound.symm
      have hvalid := hw.bound hb
      have hcov := bound?_covers hb
      have hvalid1 := hvalid.mono q1.steps.extension
      refine (computes_load hvalid1.place.declared hvalid1.place.shape hvalid.pos hvalid.width
        _).bind fun v w2 s2 q2 hv => ?_
      rw [q1.read] at hv
      obtain ⟨take, htake⟩ : ∃ n, n = min (found.register.lanes - found.offset) (stop - lane) :=
        ⟨_, rfl⟩
      simp only [← htake]
      have hlanes : (((List.range found.register.lanes).map (s.read found.register.place).get).drop
          found.offset).take take = (List.range' lane take).map (w.registers.boundLane s bank) := by
        rw [← hw.map_boundLane hb (show take ≤ found.register.lanes - found.offset by omega),
          ← map_drop, ← map_take, range_eq_range', drop_range',
          take_range'_of_length_ge (by omega), Nat.zero_add, Nat.mul_one]
      -- The first part, as it is or as a slice.
      have part {u : Value} {w3 : Workspace} {s3 : State} (q3 : Quiet start w2 s2 w3 s3)
          (hu : Holds w3 s3 u .f32 ((((List.range found.register.lanes).map
            (s.read found.register.place).get).drop found.offset).take take)) :=
        rest (by omega) (by omega) (fun i hi hi' =>
          endsAt_run (hw.disjoint bank) hb (by omega) (by omega) hends) (q2.trans q3)
          (hlanes ▸ hu)
      by_cases hall : found.offset = 0 ∧ take = found.register.lanes
      · rw [if_pos (by simpa using hall)]
        refine part (.refl q2.live_after) ?_
        rw [hall.1, hall.2, drop_zero, take_of_length_le (by simp)]
        exact hv
      · rw [if_neg (by simpa using hall)]
        exact (computes_slice hv (by omega) (by simp; omega) _).bind fun u w3 s3 q3 hu => part q3 hu

/-! ## Shadows -/

namespace RegisterFile

variable {l l' : Listing} {r : RegisterFile} {group : Nat} {place : Place}

theorem shadow?_addShadow (r : RegisterFile) (bank : Bank) (group : Nat) (place : Place) (b : Bank)
    (g : Nat) : (r.addShadow bank group place).shadow? b g =
      if b = bank ∧ g = group then some ⟨place, 4, group⟩ else r.shadow? b g := by
  rw [shadow?, addShadow, lookup_cons]
  by_cases h : b = bank ∧ g = group
  · rw [if_pos h, h.1, h.2, beq_self_eq_true]
  · have hne : ((b, g) == (bank, group)) = false := by simpa using h
    rw [if_neg h, hne]
    rfl

theorem shadow?_addShadow_cases {b : Bank} {g : Nat} {register : Register}
    (h : (r.addShadow bank group place).shadow? b g = some register) :
    (b = bank ∧ g = group ∧ register = ⟨place, 4, group⟩) ∨ r.shadow? b g = some register := by
  rw [shadow?_addShadow] at h
  by_cases hc : b = bank ∧ g = group
  · rw [if_pos hc, Option.some.injEq] at h
    exact .inl ⟨hc.1, hc.2, h.symm⟩
  · rw [if_neg hc] at h
    exact .inr h

theorem shadow?_addShadow_of_some (hnone : r.shadow? bank group = none) {b : Bank} {g : Nat}
    {register : Register} (h : r.shadow? b g = some register) :
    (r.addShadow bank group place).shadow? b g = some register := by
  rw [shadow?_addShadow, if_neg]
  · exact h
  · rintro ⟨rfl, rfl⟩
    cases hnone.symm.trans h

theorem Backs.addShadow_cases {o : Owner} {p : Place}
    (h : (r.addShadow bank group place).Backs o p) :
    (o = .shadow bank group ∧ p = place) ∨ r.Backs o p := by
  cases h with
  | bound h => exact .inr (.bound h)
  | predicate hslot h => exact .inr (.predicate hslot h)
  | shadow h =>
    rcases shadow?_addShadow_cases h with ⟨rfl, rfl, rfl⟩ | h
    · exact .inl ⟨rfl, rfl⟩
    · exact .inr (.shadow h)

theorem cell_ne_of_fresh {p : Place} (hp : l.Declares p) (hfresh : ¬ l.Declares place) :
    cell p ≠ cell place := by
  intro h
  have hv : p.variableIndex = place.variableIndex := congrArg Prod.fst h
  exact hfresh (show place.variableIndex < _ from hv ▸ hp)

theorem WellFormed.addShadow (h : r.WellFormed l) (hl : l.Extends l')
    (hvalid : place.Valid l' Shape.group) (hb : bank.isShadowed = true) (hg : group % 4 = 0)
    (hsmall : group + 4 < 0x100000000) : (r.addShadow bank group place).WellFormed l' where
  disjoint := h.disjoint
  bound hb := (h.bound hb).mono hl
  shadow hs := by
    rcases shadow?_addShadow_cases hs with ⟨rfl, rfl, rfl⟩ | hs
    · exact ⟨hb, hg, rfl, rfl, hvalid, by simp, by simp⟩
    · exact (h.mono hl).shadow hs
  numbered hs := by
    rcases shadow?_addShadow_cases hs with ⟨-, rfl, -⟩ | hs
    · exact hsmall
    · exact h.numbered hs
  predicate hslot hp := (h.predicate hslot hp).mono hl

/-- New storage may be given to one more owner. -/
theorem Separate.of_cases {r' : RegisterFile} (owner : Owner) (h : r.Separate) (hr : r.WellFormed l)
    (hfresh : ¬ l.Declares place)
    (cases : ∀ {o p}, r'.Backs o p → (o = owner ∧ p = place) ∨ r.Backs o p) : r'.Separate := by
  intro o o' p p' ho ho' hcell
  rcases cases ho with ⟨rfl, hp⟩ | hold <;> rcases cases ho' with ⟨rfl, hp'⟩ | hold'
  · rfl
  · exact absurd (hp ▸ hcell.symm) (cell_ne_of_fresh (hr.declared hold') hfresh)
  · exact absurd (hp' ▸ hcell) (cell_ne_of_fresh (hr.declared hold) hfresh)
  · exact h o o' p p' hold hold' hcell

theorem Separate.addShadow (h : r.Separate) (hr : r.WellFormed l) (hfresh : ¬ l.Declares place) :
    (r.addShadow bank group place).Separate := h.of_cases _ hr hfresh Backs.addShadow_cases

/-- A shadow that was seeded with what its group holds changes no lane, and lanes that nothing held
hold zeros now. -/
theorem WellFormed.laneAt_addShadow (h : r.WellFormed l) (hnone : r.shadow? bank group = none)
    (hread : ∀ {p}, l.Declares p → s'.read p = s.read p) (hb : bank.isShadowed = true)
    (hseed : ∀ i, i < 4 → (s'.read place).get i = r.boundLane s bank (group + i)) (b : Bank)
    (lane : Nat) : (r.addShadow bank group place).laneAt s' b lane = r.laneAt s b lane ∨
      r.laneAt s b lane = none ∧ (r.addShadow bank group place).laneAt s' b lane = some 0#32 := by
  by_cases hc : b = bank ∧ lane / 4 * 4 = group
  · obtain ⟨rfl, rfl⟩ := hc
    have hold : r.held? b lane = none := by rw [held?, if_pos hb, hnone]; rfl
    have hnew : (r.addShadow b (lane / 4 * 4) place).held? b lane =
        some ⟨⟨place, 4, lane / 4 * 4⟩, lane - lane / 4 * 4⟩ := by
      rw [held?, if_pos hb, shadow?_addShadow, if_pos ⟨rfl, rfl⟩]
      rfl
    have hlane := hseed (lane - lane / 4 * 4) (by omega)
    rw [show lane / 4 * 4 + (lane - lane / 4 * 4) = lane by omega, boundLane] at hlane
    simp only [laneAt, resolved?, hold, hnew, Option.none_or, Option.some_or, Resolved.content, hlane]
    cases r.bound? b lane with
    | some found => exact .inl rfl
    | none =>
      by_cases hsecondary : b = .secondaryAttribute
      · exact .inl (by rw [if_pos hsecondary]; rfl)
      · exact .inr ⟨if_neg hsecondary, rfl⟩
  · have hsame : (r.addShadow bank group place).resolved? b lane = r.resolved? b lane := by
      rw [resolved?, resolved?, held?, held?, shadow?_addShadow, if_neg hc]
      rfl
    left
    rw [laneAt, laneAt, hsame]
    cases hr : r.resolved? b lane with
    | none => rfl
    | some found =>
      have hdecl := (h.resolved?_covers hr).2.2.place.declared
      simp only [Resolved.content, hread hdecl]

end RegisterFile

theorem Emits.setRegisters {α : Type} {r : RegisterFile} {f : Unit → Emit α}
    {Q : α → Workspace → State → Prop} {E : Error → Workspace → Prop}
    (h : Emits (.runs start) (f ()) (w.setRegisters r) s Q E) :
    Emits (.runs start) (Emit.setRegisters r >>= f) w s Q E := by
  refine .of_run (fun hw a w' hr => ?_) fun hw e w' hr => h.of_error ⟨hw.fits, hw.target⟩ hr
  obtain ⟨s', hrun, hQ⟩ := h.of_ok ⟨hw.fits, hw.target⟩ hr
  exact ⟨s', ⟨hw, hrun.steps⟩, hQ⟩

theorem State.read_push (s : State) (x : Array Lanes) {place : Place}
    (h : place.variableIndex < s.vars.size) :
    ({ s with vars := s.vars.push x } : State).read place = s.read place := by
  rw [State.read, State.read, getD_push_of_lt _ _ _ h]

theorem Variable.length_pos (v : Variable) : 0 < v.length := by
  rw [Variable.length]
  split <;> omega

theorem Listing.valid_declare (l : Listing) (v : Variable) :
    (l.declare v).1.Valid (l.declare v).2 v.shape where
  declared := by simp [Listing.Declares, Listing.declare]
  shape := congrArg Variable.shape (l.variableAt_declare v)
  element := by
    rw [l.variableAt_declare v]
    exact v.length_pos

theorem Listing.not_declares_new (l : Listing) : ¬ l.Declares ⟨l.vars.size, []⟩ := Nat.lt_irrefl _

/-- The shadow of a group is there: a new variable that holds what is bound to the group. -/
structure Shadowed (w : Workspace) (s : State) (bank : Bank) (group : Nat) (register : Register)
    (w' : Workspace) (s' : State) : Prop where
  is_new : register = ⟨⟨w.listing.vars.size, []⟩, 4, group⟩
  registers : w'.registers = w.registers.addShadow bank group register.place
  seedable : w.registers.Seedable bank group
  declared : w'.listing.vars = w.listing.vars.push
    ⟨bank.name ++ toString group ++ "_shadow", Shape.group, .hidden⟩
  seeded : ∀ i, i < 4 → (s'.read register.place).get i = w.registers.boundLane s bank (group + i)

theorem emits_makeShadow {group : Nat} (hb : bank.isShadowed = true) (hg : group % 4 = 0)
    (hnone : w.registers.shadow? bank group = none) :
    Emits (.keeps start) (makeShadow bank group) w s (Shadowed w s bank group)
      (fun e _ => e = .overflow ∧ ¬ w.registers.Seedable bank group) := by
  refine .of_frame (G := .runs start) Good.live fun good => ?_
  rw [makeShadow]
  refine emits_declare.bind fun place w1 s1 _ h₁ => ?_
  obtain ⟨hplace, hw1, hs1⟩ := h₁
  have hl1 : w.listing.Extends w1.listing := hw1 ▸ w.listing.extends_declare _
  have hreg1 : w1.registers = w.registers := by rw [hw1]
  have hwf1 : w1.registers.WellFormed w1.listing := by
    rw [hreg1]; exact good.registers.mono hl1
  have hfresh : ¬ w.listing.Declares place := hplace ▸ w.listing.not_declares_new
  have hplace1 : place.Valid w1.listing Shape.group := by
    rw [hplace, hw1]
    exact w.listing.valid_declare _
  have hread1 : ∀ {p}, w.listing.Declares p → s1.read p = s.read p := by
    intro p hp
    rw [hs1, State.read_push _ _ (good.live.fits.vars ▸ hp)]
  refine Emits.word (fun h => ⟨rfl, fun hseed => by have := hseed.1; omega⟩) fun hlt => ?_
  refine ((emits_groupParts (group + 4) 4 group (Nat.le_refl _) (Nat.le_refl _) hwf1).runs.fails
    fun e _ he => ?_).bind fun parts w2 s2 _ h₂ => ?_
  · obtain ⟨he, i, hi, hi', hnot⟩ := he
    refine ⟨he, fun hseed => hnot ?_⟩
    have := hseed.2 (i - group) (by omega)
    rwa [show group + (i - group) = i by omega, ← hreg1] at this
  obtain ⟨q2, ⟨lanes, hforall, hflat⟩, hends⟩ := h₂
  have hseedable : w.registers.Seedable bank group :=
    ⟨hlt, fun i hi => hreg1 ▸ hends (group + i) (by omega) (by omega)⟩
  rw [good.registers.boundLane_congr (by rw [hreg1]) hread1, Nat.add_sub_cancel_left] at hflat
  have hflen : lanes.flatten.length = 4 := by rw [hflat]; simp
  have hne : parts ≠ [] := by
    rintro rfl
    cases hforall
    simp at hflen
  refine (computes_construct hforall hne (by omega) _).runs.bind fun seed w3 s3 _ h3 => ?_
  obtain ⟨q3, hseed⟩ := h3
  have q : Quiet start w1 s1 w3 s3 := q2.trans q3
  have hplace3 := hplace1.mono q.steps.extension
  refine (emits_store hplace3.declared hseed.defined).bind fun _ w4 s4 _ h₄ => ?_
  obtain ⟨hw4, hs4⟩ := h₄
  refine Emits.getRegisters (Emits.setRegisters fun hw5 => ⟨s4, Frame.refl _ hw5, ?_⟩)
  have hl4 : w.listing.Extends w4.listing := by
    rw [hw4]
    exact (hl1.trans q.steps.extension).trans (Listing.extends_add _ (.store _ _))
  have hreg4 : w4.registers = w.registers := by rw [hw4, ← hreg1, ← q.registers]
  have hplace4 : place.Valid w4.listing Shape.group := by
    rw [hw4]; exact hplace3.mono (Listing.extends_add _ (.store _ _))
  have hread : ∀ {p}, w.listing.Declares p → s4.read p = s.read p := by
    intro p hp
    rw [hs4, State.read_write_of_ne _ _ (cell_ne_of_fresh hp hfresh).symm, q.read,
      hread1 hp]
  have hcontent : ∀ i, i < 4 → (s4.read place).get i = w.registers.boundLane s bank (group + i) := by
    intro i hi
    have hsize := (q.live_after.fits.elements _ hplace3.declared).symm ▸ hplace3.element
    rw [hs4, State.read_write_self _ _ rfl hsize, hseed.get i (by omega), hflat,
      getD_eq_getElem _ _ (by simpa using hi), getElem_map, getElem_range',
      Nat.one_mul]
  have hsteps : Steps start w.listing s w4.listing s4 := by
    have h1 : Steps start w.listing s w1.listing s1 := by
      rw [hw1, hs1]; exact .one (.declare _)
    have h4 : Steps start w3.listing s3 w4.listing s4 := by
      rw [hw4, hs4]; exact .one (.store place seed hplace3.declared hseed.defined)
    exact (h1.trans q.steps).trans h4
  have hreg5 : (w4.setRegisters (w4.registers.addShadow bank group place)).registers =
      w.registers.addShadow bank group place := congrArg (·.addShadow bank group place) hreg4
  have hlanes := good.registers.laneAt_addShadow hnone hread hb hcontent
  have hvars : w4.listing.vars = w.listing.vars.push
      ⟨bank.name ++ toString group ++ "_shadow", Shape.group, .hidden⟩ := by
    rw [hw4]
    exact q.declared.trans (by rw [hw1]; rfl)
  refine ⟨⟨⟨good, ⟨⟨hw5.fits, hw5.target⟩, ?_⟩, hsteps, ?_, ?_, by rw [hreg5]; rfl, ?_, ?_, ?_⟩,
    hread, ?_, ?_⟩, by rw [hplace], hreg5, hseedable, hvars, hcontent⟩
  · rw [hreg5]
    exact good.registers.addShadow hl4 hplace4 hb hg hlt
  · rw [hw4]
    exact q.increments.trans (by rw [hw1])
  · rw [hs4]
    exact q.memory.trans (by rw [hs1])
  · intro b g register hs
    rw [hreg5]
    exact shadow?_addShadow_of_some hnone hs
  · intro slot p _ hp
    rw [hreg5]
    exact hp
  · intro hsep
    rw [hreg5]
    exact hsep.addShadow good.registers hfresh
  · intro b lane x hx
    rw [hreg5]
    rcases hlanes b lane with hsame | ⟨hempty, -⟩
    · exact hsame.trans hx
    · cases hempty.symm.trans hx
  · intro b lane
    rw [hreg5, shown, shown]
    rcases hlanes b lane with hsame | ⟨hempty, hzero⟩
    · rw [hsame]
    · rw [hempty, hzero]
      rfl

/-! ## Lanes -/

theorem laneNumber_add (bank : Bank) (num : Nat) (sub : Int) (n : Nat) :
    laneNumber bank num (sub + n) = laneNumber bank num sub + n := by
  rw [laneNumber, laneNumber, Int.add_assoc]

theorem laneNumber_of_le (bank : Bank) (num : Nat) (sub : Int) {m n : Nat} (h : m ≤ n) :
    laneNumber bank num (sub + n) = laneNumber bank num (sub + m) + (n - m : Nat) := by
  rw [← laneNumber_add, show sub + m + (n - m : Nat) = sub + n by omega]

theorem laneNumber_of_isShadowed {bank : Bank} (h : bank.isShadowed = true) (num : Nat) (sub : Int) :
    laneNumber bank num sub = num + sub := by
  rw [laneNumber, if_neg]
  rintro rfl
  cases h

/-- Resolution of the lane with this number fails: nothing backs the lane, and nothing has happened,
or register arithmetic left its range. -/
structure Unresolved (w : Workspace) (bank : Bank) (number : Int) (forStore : Bool) (e : Error)
    (w' : Workspace) : Prop where
  unreached : ¬ w.registers.Reaches bank number forStore
  unbacked : e ≠ .overflow → w' = w ∧ (number < 0 ∨ 0x100000000 ≤ number ∨
    w.registers.resolved? bank number.toNat = none ∧ bank ≠ .secondaryAttribute)
  overflow : e = .overflow → ¬ (w.registers.EndsAt bank number.toNat ∧
    w.registers.Seedable bank (number.toNat / 4 * 4))

/-- What resolution finds, and what it adds to the register file. -/
structure Finds (w : Workspace) (bank : Bank) (number : Int) (forStore : Bool) (found : Resolved)
    (w' : Workspace) : Prop where
  reached : w.registers.Reaches bank number forStore
  resolved : w'.registers.resolved? bank number.toNat = some found
  held : forStore = true → bank.isShadowed = true →
    w'.registers.held? bank number.toNat = some found
  added : w'.registers = w.registers ∨
    (bank.isShadowed = true ∧ w.registers.shadow? bank (number.toNat / 4 * 4) = none ∧
      (forStore = true ∨
        bank = .secondaryAttribute ∧ w.registers.resolved? bank number.toNat = none) ∧
      ∃ place, w'.registers = w.registers.addShadow bank (number.toNat / 4 * 4) place)

theorem RegisterFile.held?_addShadow {r : RegisterFile} (hb : bank.isShadowed = true) (lane : Nat)
    (place : Place) :
    (r.addShadow bank (lane / 4 * 4) place).held? bank lane =
      some ⟨⟨place, 4, lane / 4 * 4⟩, lane - lane / 4 * 4⟩ := by
  rw [held?, if_pos hb, shadow?_addShadow, if_pos ⟨rfl, rfl⟩]
  rfl

theorem RegisterFile.held?_addShadow_of_ne {r : RegisterFile} {b : Bank} {group lane : Nat}
    (h : ¬ (b = bank ∧ lane / 4 * 4 = group)) (place : Place) :
    (r.addShadow bank group place).held? b lane = r.held? b lane := by
  rw [held?, held?, shadow?_addShadow, if_neg h]

theorem emits_resolve (index : Nat) (sub : Int) (forStore : Bool) :
    Emits (.keeps start) (resolve bank index sub forStore) w s
      (fun found w' _ => Finds w bank (laneNumber bank index sub) forStore found w')
      (Unresolved w bank (laneNumber bank index sub) forStore) := by
  rw [resolve]
  generalize laneNumber bank index sub = number
  by_cases hrange : number < 0 ∨ 0x100000000 ≤ number
  · rw [if_pos (by simpa using hrange)]
    refine fun _ => ⟨fun hr => ?_, fun _ => ⟨rfl, ?_⟩, fun h => by simp at h⟩
    · have := hr.1
      have := hr.2.1
      omega
    · rcases hrange with h | h
      · exact .inl h
      · exact .inr (.inl h)
  rw [if_neg (by simpa using hrange)]
  have hnonneg : 0 ≤ number := by omega
  have hsmall : number < 0x100000000 := by omega
  refine Emits.getRegisters ?_
  have hheld : w.registers.held? bank number.toNat =
      (if bank.isShadowed = true then w.registers.shadow? bank (number.toNat / 4 * 4)
        else none).map (⟨·, number.toNat - number.toNat / 4 * 4⟩) := by
    rw [held?]
    split <;> rfl
  -- A new shadow holds the lane.
  have shadow (hb : bank.isShadowed = true)
      (hnone : w.registers.shadow? bank (number.toNat / 4 * 4) = none)
      (hwhy : forStore = true ∨
        bank = .secondaryAttribute ∧ w.registers.resolved? bank number.toNat = none)
      (hreach : w.registers.Reaches bank number forStore ↔
        w.registers.Seedable bank (number.toNat / 4 * 4))
      {w1 : Workspace} {s1 : State} (hreg : w1.registers = w.registers) :
      Emits (.keeps start) (makeShadow bank (number.toNat / 4 * 4) >>= fun register =>
          pure ⟨register, number.toNat - number.toNat / 4 * 4⟩) w1 s1
        (fun found w' _ => Finds w bank number forStore found w')
        (Unresolved w bank number forStore) := by
    refine ((emits_makeShadow hb (by omega) (hreg ▸ hnone)).fails
      fun e w' he => ?_).bind fun register w2 s2 _ h₂ => .pure ?_
    · rw [hreg] at he
      exact ⟨fun h => he.2 (hreach.1 h), fun h => absurd he.1 h, fun _ h => he.2 h.2⟩
    · have hregister : register = ⟨register.place, 4, number.toNat / 4 * 4⟩ := by rw [h₂.is_new]
      have hadd := h₂.registers
      have hseed := h₂.seedable
      rw [hreg] at hadd hseed
      have hheld2 : w2.registers.held? bank number.toNat =
          some ⟨register, number.toNat - number.toNat / 4 * 4⟩ := by
        rw [hadd, held?_addShadow hb, ← hregister]
      refine ⟨hreach.2 hseed, ?_, fun _ _ => hheld2, .inr ⟨hb, hnone, hwhy, _, hadd⟩⟩
      rw [resolved?, hheld2, Option.some_or]
  cases hshadow : (if bank.isShadowed = true then
      w.registers.shadow? bank (number.toNat / 4 * 4) else none) with
  | some register =>
    rw [hshadow, Option.map_some] at hheld
    refine .pure ⟨⟨hnonneg, hsmall, .inl (by rw [hheld]; rfl)⟩, ?_, fun _ _ => hheld, .inl rfl⟩
    rw [resolved?, hheld, Option.some_or]
  | none =>
    rw [hshadow, Option.map_none] at hheld
    have hresolved : w.registers.resolved? bank number.toNat =
        w.registers.bound? bank number.toNat := by
      rw [resolved?, hheld, Option.none_or]
    by_cases hstore : bank.isShadowed = true ∧ forStore = true
    · rw [if_pos (by simpa using hstore)]
      rw [if_pos hstore.1] at hshadow
      refine shadow hstore.1 hshadow (.inl hstore.2) ?_ rfl
      simp [Reaches, hnonneg, hsmall, hheld, hstore]
    rw [if_neg (by simpa using hstore)]
    have hreach : w.registers.Reaches bank number forStore ↔
        w.registers.EndsAt bank number.toNat ∧
          ((w.registers.bound? bank number.toNat).isSome = true ∨ bank = .secondaryAttribute ∧
            w.registers.Seedable bank (number.toNat / 4 * 4)) := by
      rw [Reaches, if_neg hstore, hheld]
      simp [hnonneg, hsmall]
    refine ((emits_lookup number.toNat).rel.keeps.fails fun e w' he => ?_).bind
      fun found w1 s1 k1 h₁ => ?_
    · exact ⟨fun h => he.2 (hreach.1 h).1, fun h => absurd he.1 h, fun _ h => he.2 h.1⟩
    obtain ⟨q1, hfound, hsame, hends⟩ := h₁
    cases found with
    | some found =>
      refine .pure ⟨hreach.2 ⟨hends, .inl (by rw [← hfound]; rfl)⟩, ?_,
        fun h1 h2 => absurd ⟨h2, h1⟩ hstore, .inl q1.registers⟩
      rw [q1.registers, hresolved, ← hfound]
    | none =>
      by_cases hsec : bank = .secondaryAttribute
      · rw [if_pos hsec]
        have hb : bank.isShadowed = true := by rw [hsec]; rfl
        rw [if_pos hb] at hshadow
        refine shadow hb hshadow (.inr ⟨hsec, hresolved.trans hfound.symm⟩) ?_ q1.registers
        rw [hreach, ← hfound]
        exact ⟨fun h => (h.2.resolve_left (by simp)).2, fun h => ⟨hends, .inr ⟨hsec, h⟩⟩⟩
      · rw [if_neg hsec]
        refine fun _ => ⟨fun h => ?_, fun _ => ⟨hsame rfl, .inr (.inr
          ⟨hresolved.trans hfound.symm, hsec⟩)⟩, fun h => by simp at h⟩
        have := (hreach.1 h).2
        rw [← hfound] at this
        simp [hsec] at this

end Microcode
