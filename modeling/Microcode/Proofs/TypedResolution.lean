import Microcode.Proofs.Typing

/-!
Resolution keeps the contract.

A lane that resolves is a lane of a register whose place has the shape of the register, whatever
bindings overlap.  The registers that lanes of one bank resolve to for a write are known by their
first lanes, so that no target can take two of them for one.
-/

namespace Microcode

open Machine Emit List RegisterFile

variable {group : Nat} {place : Place}

variable {w w' : Workspace} {bank : Bank}

namespace Workspace.Continues

@[grind →]
theorem has {v : Value} {shape : Shape} (h : w.Continues w') (hv : w.listing.Has v shape) :
    w'.listing.Has v shape := hv.mono h.extension h.start

theorem valid {shape : Shape} (h : w.Continues w') (hp : place.Valid w.listing shape) :
    place.Valid w'.listing shape := hp.mono h.extension

theorem register {register : Register} (h : w.Continues w') (hr : register.Valid w.listing) :
    register.Valid w'.listing := hr.mono h.extension

end Workspace.Continues

/-! ## Registers of a bank -/

namespace OrderedMap

variable {α : Type} {key : Nat} {e : Nat × α}

/-- No key lies between the floor and the key it was asked for. -/
theorem le_floorList {es : List (Nat × α)} (hes : es.Pairwise fun a b => a.1 < b.1)
    (h : floorList key es = some e) {d : Nat × α} (hd : d ∈ es) (hle : d.1 ≤ key) : d.1 ≤ e.1 := by
  induction es with
  | nil => cases hd
  | cons c rest ih =>
    obtain ⟨k, a⟩ := c
    rw [pairwise_cons] at hes
    rw [floorList] at h
    by_cases hk : k ≤ key
    · rw [if_pos hk] at h
      cases hrest : floorList key rest with
      | none =>
        rw [hrest, Option.none_or, Option.some.injEq] at h
        subst h
        rcases mem_cons.1 hd with rfl | hmem
        · exact Nat.le_refl _
        · cases rest with
          | nil => cases hmem
          | cons c' rest' =>
            obtain ⟨k', a'⟩ := c'
            have hk' : ¬ k' ≤ key := by
              intro hk'
              rw [floorList, if_pos hk'] at hrest
              cases h' : floorList key rest' <;> simp [h'] at hrest
            have hle' : k' ≤ d.1 := by
              rcases mem_cons.1 hmem with rfl | hmem
              · exact Nat.le_refl _
              · exact Nat.le_of_lt ((pairwise_cons.1 hes.2).1 d hmem)
            omega
      | some c =>
        rw [hrest, Option.some_or, Option.some.injEq] at h
        subst h
        rcases mem_cons.1 hd with rfl | hmem
        · exact Nat.le_of_lt (hes.1 _ (floorList_mem hrest).1)
        · exact ih hes.2 hrest hmem
    · rw [if_neg hk] at h
      cases h

theorem eq_of_key {es : List (Nat × α)} (hes : es.Pairwise fun a b => a.1 < b.1) {d : Nat × α}
    (hd : d ∈ es) (he : e ∈ es) (hkey : d.1 = e.1) : d = e := by
  induction es with
  | nil => cases hd
  | cons c rest ih =>
    rw [pairwise_cons] at hes
    rcases mem_cons.1 hd with rfl | hd'
    · rcases mem_cons.1 he with rfl | he'
      · rfl
      · exact absurd hkey (Nat.ne_of_lt (hes.1 _ he'))
    · rcases mem_cons.1 he with rfl | he'
      · exact absurd hkey.symm (Nat.ne_of_lt (hes.1 _ hd'))
      · exact ih hes.2 hd' he'

theorem mem_insertList {key : Nat} {a : α} {es : List (Nat × α)} {d : Nat × α}
    (hd : d ∈ insertList key a es) : d = (key, a) ∨ d ∈ es := by
  induction es with
  | nil => exact .inl (mem_singleton.1 hd)
  | cons c rest ih =>
    rw [insertList] at hd
    by_cases hlt : key < c.1
    · rw [if_pos hlt] at hd
      exact mem_cons.1 hd
    · rw [if_neg hlt] at hd
      by_cases heq : key = c.1
      · rw [if_pos heq] at hd
        exact (mem_cons.1 hd).imp_right (mem_cons_of_mem _)
      · rw [if_neg heq] at hd
        rcases mem_cons.1 hd with rfl | hd
        · exact .inr mem_cons_self
        · exact (ih hd).imp_right (mem_cons_of_mem _)

theorem pairwise_insertList (key : Nat) (a : α) {es : List (Nat × α)}
    (hes : es.Pairwise fun a b => a.1 < b.1) :
    (insertList key a es).Pairwise fun a b => a.1 < b.1 := by
  induction es with
  | nil => exact pairwise_singleton _ _
  | cons c rest ih =>
    have hc := pairwise_cons.1 hes
    rw [insertList]
    by_cases hlt : key < c.1
    · rw [if_pos hlt]
      refine pairwise_cons.2 ⟨fun d hd => ?_, hes⟩
      rcases mem_cons.1 hd with rfl | hd
      · exact hlt
      · exact Nat.lt_trans hlt (hc.1 d hd)
    · rw [if_neg hlt]
      by_cases heq : key = c.1
      · rw [if_pos heq]
        exact pairwise_cons.2 ⟨fun d hd => heq ▸ hc.1 d hd, hc.2⟩
      · rw [if_neg heq]
        refine pairwise_cons.2 ⟨fun d hd => ?_, ih hc.2⟩
        rcases mem_insertList hd with rfl | hd
        · exact Nat.lt_of_le_of_ne (Nat.le_of_not_lt hlt) (Ne.symm heq)
        · exact hc.1 d hd

end OrderedMap

namespace RegisterFile

variable {l : Listing} {r : RegisterFile}

theorem mem_bind {bank bank' : Bank} {base : Nat} {binding : Binding} {e : Nat × Binding}
    (h : e ∈ ((r.bind bank base binding).tables bank').entries) :
    bank' = bank ∧ e = (base, binding) ∨ e ∈ (r.tables bank').entries := by
  by_cases hbank : bank' = bank
  · simp only [bind, if_pos hbank] at h
    rcases OrderedMap.mem_insertList h with he | he
    · exact .inl ⟨hbank, he⟩
    · exact .inr (hbank ▸ he)
  · simp only [bind, if_neg hbank] at h
    exact .inr h

theorem Typed.bound (h : r.Typed l) {lane : Nat} {found : Resolved}
    (hb : r.bound? bank lane = some found) : found.register.Valid l := by
  obtain ⟨base, binding, hfind, rfl⟩ := bound?_eq_some hb
  obtain ⟨hmem, hle, hlt⟩ := find?_mem hfind
  exact (h.binding bank _ hmem).register hle hlt

/-- A register that a write to the bank has found. -/
def Backed (r : RegisterFile) (bank : Bank) (register : Register) : Prop :=
  if bank.isShadowed = true then r.shadow? bank register.base = some register
  else ∃ lane found, r.bound? bank lane = some found ∧ found.register = register

/-- Lanes of a bank whose registers start at one lane are bound to one register. -/
theorem Typed.bound_of_base (h : r.Typed l) {lane lane' : Nat} {found found' : Resolved}
    (hb : r.bound? bank lane = some found) (hb' : r.bound? bank lane' = some found')
    (hbase : found.register.base = found'.register.base) : found.register = found'.register := by
  obtain ⟨base, binding, hfind, rfl⟩ := bound?_eq_some hb
  obtain ⟨base', binding', hfind', rfl⟩ := bound?_eq_some hb'
  obtain ⟨hmem, hle, hlt⟩ := find?_mem hfind
  obtain ⟨hmem', hle', hlt'⟩ := find?_mem hfind'
  have hfloor := (Option.filter_eq_some_iff.1 hfind).1
  have hfloor' := (Option.filter_eq_some_iff.1 hfind').1
  have starts (b : Binding) (k lane : Nat) (hk : k ≤ lane) :
      k ≤ (b.resolve k lane).register.base ∧ (b.resolve k lane).register.base ≤ lane := by
    cases b <;> simp only [Binding.resolve] <;> omega
  have hs := starts binding base lane hle
  have hs' := starts binding' base' lane' hle'
  -- The floor of each lane is at or above every key that does not pass it.
  have hkey : base = base' := by
    have h1 : base' ≤ lane → base' ≤ base :=
      OrderedMap.le_floorList (h.sorted bank) hfloor hmem'
    have h2 : base ≤ lane' → base ≤ base' :=
      OrderedMap.le_floorList (h.sorted bank) hfloor' hmem
    omega
  obtain rfl : binding = binding' :=
    (Prod.mk.inj (OrderedMap.eq_of_key (h.sorted bank) hmem hmem' hkey)).2
  subst hkey
  cases binding with
  | vector place lanes => rfl
  | array place length =>
    simp only [Binding.resolve] at hbase ⊢
    have hindex : (lane - base) / 4 = (lane' - base) / 4 := by omega
    rw [hindex]

theorem Typed.backed_of_base (h : r.Typed l) {a b : Register} (ha : r.Backed bank a)
    (hb : r.Backed bank b) (hbase : a.base = b.base) : a = b := by
  rw [Backed] at ha hb
  by_cases hs : bank.isShadowed = true
  · rw [if_pos hs] at ha hb
    rw [hbase, hb] at ha
    exact (Option.some.inj ha).symm
  · rw [if_neg hs] at ha hb
    obtain ⟨lane, found, hf, rfl⟩ := ha
    obtain ⟨lane', found', hf', rfl⟩ := hb
    exact h.bound_of_base hf hf' hbase

end RegisterFile

theorem Workspace.Continues.backed {register : Register} (h : w.Continues w')
    (hb : w.registers.Backed bank register) : w'.registers.Backed bank register := by
  rw [Backed] at hb ⊢
  by_cases hs : bank.isShadowed = true
  · rw [if_pos hs] at hb ⊢
    exact h.shadows hb
  · rw [if_neg hs] at hb ⊢
    simpa only [RegisterFile.bound?, RegisterFile.find?, RegisterFile.candidate?, h.tables] using hb

/-! ## Looking lanes up -/

theorem checks_findBinding (lane : Nat) :
    Checks .quiet (findBinding bank lane) w fun r w' => w' = w ∧ r = w.registers.find? bank lane := by
  rw [findBinding]
  refine .getRegisters ?_
  rw [RegisterFile.find?]
  cases w.registers.candidate? bank lane with
  | none => exact .pure ⟨rfl, rfl⟩
  | some entry =>
    refine .word fun _ => .word fun _ => .pure ⟨rfl, ?_⟩
    simp [Option.filter]

theorem checks_lookup (lane : Nat) :
    Checks .quiet (lookup bank lane) w fun r w' => ∀ found, r = some found →
      w'.registers.bound? bank lane = some found ∧ found.register.Valid w'.listing ∧
        found.offset < found.register.lanes := by
  have answer (w' : Workspace) (hw : w'.Sound) (found : Resolved)
      (hb : w'.registers.bound? bank lane = some found) :
      w'.registers.bound? bank lane = some found ∧ found.register.Valid w'.listing ∧
        found.offset < found.register.lanes :=
    ⟨hb, hw.registers.bound hb, (bound?_covers hb).2⟩
  rw [Emit.lookup]
  refine (checks_findBinding lane).bind ?_
  intro r w1 h₁ hw1 hr
  obtain ⟨rfl, hfind⟩ := hr
  cases r with
  | none => exact .pure fun found h => by cases h
  | some entry =>
    obtain ⟨base, binding⟩ := entry
    cases binding with
    | vector place lanes =>
      refine .pure fun found h => answer w1 hw1 found ?_
      rw [bound?, ← hfind, ← h]
      rfl
    | array place length =>
      obtain ⟨hmem, hle, hlt⟩ := find?_mem hfind.symm
      obtain ⟨hdecl, -, hlen⟩ := hw1.registers.binding bank _ hmem
      have hindex : (lane - base) / 4 < (w1.listing.variableAt place).length := by
        simp only [Binding.lanes] at hlt
        omega
      refine (checks_element hdecl hindex).bind ?_
      intro p w2 h₂ hw2 hp
      refine .pure fun found h => answer w2 hw2 found ?_
      have hfind2 : w2.registers.find? bank lane = some (base, .array place length) := by
        rw [hfind, RegisterFile.find?, RegisterFile.find?, RegisterFile.candidate?,
          candidate?, h₂.1.tables]
      rw [bound?, hfind2, ← h, hp.1]
      rfl

/-! ## Shadows -/

theorem checks_groupParts (stop fuel lane : Nat) (hfuel : stop ≤ lane + fuel) :
    Checks .quiet (groupParts bank stop fuel lane) w fun parts w' => ∃ counts,
      List.Forall₂ (fun v n => w'.listing.Has v ⟨.f32, n⟩) parts counts ∧
        counts.sum = stop - lane ∧ stop - lane ≤ fuel := by
  induction fuel generalizing lane w with
  | zero =>
    rw [groupParts]
    exact .pure ⟨[], .nil, by simp; omega, by omega⟩
  | succ fuel ih =>
    rw [groupParts]
    refine .ite (fun hstop => .pure ⟨[], .nil, by simp; omega, by omega⟩) fun hstop => ?_
    have rest {take : Nat} {part : Value} {w1 : Workspace} (htake : 0 < take)
        (hle : take ≤ stop - lane) (hpart : w1.listing.Has part ⟨.f32, take⟩) :
        Checks .quiet (groupParts bank stop fuel (lane + take) >>= fun more => pure (part :: more)) w1
          fun parts w' => ∃ counts,
            List.Forall₂ (fun v n => w'.listing.Has v ⟨.f32, n⟩) parts counts ∧
              counts.sum = stop - lane ∧ stop - lane ≤ fuel + 1 := by
      refine (ih (lane + take) (by omega)).bind ?_
      intro more w2 h₂ _ hmore
      obtain ⟨counts, hcounts, hsum, -⟩ := hmore
      refine .pure ⟨take :: counts, .cons (h₂.1.has hpart) hcounts, ?_, by omega⟩
      rw [sum_cons, hsum]
      omega
    refine (checks_lookup lane).bind ?_
    intro r w1 h₁ _ hr
    cases r with
    | none =>
      refine (checks_constant (.f32 0#32)).bind ?_
      intro part w2 _ _ hpart
      exact rest Nat.one_pos (by omega) hpart
    | some found =>
      obtain ⟨-, hvalid, hoffset⟩ := hr found rfl
      refine (checks_load hvalid.place).bind ?_
      intro v w2 h₂ _ hv
      have hwidth := hvalid.width
      refine .join (Q := fun part w' => w'.listing.Has part
        ⟨.f32, min (found.register.lanes - found.offset) (stop - lane)⟩) (fun hwhole => ?_)
        (fun _ => ?_) fun part w3 _ _ hpart => rest (by omega) (by omega) hpart
      · simp only [Bool.and_eq_true, decide_eq_true_eq] at hwhole
        rw [hwhole.2]
        exact .pure hv
      · have hne : List.range' found.offset (min (found.register.lanes - found.offset) (stop - lane)) ≠
            [] := by
          rw [ne_eq, range'_eq_nil_iff]
          omega
        have := checks_shuffle (P := .quiet) hv hv hne (by rw [length_range']; omega) fun i hi => by
          have := mem_range'_1.1 hi
          omega
        rwa [length_range'] at this

theorem checks_addShadow (hp : place.Valid w.listing Shape.group)
    (hnone : w.registers.shadow? bank group = none) :
    Checks .within (setRegisters (w.registers.addShadow bank group place)) w fun _ w' =>
      (⟨place, 4, group⟩ : Register).Valid w'.listing ∧
        w'.registers.shadow? bank group = some ⟨place, 4, group⟩ := by
  intro hw
  have hnew : (⟨place, 4, group⟩ : Register).Valid w.listing := ⟨hp, by simp, by simp⟩
  refine ⟨fun _ => rfl, ⟨.refl _, rfl, rfl, fun hs => shadow?_addShadow_of_some hnone hs⟩,
    ⟨hw.listing, ?_⟩, hnew, ?_⟩
  · refine ⟨hw.registers.sorted, hw.registers.binding, fun hs => ?_, hw.registers.predicate⟩
    rcases shadow?_addShadow_cases hs with ⟨-, rfl, rfl⟩ | hs
    · exact ⟨hnew, rfl, rfl⟩
    · exact hw.registers.shadow hs
  · exact (w.registers.shadow?_addShadow ..).trans (if_pos ⟨rfl, rfl⟩)

theorem checks_makeShadow (hbank : bank.isShadowed = true) (hgroup : group < 0x100000000)
    (hnone : w.registers.shadow? bank group = none) :
    Checks .within (makeShadow bank group) w fun register w' =>
      register.Valid w'.listing ∧ register.lanes = 4 ∧ register.base = group ∧
        w'.registers.shadow? bank group = some register := by
  rw [makeShadow]
  have hname := Bank.isName_name (Bank.isRegister_of_isShadowed hbank)
  have hlength : (bank.name ++ toString group ++ "_shadow").length ≤ 30 := by
    have := length_numbered bank.length_name hgroup
    have hsuffix : "_shadow".length = 7 := rfl
    rw [String.length_append, hsuffix]
    omega
  refine (checks_declare (x := ⟨bank.name ++ toString group ++ "_shadow", Shape.group, .hidden⟩)
    ⟨Shape.proper_group, isName_append (isName_numbered hname group) rfl⟩
    (Variable.isInner_hidden hlength)).kept.bind ?_
  intro place w1 h₁ _ hplace
  refine .word fun _ => (checks_groupParts (group + 4) 4 group (Nat.le_refl _)).kept.bind ?_
  intro parts w2 h₂ _ hparts
  obtain ⟨hregisters, counts, hparts, hsum, -⟩ := hparts
  have hfour : counts.sum = 4 := by omega
  have hne : parts ≠ [] := by
    rintro rfl
    cases hparts
    cases hfour
  refine (checks_construct hparts hne (Nat.le_of_eq hfour)).kept.bind ?_
  intro seed w3 h3 _ hseed
  have hplace3 : place.Valid w3.listing Shape.group := h3.valid (h₂.valid hplace.2)
  have hseed3 : w3.listing.Has seed Shape.group := by rw [Shape.group, ← hfour]; exact hseed.2
  refine (checks_store hplace3 hseed3).kept.bind ?_
  intro _ w4 h4 _ hstored
  have hnone4 : w4.registers.shadow? bank group = none := by
    rw [hstored.1, hseed.1, hregisters, hplace.1]
    exact hnone
  refine .getRegisters ((checks_addShadow (h4.valid hplace3) hnone4).bind ?_)
  intro _ w5 _ _ hshadow
  exact .pure ⟨hshadow.1, rfl, rfl, hshadow.2⟩

/-! ## Resolving -/

/-- A lane of a register whose place has the shape of the register.  One that is to be written is
known by its first lane. -/
structure Resolved.Typed (w : Workspace) (bank : Bank) (forStore : Bool) (found : Resolved) :
    Prop where
  register : found.register.Valid w.listing
  inside : found.offset < found.register.lanes
  backed : forStore = true → w.registers.Backed bank found.register

theorem Resolved.Typed.of_shadow (hw : w.Sound) {register : Register} {offset : Nat}
    {forStore : Bool} (hoffset : offset < 4) (hbank : bank.isShadowed = true)
    (h : w.registers.shadow? bank group = some register) :
    Resolved.Typed w bank forStore ⟨register, offset⟩ := by
  obtain ⟨hvalid, hlanes, hbase⟩ := hw.registers.shadow h
  refine ⟨hvalid, by rw [hlanes]; exact hoffset, fun _ => ?_⟩
  rw [Backed, if_pos hbank, hbase]
  exact h

theorem checks_shadowLane {offset : Nat} {forStore : Bool} (hoffset : offset < 4)
    (hbank : bank.isShadowed = true) (hgroup : group < 0x100000000)
    (hnone : w.registers.shadow? bank group = none) :
    Checks .within (makeShadow bank group >>= fun register => pure (⟨register, offset⟩ : Resolved)) w
      fun found w' => found.Typed w' bank forStore := by
  refine (checks_makeShadow hbank hgroup hnone).bind ?_
  intro register w1 _ hw1 h
  exact .pure (.of_shadow hw1 hoffset hbank h.2.2.2)

theorem checks_resolve (index : Nat) (sub : Int) (forStore : Bool) :
    Checks .within (resolve bank index sub forStore) w fun found w' =>
      found.Typed w' bank forStore := by
  rw [resolve]
  refine .ite (fun _ => .throw) fun hnumber => .getRegisters (.sound fun hw => ?_)
  have hoffset (lane : Nat) : lane - lane / 4 * 4 < 4 := by omega
  have hgroup : (laneNumber bank index sub).toNat / 4 * 4 < 0x100000000 := by
    simp only [Bool.or_eq_true, decide_eq_true_eq, not_or] at hnumber
    omega
  split
  case h_1 register hfound =>
    obtain ⟨hbank, hfound⟩ := Option.ite_none_right_eq_some.1 hfound
    exact .pure (.of_shadow hw (hoffset _) hbank hfound)
  case h_2 hnone =>
    have hnone (hbank : bank.isShadowed = true) := by
      rw [if_pos hbank] at hnone
      exact hnone
    refine .ite (fun h => ?_) fun h => ?_
    · rw [Bool.and_eq_true] at h
      exact checks_shadowLane (hoffset _) h.1 hgroup (hnone h.1)
    · refine (checks_lookup _).kept.bind ?_
      intro found w1 _ _ hfound
      obtain ⟨hregisters, hfound⟩ := hfound
      cases found with
      | some found =>
        obtain ⟨hbound, hvalid, hinside⟩ := hfound found rfl
        refine .pure ⟨hvalid, hinside, fun hstore => ?_⟩
        have hbank : ¬ bank.isShadowed = true := by
          rw [hstore, Bool.and_true] at h
          exact h
        rw [Backed, if_neg hbank]
        exact ⟨_, found, hbound, rfl⟩
      | none =>
        refine .ite (fun hbank => ?_) fun _ => .throw
        subst hbank
        exact checks_shadowLane (hoffset _) rfl hgroup (by rw [hregisters]; exact hnone rfl)

theorem Quad.index_cases (n : Nat) : n = 0 ∨ n = 1 ∨ n = 2 ∨ ∃ k, n = k + 3 := by
  rcases Nat.lt_or_ge n 3 with h | h
  · omega
  · exact .inr (.inr (.inr ⟨n - 3, by omega⟩))

theorem Quad.get_set_or {α : Type} (q : Quad α) (i j : Nat) (a : α) :
    (q.set i a).get j = a ∨ (q.set i a).get j = q.get j := by
  rcases index_cases i with rfl | rfl | rfl | ⟨k, rfl⟩ <;>
    rcases index_cases j with rfl | rfl | rfl | ⟨k', rfl⟩ <;> simp [set, get]

theorem checks_setPredicate {slot : Nat} (hp : place.Valid w.listing Shape.bool) :
    Checks .within (setRegisters
      { w.registers with predicates := w.registers.predicates.set slot (some place) }) w
      fun _ w' => place.Valid w'.listing Shape.bool := by
  intro hw
  refine ⟨fun _ => rfl, ⟨.refl _, rfl, rfl, fun h => h⟩,
    ⟨hw.listing, hw.registers.sorted, hw.registers.binding, hw.registers.shadow, ?_⟩, hp⟩
  intro s p h
  change (w.registers.predicates.set slot (some place)).get s = some p at h
  rcases Quad.get_set_or w.registers.predicates slot s (some place) with hset | hset
  · rw [hset, Option.some.injEq] at h
    exact h ▸ hp
  · rw [hset] at h
    exact hw.registers.predicate h

theorem checks_predicatePlace (n : Int) :
    Checks .within (predicatePlace n) w fun place w' => place.Valid w'.listing Shape.bool := by
  rw [predicatePlace]
  refine .ite (fun _ => .throw) fun hn => .getRegisters (.sound fun hw => ?_)
  simp only [Bool.or_eq_true, decide_eq_true_eq, not_or] at hn
  split
  case h_1 place hplace => exact .pure (hw.registers.predicate hplace)
  case h_2 =>
    have hlength : ("p" ++ toString n.toNat).length ≤ 18 := length_numbered (by decide) (by omega)
    refine (checks_declare (x := ⟨"p" ++ toString n.toNat, Shape.bool, .hidden⟩)
      ⟨Shape.proper_scalar _, isName_numbered rfl _⟩
      (Variable.isInner_hidden (Nat.le_trans hlength (by decide)))).kept.bind ?_
    intro place w1 _ _ hplace
    rw [← hplace.1]
    exact (checks_setPredicate hplace.2).bind fun _ _ _ _ hp => .pure hp

end Microcode
