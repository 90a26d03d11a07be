import Mathlib.Data.List.Perm.Subperm
import Microcode.Access.Store
import Microcode.Proofs.Division
import Microcode.Proofs.Resolution

/-!
Writes to lanes.

Lanes are written register by register: what a register holds is loaded, its new lanes are put into
it and the whole is stored, where the condition holds.  Registers share no storage, so a write
changes the lanes it names and no other.
-/

namespace Microcode

open Machine Emit Access List RegisterFile

variable {taken : Bool} {writes : List (Nat × Value)} {lane' : Nat} {condition : Option Value}
  {r : RegisterFile} {found' : Resolved}

variable {start : Nat → Nat → Lanes} {w w' : Workspace} {s s' : State} {bank : Bank}

/-! ## One register -/

/-- Whether a write takes place. -/
def Permits (w : Workspace) (s : State) (condition : Option Value) (taken : Bool) : Prop :=
  match condition with
  | none => taken = true
  | some c => ∃ x, Holds w s c .bool [x] ∧ taken = decide (x ≠ 0#32)

theorem Permits.steps (h : Permits w s condition taken) (hw : Live w s)
    (hsteps : Steps start w.listing s w'.listing s') : Permits w' s' condition taken := by
  cases condition with
  | none => exact h
  | some c =>
    obtain ⟨x, hx, ht⟩ := h
    exact ⟨x, hx.steps hw hsteps, ht⟩

theorem computes_guarded {place : Place} {v : Value} {xs : List Lane}
    (hplace : place.Valid w.listing ⟨.f32, xs.length⟩) (hv : Holds w s v .f32 xs)
    (hc : Permits w s condition taken) :
    Computes start (guarded place v condition) w s .f32
      (if taken then xs else (List.range xs.length).map (s.read place).get) := by
  cases condition with
  | none =>
    rw [guarded, show taken = true from hc]
    exact .pure hv
  | some c =>
    rw [guarded]
    obtain ⟨x, hx, rfl⟩ := hc
    refine (computes_load hplace.declared hplace.shape hv.pos hv.width).bind fun old w1 s1 q1 hold => ?_
    refine (computes_select (hx.quiet q1) (hv.quiet q1) hold (by simp)).of_eq ?_
    simp only [decide_eq_true_eq]

/-- The place holds these lanes now, and every other place what it held. -/
structure Overwrites (start : Nat → Nat → Lanes) (place : Place) (lanes : List Lane) (w : Workspace)
    (s : State) (w' : Workspace) (s' : State) : Prop where
  live : Live w s
  steps : Steps start w.listing s w'.listing s'
  registers : w'.registers = w.registers
  increments : w'.increments = w.increments
  memory : s'.memory = s.memory
  read : ∀ i, i < lanes.length → (s'.read place).get i = lanes.getD i 0#32
  others : ∀ {p}, cell p ≠ cell place → s'.read p = s.read p

theorem emits_writeRegister {register : Register} {v : Value} {xs : List Lane}
    {E : Error → Workspace → Prop} (hr : register.Valid w.listing)
    (hlen : xs.length = register.lanes) (hv : Holds w s v .f32 xs)
    (hc : Permits w s condition taken) :
    Emits (.runs start) (writeRegister register v condition) w s
      (fun _ w' s' => Overwrites start register.place
        (if taken then xs else (List.range register.lanes).map (s.read register.place).get)
        w s w' s') E := by
  intro live
  rw [writeRegister]
  have hplace : register.place.Valid w.listing ⟨.f32, xs.length⟩ := hlen ▸ hr.place
  refine Emits.bind (computes_guarded hplace hv hc _).runs (fun u w1 s1 _ h1 => ?_) live
  obtain ⟨q, hu⟩ := h1
  have hplace1 := hr.place.mono q.steps.extension
  refine (emits_store hplace1.declared hu.defined).gives fun _ w2 s2 _ h2 => ?_
  obtain ⟨rfl, rfl⟩ := h2
  rw [← hlen]
  refine ⟨q.live, q.steps.trans (.one (.store _ _ hplace1.declared hu.defined)), q.registers,
    q.increments, q.memory, fun i hi => ?_, fun hne => ?_⟩
  · have hsize := (q.live_after.fits.elements _ hplace1.declared).symm ▸ hplace1.element
    rw [State.read_write_self _ _ rfl hsize, hu.get i hi]
  · rw [State.read_write_of_ne _ _ fun h => hne h.symm, q.read]

/-! ## New lanes of a register -/

theorem eq_range_of_pairwise {xs : List Nat} {n : Nat} (h : xs.Pairwise (· < ·))
    (hlt : ∀ x ∈ xs, x < n) (hlen : xs.length = n) : xs = List.range n := by
  have hnodup : xs.Nodup := h.imp fun hab => Nat.ne_of_lt hab
  have hsub : xs ⊆ List.range n := fun x hx => mem_range.2 (hlt x hx)
  have hperm : xs.Perm (List.range n) :=
    (subperm_of_subset hnodup hsub).perm_of_length_le (by simp [hlen])
  exact hperm.eq_of_pairwise (fun a b _ _ (hab : a < b) hba => absurd hab (Nat.lt_asymm hba)) h
    pairwise_lt_range

section

variable {register : Register} {parts : List (Nat × Value)} {g : Nat → Lane}

theorem computes_construct_parts (hne : parts ≠ []) (hwidth : parts.length ≤ 4)
    (hparts : ∀ p ∈ parts, Holds w s p.2 .f32 [g p.1]) :
    Computes start (construct (parts.map Prod.snd)) w s .f32 (parts.map fun p => g p.1) := by
  have hall : List.Forall₂ (fun v ys => Holds w s v .f32 ys) (parts.map Prod.snd)
      (parts.map fun p => [g p.1]) := by
    rw [forall₂_map_left_iff, forall₂_map_right_iff, forall₂_same]
    exact hparts
  have hflat := flatten_map_singleton parts fun p => g p.1
  refine (computes_construct hall (by simpa using hne) ?_).of_eq hflat
  rw [hflat, length_map]
  exact hwidth

/-- A shuffle takes the new lanes from the second value and the others from the first. -/
theorem computes_shuffle_parts {old written : Value} {lanes : Nat} {f : Nat → Lane}
    (hold : Holds w s old .f32 ((List.range lanes).map f))
    (hwritten : Holds w s written .f32 (parts.map fun p => g p.1)) :
    Computes start (shuffle old written ((List.range lanes).map fun j =>
        match parts.findIdx? fun (index, _) => index = j with
        | some k => lanes + k
        | none => j)) w s .f32
      ((List.range lanes).map fun j => if j ∈ parts.map Prod.fst then g j else f j) := by
  have hpos := hold.pos
  have hwidth := hold.width
  simp only [length_map, length_range] at hpos hwidth
  refine (computes_shuffle hold hwritten (by simpa using hpos) (by simpa using hwidth)
    fun i hi => ?_).of_eq ?_
  · obtain ⟨j, hj, rfl⟩ := mem_map.1 hi
    have hj' := mem_range.1 hj
    simp only [length_map, length_range]
    split
    · rename_i k hk
      have := (findIdx?_eq_some_iff_getElem.1 hk).1
      omega
    · omega
  rw [map_map]
  refine map_congr_left fun j hj => ?_
  have hj' := mem_range.1 hj
  rw [Function.comp_apply]
  split
  · rename_i k hk
    obtain ⟨hklt, hkey, -⟩ := findIdx?_eq_some_iff_getElem.1 hk
    have hkey' : parts[k].1 = j := by simpa using hkey
    rw [if_pos (mem_map.2 ⟨_, getElem_mem hklt, hkey'⟩),
      getD_append_right _ _ _ _ (by simp), length_map, length_range,
      Nat.add_sub_cancel_left, getD_eq_getElem _ _ (by simpa using hklt), getElem_map,
      hkey']
  · rename_i hk
    have hnot : j ∉ parts.map Prod.fst := by
      intro hmem
      obtain ⟨p, hp, rfl⟩ := mem_map.1 hmem
      have := findIdx?_eq_none_iff.1 hk p hp
      simp at this
    rw [if_neg hnot, getD_append _ _ _ _ (by simpa using hj'),
      getD_eq_getElem _ _ (by simpa using hj'), getElem_map, getElem_range]

theorem computes_replaceLanes (hr : register.Valid w.listing) (hne : parts ≠ [])
    (hsorted : parts.Pairwise fun a b => a.1 < b.1) (hin : ∀ p ∈ parts, p.1 < register.lanes)
    (hparts : ∀ p ∈ parts, Holds w s p.2 .f32 [g p.1]) :
    Computes start (replaceLanes register parts) w s .f32
      ((List.range register.lanes).map fun j =>
        if j ∈ parts.map Prod.fst then g j else (s.read register.place).get j) := by
  have hkeys : (parts.map Prod.fst).Pairwise (· < ·) := pairwise_map.2 hsorted
  have hkeysIn : ∀ j ∈ parts.map Prod.fst, j < register.lanes := by
    intro j hj
    obtain ⟨p, hp, rfl⟩ := mem_map.1 hj
    exact hin p hp
  have hcount : parts.length ≤ register.lanes := by
    have hnodup : (parts.map Prod.fst).Nodup := hkeys.imp fun hab => Nat.ne_of_lt hab
    have hsub : parts.map Prod.fst ⊆ List.range register.lanes :=
      fun j hj => mem_range.2 (hkeysIn j hj)
    simpa using (subperm_of_subset hnodup hsub).length_le
  have hwidth : parts.length ≤ 4 := Nat.le_trans hcount hr.width
  rw [replaceLanes]
  by_cases hfull : parts.length = register.lanes
  · rw [if_pos hfull]
    have hrange := eq_range_of_pairwise hkeys hkeysIn (by simpa using hfull)
    refine (computes_construct_parts hne hwidth hparts).of_eq ?_
    rw [hrange, show (parts.map fun p => g p.1) = (parts.map Prod.fst).map g by simp, hrange]
    refine map_congr_left fun j hj => ?_
    rw [if_pos hj]
  rw [if_neg hfull]
  refine (computes_load hr.place.declared hr.place.shape hr.pos hr.width).bind
    fun old w1 s1 q1 hold => ?_
  have hparts1 : ∀ p ∈ parts, Holds w1 s1 p.2 .f32 [g p.1] := fun p hp => (hparts p hp).quiet q1
  match parts, hne, hwidth, hin, hparts1 with
  | [(index, part)], _, _, hin, hparts1 =>
    have hindex : index < register.lanes := hin _ mem_cons_self
    refine (computes_insert hold (hparts1 _ mem_cons_self) (by simpa using hindex)).of_eq ?_
    refine ext_getElem (by simp) fun j hj _ => ?_
    rw [getElem_set, getElem_map, getElem_map, getElem_range]
    by_cases hij : index = j
    · rw [if_pos hij, if_pos (by simp [hij]), hij]
    · rw [if_neg hij, if_neg (by simpa using fun h => hij h.symm)]
  | p :: q :: rest, hne, hwidth, _, hparts1 =>
    exact (computes_construct_parts hne hwidth hparts1).bind fun written w2 s2 q2 hwritten =>
      computes_shuffle_parts (hold.quiet q2) hwritten

end

/-! ## Lanes by register -/

section

variable {l : Listing} {found : Resolved} {v : Value}
  {groups : List (Register × List (Nat × Value))}

theorem mem_addToGroup (hsame : ∀ e ∈ groups, sameRegister l e.1 found.register = true →
      e.1 = found.register)
    {e : Register × List (Nat × Value)} (h : e ∈ addToGroup l found v groups) :
    e ∈ groups ∨ e.1 = found.register ∧ ((∃ parts, (e.1, parts) ∈ groups ∧
      e.2 = parts ++ [(found.offset, v)]) ∨ e.2 = [(found.offset, v)]) := by
  induction groups with
  | nil =>
    rw [addToGroup, mem_singleton] at h
    exact .inr ⟨by rw [h], .inr (by rw [h])⟩
  | cons d rest ih =>
    obtain ⟨register, parts⟩ := d
    rw [addToGroup] at h
    by_cases hr : sameRegister l register found.register = true
    · rw [if_pos hr] at h
      rcases mem_cons.1 h with rfl | h
      · have hreg := hsame _ mem_cons_self hr
        exact .inr ⟨hreg, .inl ⟨parts, mem_cons_self, rfl⟩⟩
      · exact .inl (.tail _ h)
    · rw [if_neg hr] at h
      rcases mem_cons.1 h with rfl | h
      · exact .inl mem_cons_self
      · rcases ih (fun e he => hsame e (.tail _ he)) h with h | ⟨he, ⟨old, hold, hparts⟩ | hparts⟩
        · exact .inl (.tail _ h)
        · exact .inr ⟨he, .inl ⟨old, (.tail _ hold), hparts⟩⟩
        · exact .inr ⟨he, .inr hparts⟩

theorem exists_mem_addToGroup (v : Value) (hsame : ∀ e ∈ groups,
      sameRegister l e.1 found.register = true → e.1 = found.register) :
    ∃ parts, (found.register, parts) ∈ addToGroup l found v groups ∧
      (found.offset, v) ∈ parts := by
  induction groups with
  | nil => exact ⟨_, mem_singleton.2 rfl, mem_singleton.2 rfl⟩
  | cons d rest ih =>
    obtain ⟨register, parts⟩ := d
    rw [addToGroup]
    by_cases hr : sameRegister l register found.register = true
    · have hreg : register = found.register := hsame _ mem_cons_self hr
      rw [if_pos hr, ← hreg]
      exact ⟨_, mem_cons_self, by simp⟩
    · rw [if_neg hr]
      obtain ⟨parts', hmem, hpart⟩ := ih fun e he => hsame e (.tail _ he)
      exact ⟨parts', (.tail _ hmem), hpart⟩

theorem mem_addToGroup_of_mem {register : Register} {parts : List (Nat × Value)} {p : Nat × Value}
    (h : (register, parts) ∈ groups) (hp : p ∈ parts) :
    ∃ parts', (register, parts') ∈ addToGroup l found v groups ∧ p ∈ parts' := by
  induction groups with
  | nil => cases h
  | cons d rest ih =>
    rw [addToGroup]
    by_cases hr : sameRegister l d.1 found.register = true
    · rw [if_pos hr]
      rcases mem_cons.1 h with rfl | h
      · exact ⟨_, mem_cons_self, by simp [hp]⟩
      · exact ⟨_, (.tail _ h), hp⟩
    · rw [if_neg hr]
      rcases mem_cons.1 h with rfl | h
      · exact ⟨_, mem_cons_self, hp⟩
      · obtain ⟨parts', hmem, hpart⟩ := ih h
        exact ⟨parts', (.tail _ hmem), hpart⟩

/-- Groups of lanes with new values: a group has its lanes in ascending order, and together they hold
the writes, each with the register it resolves to. -/
structure Grouped (r : RegisterFile) (bank : Bank) (number : Nat → Int)
    (writes : List (Nat × Value)) (groups : List (Register × List (Nat × Value))) : Prop where
  nonempty : ∀ e ∈ groups, e.2 ≠ []
  sorted : ∀ e ∈ groups, e.2.Pairwise fun a b => a.1 < b.1
  sound : ∀ e ∈ groups, ∀ p ∈ e.2, ∃ n, (n, p.2) ∈ writes ∧
    r.resolved? bank (number n).toNat = some ⟨e.1, p.1⟩
  complete : ∀ p ∈ writes, 0 ≤ number p.1 ∧ ∃ found, ∃ parts,
    r.resolved? bank (number p.1).toNat = some found ∧
      (found.register, parts) ∈ groups ∧ (found.offset, p.2) ∈ parts
  held : bank.isShadowed = true → ∀ p ∈ writes, (r.held? bank (number p.1).toNat).isSome = true

/-- Registers of lanes that were resolved for a write are known by their first lanes. -/
theorem RegisterFile.WellFormed.register_of_base (hr : r.WellFormed l) {lane : Nat}
    (hf : r.resolved? bank lane = some found) (hf' : r.resolved? bank lane' = some found')
    (hheld : bank.isShadowed = true →
      (r.held? bank lane).isSome = true ∧ (r.held? bank lane').isSome = true)
    (hbase : found.register.base = found'.register.base) : found.register = found'.register := by
  rw [resolved?] at hf hf'
  by_cases hb : bank.isShadowed = true
  · obtain ⟨a, ha⟩ := Option.isSome_iff_exists.1 (hheld hb).1
    obtain ⟨b, hb⟩ := Option.isSome_iff_exists.1 (hheld hb).2
    rw [ha, Option.some_or, Option.some.injEq] at hf
    rw [hb, Option.some_or, Option.some.injEq] at hf'
    subst hf hf'
    obtain ⟨hs, -, hg, -⟩ := hr.held?_eq_some ha
    obtain ⟨hs', -, hg', -⟩ := hr.held?_eq_some hb
    rw [← hg, hbase, hg', hs'] at hs
    exact (Option.some.inj hs).symm
  · rw [held?, if_neg hb, Option.none_or] at hf hf'
    have hrun := hr.bound?_run hf (Nat.le_refl _) (Nat.lt_add_of_pos_right (hr.bound hf).pos)
    have hrun' := hr.bound?_run hf' (Nat.le_refl _) (Nat.lt_add_of_pos_right (hr.bound hf').pos)
    rw [hbase, hrun'] at hrun
    exact (Resolved.mk.inj (Option.some.inj hrun)).1.symm

/-- No two registers of a bank are the same to a target. -/
theorem Grouped.same {m : Listing} {number : Nat → Int} {lane : Nat}
    (h : Grouped r bank number writes groups) (hr : r.WellFormed m)
    (hfound : r.resolved? bank lane = some found)
    (hheld : bank.isShadowed = true → (r.held? bank lane).isSome = true) :
    ∀ e ∈ groups, sameRegister l e.1 found.register = true → e.1 = found.register := by
  intro e he hs
  obtain ⟨p, hp⟩ := exists_mem_of_ne_nil _ (h.nonempty e he)
  obtain ⟨n, hn, hres⟩ := h.sound e he p hp
  have hbase : e.1.base = found.register.base := by
    simp only [sameRegister, Bool.and_eq_true, decide_eq_true_eq] at hs
    exact hs.1.2
  exact hr.register_of_base hres hfound (fun hb => ⟨h.held hb _ hn, hheld hb⟩) hbase

theorem Grouped.add {m : Listing} {number : Nat → Int} {n : Nat}
    (h : Grouped r bank number writes groups) (hr : r.WellFormed m) (hnonneg : 0 ≤ number n)
    (hfound : r.resolved? bank (number n).toNat = some found)
    (hheld : bank.isShadowed = true → (r.held? bank (number n).toNat).isSome = true)
    (hafter : ∀ p ∈ writes, number p.1 < number n) :
    Grouped r bank number (writes ++ [(n, v)]) (addToGroup l found v groups) where
  nonempty e he := by
    rcases mem_addToGroup (h.same hr hfound hheld) he with hold | ⟨-, ⟨parts, -, hparts⟩ | hparts⟩
    · exact h.nonempty e hold
    · rw [hparts]; simp
    · rw [hparts]; simp
  sorted e he := by
    rcases mem_addToGroup (h.same hr hfound hheld) he with hold | ⟨hreg, ⟨parts, hmem, hparts⟩ | hparts⟩
    · exact h.sorted e hold
    · rw [hparts, pairwise_append]
      refine ⟨h.sorted _ hmem, pairwise_singleton _ _, fun p hp q hq => ?_⟩
      rw [mem_singleton.1 hq]
      obtain ⟨m, hm, hres⟩ := h.sound _ hmem p hp
      -- Lanes of one register are in the order of their numbers.
      have hcov := (hr.resolved?_covers hres).1
      have hcov' := (hr.resolved?_covers hfound).1
      have hlt := hafter _ hm
      have hm0 := (h.complete _ hm).1
      simp only [hreg] at hcov hlt hm0 ⊢
      omega
    · rw [hparts]
      exact pairwise_singleton _ _
  sound e he p hp := by
    rcases mem_addToGroup (h.same hr hfound hheld) he with hold | ⟨hreg, ⟨parts, hmem, hparts⟩ | hparts⟩
    · obtain ⟨m, hm, hres⟩ := h.sound e hold p hp
      exact ⟨m, mem_append_left _ hm, hres⟩
    · rw [hparts] at hp
      rcases mem_append.1 hp with hp | hp
      · obtain ⟨m, hm, hres⟩ := h.sound _ hmem p hp
        exact ⟨m, mem_append_left _ hm, hres⟩
      · rw [mem_singleton.1 hp, hreg]
        exact ⟨n, by simp, hfound⟩
    · rw [hparts] at hp
      rw [mem_singleton.1 hp, hreg]
      exact ⟨n, by simp, hfound⟩
  complete p hp := by
    rcases mem_append.1 hp with hp | hp
    · obtain ⟨hp0, old, parts, hres, hmem, hpart⟩ := h.complete p hp
      obtain ⟨parts', hmem', hpart'⟩ := mem_addToGroup_of_mem (l := l) hmem hpart
      exact ⟨hp0, old, parts', hres, hmem', hpart'⟩
    · obtain ⟨parts, hmem, hpart⟩ := exists_mem_addToGroup v (h.same hr hfound hheld)
      rw [mem_singleton.1 hp]
      exact ⟨hnonneg, found, parts, hfound, hmem, hpart⟩
  held hb p hp := by
    rcases mem_append.1 hp with hp | hp
    · exact h.held hb p hp
    · rw [mem_singleton.1 hp]
      exact hheld hb

/-- Lanes that were resolved for a write stay where they are. -/
theorem Advances.resolved? (h : Advances start w s w' s') {lane : Nat}
    (hheld : bank.isShadowed = true → (w.registers.held? bank lane).isSome = true) :
    w'.registers.resolved? bank lane = w.registers.resolved? bank lane := by
  rw [RegisterFile.resolved?, RegisterFile.resolved?, h.bound?]
  by_cases hb : bank.isShadowed = true
  · obtain ⟨found, hf⟩ := Option.isSome_iff_exists.1 (hheld hb)
    rw [hf, h.held? hf]
  · rw [RegisterFile.held?, RegisterFile.held?, if_neg hb, if_neg hb]

theorem Grouped.advances {number : Nat → Int} (h : Grouped w.registers bank number writes groups)
    (k : Advances start w s w' s') : Grouped w'.registers bank number writes groups where
  nonempty := h.nonempty
  sorted := h.sorted
  sound e he p hp := by
    obtain ⟨n, hn, hres⟩ := h.sound e he p hp
    exact ⟨n, hn, (k.resolved? fun hb => h.held hb _ hn).trans hres⟩
  complete p hp := by
    obtain ⟨hp0, found, parts, hres, hmem, hpart⟩ := h.complete p hp
    exact ⟨hp0, found, parts, (k.resolved? fun hb => h.held hb p hp).trans hres, hmem, hpart⟩
  held hb p hp := by
    obtain ⟨found, hf⟩ := Option.isSome_iff_exists.1 (h.held hb p hp)
    rw [k.held? hf]
    rfl

theorem emits_groupLanes_from (num : Nat) (sub : Int) (done rest : List (Nat × Value))
    (hsorted : (done ++ rest).Pairwise fun a b => a.1 < b.1)
    (hdone : Grouped w.registers bank (fun n => laneNumber bank num (sub + n)) done groups) :
    Emits (.keeps start) (rest.foldlM
        (fun groups (lane, v) => do
          let found ← resolve bank num (← offset (sub + lane)) true
          return addToGroup (← get).listing found v groups) groups) w s
      (fun groups w' _ => Grouped w'.registers bank (fun n => laneNumber bank num (sub + n))
        (done ++ rest) groups)
      (fun _ _ => ∃ p ∈ rest, ¬ (-0x80000000 ≤ sub + p.1 ∧ sub + p.1 < 0x80000000) ∨
        ¬ w.registers.Reaches bank (laneNumber bank num (sub + p.1)) true) := by
  induction rest generalizing w s done groups with
  | nil =>
    rw [append_nil]
    exact .pure hdone
  | cons p rest ih =>
    obtain ⟨n, v⟩ := p
    rw [foldlM_cons]
    refine Emits.bind (P := fun groups w' _ => Grouped w'.registers bank
      (fun n => laneNumber bank num (sub + n)) (done ++ [(n, v)]) groups) ?_ ?_
    · refine Emits.offset (fun h => ⟨_, mem_cons_self, .inl h⟩) fun _ => ?_
      refine ((emits_resolve num (sub + n) true).fails fun e w' he =>
        ⟨_, mem_cons_self, .inr he.unreached⟩).bind fun found w1 s1 k1 h1 =>
        Emits.get (.pure ?_)
      refine (hdone.advances k1.toAdvances).add k1.good'.registers h1.reached.1 h1.resolved
        (fun hb => by rw [h1.held rfl hb]; rfl) fun p hp => ?_
      have := (pairwise_append.1 hsorted).2.2 p hp (n, v) mem_cons_self
      simp only [laneNumber] at this ⊢
      omega
    · intro groups1 w1 s1 k1 h1
      have hassoc : done ++ (n, v) :: rest = done ++ [(n, v)] ++ rest := by simp
      rw [hassoc] at hsorted ⊢
      refine (ih _ hsorted h1).fails fun e w' he => ?_
      obtain ⟨p, hp, hwhy⟩ := he
      refine ⟨p, (.tail _ hp), hwhy.imp_right fun h hr => h (k1.reaches hr)⟩

theorem emits_groupLanes (num : Nat) (sub : Int) (hsorted : writes.Pairwise fun a b => a.1 < b.1) :
    Emits (.keeps start) (groupLanes bank num sub writes) w s
      (fun groups w' _ => Grouped w'.registers bank (fun n => laneNumber bank num (sub + n)) writes
        groups)
      (fun _ _ => ∃ p ∈ writes, ¬ (-0x80000000 ≤ sub + p.1 ∧ sub + p.1 < 0x80000000) ∨
        ¬ w.registers.Reaches bank (laneNumber bank num (sub + p.1)) true) :=
  emits_groupLanes_from num sub [] writes hsorted
    ⟨by simp, by simp, by simp, by simp, by simp⟩

end

/-! ## Writes -/

/-- Lanes may change, but neither predicates nor memory do. -/
structure Alters (start : Nat → Nat → Lanes) (w : Workspace) (s : State) (w' : Workspace)
    (s' : State) : Prop extends Advances start w s w' s' where
  separated : w.registers.Separate
  predicateAt : ∀ {slot x}, slot < 4 → w.registers.predicateAt s slot = some x →
    w'.registers.predicateAt s' slot = some x

/-- Writes start where registers share no storage. -/
def Frame.alters (start : Nat → Nat → Lanes) : Frame where
  Admits w s := Good w s ∧ w.registers.Separate
  Rel := Alters start
  refl h := ⟨.refl h.1, h.2, fun _ h => h⟩
  trans h h' := ⟨h.toAdvances.trans h'.toAdvances, h.separated,
    fun hslot hx => h'.predicateAt hslot (h.predicateAt hslot hx)⟩
  admits h := ⟨h.good', h.separate h.separated⟩

theorem Emits.alters {α : Type} {x : Emit α} {Q : α → Workspace → State → Prop}
    {E : Error → Workspace → Prop} (h : Emits (.keeps start) x w s Q E) :
    Emits (.alters start) x w s (fun a w' s' => Keeps start w s w' s' ∧ Q a w' s') E :=
  h.rel.within And.left fun _ _ hw k => ⟨Keeps.toAdvances k, hw.2, fun hslot hx => Keeps.predicateAt k hslot hx⟩

theorem RegisterFile.WellFormed.same_register {l : Listing} {bank' : Bank} {lane : Nat}
    {found : Resolved} (h : r.WellFormed l) (hs : r.Separate)
    (hf : r.resolved? bank lane = some found) (hf' : r.resolved? bank' lane' = some found')
    (hcell : cell found.register.place = cell found'.register.place) :
    bank = bank' ∧ found.register = found'.register := by
  rcases h.resolved?_cases hf with ⟨hheld, hb⟩ | ⟨-, -, hb⟩ <;>
    rcases h.resolved?_cases hf' with ⟨hheld', hb'⟩ | ⟨-, -, hb'⟩
  · obtain ⟨hbank, hgroup⟩ := Owner.shadow.inj (hs _ _ _ _ hb hb' hcell)
    subst hbank
    have hshadow := (h.held?_eq_some hheld).1
    rw [hgroup, (h.held?_eq_some hheld').1] at hshadow
    exact ⟨rfl, (Option.some.inj hshadow).symm⟩
  · exact absurd (hs _ _ _ _ hb hb' hcell) (by simp)
  · exact absurd (hs _ _ _ _ hb hb' hcell) (by simp)
  · exact Owner.bound.inj (hs _ _ _ _ hb hb' hcell)

namespace Overwrites

variable {lane : Nat} {found : Resolved} {lanes : List Lane}

theorem alters (h : Overwrites start found.register.place lanes w s w' s') (good : Good w s)
    (hs : w.registers.Separate) (hf : w.registers.resolved? bank lane = some found) :
    Alters start w s w' s' := by
  have hl := h.steps.extension
  refine ⟨⟨good, ⟨h.live.steps h.steps, ?_⟩, h.steps, h.increments, h.memory, ?_, ?_, ?_, ?_⟩, hs, ?_⟩
  · rw [h.registers]
    exact good.registers.mono hl
  · rw [h.registers]
  · intro bank group register hshadow
    rw [h.registers]
    exact hshadow
  · intro slot place _ hp
    rw [h.registers]
    exact hp
  · rw [h.registers]
    exact fun hs => hs
  · intro slot x hslot hx
    rw [predicateAt] at hx ⊢
    rw [h.registers]
    obtain ⟨place, hp, rfl⟩ := Option.map_eq_some_iff.1 hx
    rw [hp, Option.map_some, h.others fun hcell => ?_]
    rcases good.registers.resolved?_cases hf with ⟨-, hb⟩ | ⟨-, -, hb⟩
    · exact absurd (hs _ _ _ _ (.predicate hslot hp) hb hcell) (by simp)
    · exact absurd (hs _ _ _ _ (.predicate hslot hp) hb hcell) (by simp)

/-- A lane of the register has its new contents, and every other lane what it had. -/
theorem content (h : Overwrites start found.register.place lanes w s w' s') (good : Good w s)
    (hs : w.registers.Separate) (hf : w.registers.resolved? bank lane = some found)
    (hlen : lanes.length = found.register.lanes) {bank' : Bank}
    (hf' : w.registers.resolved? bank' lane' = some found') :
    found'.content s' = if bank' = bank ∧ found'.register = found.register then
      lanes.getD found'.offset 0#32 else found'.content s := by
  by_cases hsame : bank' = bank ∧ found'.register = found.register
  · rw [if_pos hsame, Resolved.content, hsame.2]
    refine h.read _ ?_
    rw [hlen, ← hsame.2]
    exact (good.registers.resolved?_covers hf').2.1
  · rw [if_neg hsame, Resolved.content, h.others fun hcell => hsame ?_]
    · rfl
    · exact good.registers.same_register hs hf' hf hcell

end Overwrites

/-- Those lanes of the bank that `new` holds of are what `g` gives for them now, and all others what
they were. -/
structure Replaces (w : Workspace) (s : State) (w' : Workspace) (s' : State) (bank : Bank)
    (new : Resolved → Prop) (g : Nat → Lane) : Prop where
  registers : w'.registers = w.registers
  replaced : ∀ {lane found}, w.registers.resolved? bank lane = some found → new found →
    found.content s' = g lane
  kept : ∀ {bank' lane found}, w.registers.resolved? bank' lane = some found →
    (bank' = bank → ¬ new found) → found.content s' = found.content s

namespace Replaces

variable {new new' : Resolved → Prop} {g : Nat → Lane} {w1 : Workspace} {s1 : State}

theorem after_quiet (h : Replaces w1 s1 w' s' bank new g) (q : Quiet start w s w1 s1) :
    Replaces w s w' s' bank new g where
  registers := h.registers.trans q.registers
  replaced hf hnew := h.replaced (q.registers ▸ hf) hnew
  kept hf hnew := by
    rw [h.kept (q.registers ▸ hf) hnew, Resolved.content, Resolved.content, q.read]

theorem trans (h : Replaces w s w1 s1 bank new g) (h' : Replaces w1 s1 w' s' bank new' g) :
    Replaces w s w' s' bank (fun found => new found ∨ new' found) g where
  registers := h'.registers.trans h.registers
  replaced {lane found} hf hnew := by
    have hf' : w1.registers.resolved? bank lane = some found := h.registers ▸ hf
    by_cases hnew' : new' found
    · exact h'.replaced hf' hnew'
    · rw [h'.kept hf' fun _ => hnew', h.replaced hf (hnew.resolve_right hnew')]
  kept {bank' lane found} hf hnew := by
    have hf' : w1.registers.resolved? bank' lane = some found := h.registers ▸ hf
    rw [h'.kept hf' fun hb h => hnew hb (.inr h), h.kept hf fun hb h => hnew hb (.inl h)]

end Replaces

/-- A register is stored with some of its lanes replaced. -/
theorem emits_replaceRegister (new : Nat → Prop) [DecidablePred new] {lane : Nat} {found : Resolved}
    {v : Value} {g : Nat → Lane} {E : Error → Workspace → Prop}
    (hf : w.registers.resolved? bank lane = some found)
    (hv : Holds w s v .f32 ((List.range found.register.lanes).map fun j =>
      if new j then g (found.register.base + j) else (s.read found.register.place).get j))
    (hc : Permits w s condition taken) :
    Emits (.alters start) (writeRegister found.register v condition) w s
      (fun _ w' s' => Replaces w s w' s' bank (fun other => taken = true ∧
        other.register = found.register ∧ new other.offset) g) E := by
  refine .of_frame (G := .runs start) (fun admits => admits.1.live) fun admits => ?_
  obtain ⟨good, hs⟩ := admits
  have hvalid := (good.registers.resolved?_covers hf).2.2
  refine (emits_writeRegister hvalid (by simp) hv hc).gives fun _ w' s' _ h => ?_
  have hcontent {bank' : Bank} {lane' : Nat} {other : Resolved}
      (hf' : w.registers.resolved? bank' lane' = some other) :=
    h.content good hs hf (by split <;> simp) hf'
  refine ⟨h.alters good hs hf, h.registers, fun {lane' other} hf' hnew => ?_,
    fun {bank' lane' other} hf' hnew => ?_⟩
  · obtain ⟨htaken, hreg, hoff⟩ := hnew
    obtain ⟨hcov, hlt, -⟩ := good.registers.resolved?_covers hf'
    rw [hreg] at hcov hlt
    rw [hcontent hf', if_pos ⟨rfl, hreg⟩, if_pos htaken, getD_eq_getElem _ _ (by simpa using hlt),
      getElem_map, getElem_range, if_pos hoff, hcov]
  · rw [hcontent hf']
    by_cases hsame : bank' = bank ∧ other.register = found.register
    · have hlt := (good.registers.resolved?_covers hf').2.1
      rw [hsame.2] at hlt
      rw [if_pos hsame, Resolved.content, hsame.2]
      cases taken with
      | true =>
        rw [if_pos rfl, getD_eq_getElem _ _ (by simpa using hlt), getElem_map, getElem_range,
          if_neg fun hoff => hnew hsame.1 ⟨rfl, hsame.2, hoff⟩]
      | false =>
        rw [if_neg Bool.false_ne_true, getD_eq_getElem _ _ (by simpa using hlt), getElem_map,
          getElem_range]
    · rw [if_neg hsame]

/-- A group of new lanes for a register of the bank: its parts are in ascending order, and the part
for a lane of the bank is what `g` gives for the lane. -/
structure Group (w : Workspace) (s : State) (bank : Bank) (g : Nat → Lane)
    (e : Register × List (Nat × Value)) : Prop where
  register : ∃ lane found, w.registers.resolved? bank lane = some found ∧ found.register = e.1
  nonempty : e.2 ≠ []
  sorted : e.2.Pairwise fun a b => a.1 < b.1
  inside : ∀ p ∈ e.2, p.1 < e.1.lanes
  parts : ∀ p ∈ e.2, Holds w s p.2 .f32 [g (e.1.base + p.1)]

theorem emits_writeGroup {g : Nat → Lane} {E : Error → Workspace → Prop}
    {e : Register × List (Nat × Value)} (h : Group w s bank g e)
    (hc : Permits w s condition taken) :
    Emits (.alters start) (replaceLanes e.1 e.2 >>= fun v => writeRegister e.1 v condition) w s
      (fun _ w' s' => Replaces w s w' s' bank (fun found => taken = true ∧ found.register = e.1 ∧
        found.offset ∈ e.2.map Prod.fst) g) E := by
  obtain ⟨register, parts⟩ := e
  obtain ⟨lane, found, hf, hreg⟩ := h.register
  simp only at hreg ⊢
  subst hreg
  intro admits
  have hvalid := (admits.1.registers.resolved?_covers hf).2.2
  refine Emits.bind (computes_replaceLanes (g := fun j => g (found.register.base + j)) hvalid
    h.nonempty h.sorted h.inside h.parts _).rel.keeps.alters (fun v w1 s1 _ h1 => ?_) admits
  obtain ⟨-, q1, hv⟩ := h1
  rw [← q1.read] at hv
  exact (emits_replaceRegister (· ∈ parts.map Prod.fst) (q1.registers ▸ hf) hv
    (hc.steps q1.live q1.steps)).gives fun _ _ _ _ h2 => h2.after_quiet q1

theorem emits_writeGroups {g : Nat → Lane} {E : Error → Workspace → Prop}
    (groups : List (Register × List (Nat × Value))) (hgroups : ∀ e ∈ groups, Group w s bank g e)
    (hc : Permits w s condition taken) :
    Emits (.alters start) (groups.forM fun (register, lanes) => do
        writeRegister register (← replaceLanes register lanes) condition) w s
      (fun _ w' s' => Replaces w s w' s' bank (fun found => taken = true ∧ ∃ e ∈ groups,
        found.register = e.1 ∧ found.offset ∈ e.2.map Prod.fst) g) E := by
  induction groups generalizing w s with
  | nil => exact .pure ⟨rfl, fun _ h => by simp at h, fun _ _ => rfl⟩
  | cons e rest ih =>
    refine (emits_writeGroup (hgroups e mem_cons_self) hc).bind
      fun _ w1 s1 k1 h1 => ?_
    have hgroups1 : ∀ d ∈ rest, Group w1 s1 bank g d := by
      intro d hd
      have hgroup := hgroups d (.tail _ hd)
      refine ⟨?_, hgroup.nonempty, hgroup.sorted, hgroup.inside,
        fun p hp => (hgroup.parts p hp).advances k1.toAdvances⟩
      rw [h1.registers]
      exact hgroup.register
    refine (ih hgroups1 (hc.steps k1.good.live k1.steps)).gives fun _ w2 s2 _ h2 => ?_
    simpa only [mem_cons, exists_eq_or_imp, and_or_left] using h1.trans h2

/-- Lanes of the bank that `news` names have its lanes now, and all others what they had. -/
structure Writes (w : Workspace) (s : State) (w' : Workspace) (s' : State) (bank : Bank)
    (news : Nat → Option Lane) : Prop where
  written : ∀ {lane x}, news lane = some x → w'.registers.laneAt s' bank lane = some x
  held : bank.isShadowed = true → ∀ {lane x}, news lane = some x →
    (w'.registers.held? bank lane).isSome = true
  kept : ∀ {bank' lane x}, (bank' = bank → news lane = none) →
    w.registers.laneAt s bank' lane = some x → w'.registers.laneAt s' bank' lane = some x
  shown : ∀ {bank' lane}, (bank' = bank → news lane = none) →
    w'.registers.shown s' bank' lane = w.registers.shown s bank' lane

theorem Writes.after_keeps {news : Nat → Option Lane} {w1 : Workspace} {s1 : State}
    (h : Writes w1 s1 w' s' bank news) (k : Keeps start w s w1 s1) : Writes w s w' s' bank news :=
  ⟨h.written, h.held, fun hnone hx => h.kept hnone (k.lanes hx),
    fun hnone => (h.shown hnone).trans (k.shown _ _)⟩

/-- A write in place: it finds all lanes where they were. -/
theorem Writes.of_replaces {new : Resolved → Prop} {g : Nat → Lane} {news : Nat → Option Lane}
    (h : Replaces w s w' s' bank new g)
    (hwritten : ∀ lane x, news lane = some x → ∃ found,
      w.registers.resolved? bank lane = some found ∧ new found ∧ g lane = x ∧
        (bank.isShadowed = true → (w.registers.held? bank lane).isSome = true))
    (hnews : ∀ lane found, w.registers.resolved? bank lane = some found → new found →
      news lane ≠ none) :
    Writes w s w' s' bank news := by
  have hlanes (bank' : Bank) (lane : Nat) (hnone : bank' = bank → news lane = none) :
      w'.registers.laneAt s' bank' lane = w.registers.laneAt s bank' lane := by
    rw [laneAt, laneAt, h.registers]
    cases hres : w.registers.resolved? bank' lane with
    | none => rfl
    | some found =>
      refine congrArg some (h.kept hres fun hb hnew => ?_)
      subst hb
      exact hnews lane found hres hnew (hnone rfl)
  refine ⟨fun {lane x} hx => ?_, fun hb lane x hx => ?_,
    fun {bank' lane x} hnone hx => (hlanes bank' lane hnone).trans hx,
    fun {bank' lane} hnone => congrArg (·.getD 0#32) (hlanes bank' lane hnone)⟩
  · obtain ⟨found, hres, hnew, rfl, -⟩ := hwritten lane x hx
    rw [laneAt, h.registers, hres]
    exact congrArg some (h.replaced hres hnew)
  · obtain ⟨found, -, -, -, hheld⟩ := hwritten lane x hx
    rw [h.registers]
    exact hheld hb

/-- There is storage at the lane with this number. -/
def RegisterFile.BacksAt (r : RegisterFile) (bank : Bank) (number : Int) : Prop :=
  0 ≤ number ∧ (r.resolved? bank number.toNat).isSome = true

/-- Resolution of one of the lanes that are written fails. -/
def Unwritable (r : RegisterFile) (bank : Bank) (num : Nat) (sub : Int) (lanes : List Nat) : Prop :=
  ∃ n ∈ lanes, ¬ (-0x80000000 ≤ sub + n ∧ sub + n < 0x80000000) ∨
    ¬ r.Reaches bank (laneNumber bank num (sub + n)) true

/-- The new lanes of a bank, if lane `n` counted from an operand becomes `g n`. -/
def newLanes (bank : Bank) (num : Nat) (sub : Int) (lanes : List Nat) (g : Nat → Lane) (lane : Nat) :
    Option Lane :=
  (lanes.find? fun n => laneNumber bank num (sub + (n : Nat)) = lane).map g

theorem newLanes_eq_some {num : Nat} {sub : Int} {lanes : List Nat} {g : Nat → Lane} {lane : Nat}
    {x : Lane} : newLanes bank num sub lanes g lane = some x ↔
      ∃ n ∈ lanes, laneNumber bank num (sub + (n : Nat)) = lane ∧ g n = x := by
  rw [newLanes, Option.map_eq_some_iff]
  constructor
  · rintro ⟨n, hn, rfl⟩
    exact ⟨n, mem_of_find?_eq_some hn, by simpa using find?_some hn, rfl⟩
  · rintro ⟨n, hn, hnumber, rfl⟩
    cases hfind : lanes.find? fun n => laneNumber bank num (sub + (n : Nat)) = lane with
    | none => exact absurd hnumber (by simpa using find?_eq_none.1 hfind n hn)
    | some m =>
      have hm : laneNumber bank num (sub + (m : Nat)) = lane := by
        simpa using find?_some hfind
      simp only [laneNumber] at hnumber hm
      exact ⟨m, rfl, congrArg g (by omega)⟩

theorem newLanes_taken {num : Nat} {sub : Int} {lanes : List Nat} {g : Nat → Lane} {lane : Nat}
    {x : Lane} : (if taken = true then newLanes bank num sub lanes g lane else none) = some x ↔
      taken = true ∧ ∃ n ∈ lanes, laneNumber bank num (sub + (n : Nat)) = lane ∧ g n = x := by
  cases taken with
  | false => simp
  | true => simp only [if_true, newLanes_eq_some, true_and]

theorem newLanes_ne_none {num : Nat} {sub : Int} {lanes : List Nat} (g : Nat → Lane) {lane n : Nat}
    (ht : taken = true) (hn : n ∈ lanes) (hlane : laneNumber bank num (sub + (n : Nat)) = lane) :
    (if taken = true then newLanes bank num sub lanes g lane else none) ≠ none :=
  Option.ne_none_iff_exists'.2 ⟨g n, newLanes_taken.2 ⟨ht, n, hn, hlane, rfl⟩⟩

theorem emits_writeLanes (num : Nat) (sub : Int) (hsorted : writes.Pairwise fun a b => a.1 < b.1)
    {g : Nat → Lane} (hwrites : ∀ p ∈ writes, Holds w s p.2 .f32 [g p.1])
    (hc : Permits w s condition taken) :
    Emits (.alters start) (writeLanes bank num sub writes condition) w s
      (fun _ w' s' => Writes w s w' s' bank (fun lane =>
          if taken = true then newLanes bank num sub (writes.map Prod.fst) g lane else none) ∧
        ∀ n ∈ writes.map Prod.fst, w'.registers.BacksAt bank (laneNumber bank num (sub + (n : Nat))))
      (fun _ _ => Unwritable w.registers bank num sub (writes.map Prod.fst)) := by
  rw [writeLanes]
  refine ((emits_groupLanes num sub hsorted).fails fun e w' he => ?_).alters.bind
    fun groups w1 s1 _ h1 => ?_
  · obtain ⟨p, hp, hwhy⟩ := he
    exact ⟨p.1, mem_map.2 ⟨p, hp, rfl⟩, hwhy⟩
  obtain ⟨k1, hgrouped⟩ := h1
  obtain ⟨first, hfirst⟩ : ∃ n, n = laneNumber bank num sub := ⟨_, rfl⟩
  have hnumber : ∀ n : Nat, laneNumber bank num (sub + n) = first + n := by
    intro n
    rw [hfirst, laneNumber_add]
  simp only [hnumber] at hgrouped
  have hgroups : ∀ e ∈ groups, Group w1 s1 bank (fun lane => g (lane - first).toNat) e := by
    intro e he
    have hpart := hgrouped.sound e he
    refine ⟨?_, hgrouped.nonempty e he, hgrouped.sorted e he, fun p hp => ?_, fun p hp => ?_⟩
    · obtain ⟨p, hp⟩ := exists_mem_of_ne_nil _ (hgrouped.nonempty e he)
      obtain ⟨n, -, hres⟩ := hpart p hp
      exact ⟨_, _, hres, rfl⟩
    · obtain ⟨n, -, hres⟩ := hpart p hp
      exact (k1.good'.registers.resolved?_covers hres).2.1
    · obtain ⟨n, hn, hres⟩ := hpart p hp
      have hn0 := (hgrouped.complete _ hn).1
      have hcov := (k1.good'.registers.resolved?_covers hres).1
      simp only at hn0 hcov
      have hrelative : (((e.1.base + p.1 : Nat) : Int) - first).toNat = n := by omega
      simp only [hrelative]
      exact (hwrites _ hn).advances k1.toAdvances
  refine (emits_writeGroups groups hgroups (hc.steps k1.good.live k1.steps)).gives
    fun _ w2 s2 _ h2 => ?_
  refine ⟨Writes.after_keeps (?_ : Writes w1 s1 w2 s2 bank _) k1, fun n hn => ?_⟩
  rotate_left
  · obtain ⟨p, hp, rfl⟩ := mem_map.1 hn
    obtain ⟨hnonneg, found, _, hres, -⟩ := hgrouped.complete p hp
    rw [hnumber]
    exact ⟨hnonneg, by rw [h2.registers, hres]; rfl⟩
  refine .of_replaces h2 (fun lane x hx => ?_) fun lane found hres hnew => ?_
  · obtain ⟨htaken, n, hn, hlane, rfl⟩ := newLanes_taken.1 hx
    obtain ⟨p, hp, rfl⟩ := mem_map.1 hn
    rw [hnumber] at hlane
    obtain ⟨-, found, parts, hres, hmem, hpart⟩ := hgrouped.complete p hp
    have hheld : bank.isShadowed = true → _ := fun hb => hgrouped.held hb p hp
    rw [hlane, Int.toNat_natCast] at hres hheld
    refine ⟨found, hres, ⟨htaken, _, hmem, rfl, mem_map.2 ⟨_, hpart, rfl⟩⟩, ?_, hheld⟩
    rw [show ((lane : Int) - first).toNat = p.1 by omega]
  · obtain ⟨htaken, e, he, hreg, hoff⟩ := hnew
    obtain ⟨p, hp, hpoff⟩ := mem_map.1 hoff
    obtain ⟨n, hn, hres'⟩ := hgrouped.sound e he p hp
    have hn0 := (hgrouped.complete _ hn).1
    have hcov := (k1.good'.registers.resolved?_covers hres).1
    have hcov' := (k1.good'.registers.resolved?_covers hres').1
    simp only at hn0
    simp only [← hreg, hpoff] at hcov'
    exact newLanes_ne_none g htaken (mem_map.2 ⟨_, hn, rfl⟩) (by rw [hnumber]; omega)

end Microcode
