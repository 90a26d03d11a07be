import Mathlib.Data.List.Pairwise
import Microcode.Proofs.Footprints
import Microcode.Proofs.TypedResolution

/-!
Tables of lanes.

Runs of lanes that share no lane are bound in any order, and register files are declared after them
by probing the same tables.  A new group is put only where the table finds nothing, and the table
finds a run by the nearest start at or before a lane; so each of the two is right because the other
one is.
-/

namespace Microcode

open Emit List RegisterFile

namespace OrderedMap

variable {α : Type}

theorem mem_insertList_self (key : Nat) (a : α) (es : List (Nat × α)) :
    (key, a) ∈ insertList key a es := by
  induction es with
  | nil => exact mem_cons_self
  | cons c rest ih =>
    rw [insertList]
    by_cases hlt : key < c.1
    · rw [if_pos hlt]
      exact mem_cons_self
    · rw [if_neg hlt]
      by_cases heq : key = c.1
      · rw [if_pos heq]
        exact mem_cons_self
      · rw [if_neg heq]
        exact mem_cons_of_mem _ ih

theorem mem_insertList_of_ne {key : Nat} {a : α} {es : List (Nat × α)} {d : Nat × α} (hd : d ∈ es)
    (hne : d.1 ≠ key) : d ∈ insertList key a es := by
  induction es with
  | nil => cases hd
  | cons c rest ih =>
    rw [insertList]
    by_cases hlt : key < c.1
    · rw [if_pos hlt]
      exact .tail _ hd
    · rw [if_neg hlt]
      by_cases heq : key = c.1
      · rw [if_pos heq]
        rcases mem_cons.1 hd with rfl | hd
        · exact absurd heq.symm hne
        · exact .tail _ hd
      · rw [if_neg heq]
        rcases mem_cons.1 hd with rfl | hd
        · exact mem_cons_self
        · exact mem_cons_of_mem _ (ih hd)

/-- Entries with different keys may be inserted in either order. -/
theorem insertList_comm {k k' : Nat} (hne : k ≠ k') (a a' : α) (es : List (Nat × α)) :
    insertList k a (insertList k' a' es) = insertList k' a' (insertList k a es) := by
  induction es with
  | nil => grind [insertList]
  | cons e rest ih => grind [insertList]

end OrderedMap

namespace RegisterFile

variable {r : RegisterFile} {bank : Bank} {group lane : Nat}

/-! ## Free groups -/

/-- Nothing is bound to any of the four lanes from `group` on. -/
def IsFree (r : RegisterFile) (bank : Bank) (group : Nat) : Prop :=
  ∀ i, i < 4 → r.isBound bank (group + i) = false

instance : Decidable (r.IsFree bank group) :=
  inferInstanceAs (Decidable (∀ i, i < 4 → r.isBound bank (group + i) = false))

theorem isFree_iff :
    r.IsFree bank group ↔ ¬ ((List.range 4).any fun i => r.isBound bank (group + i)) = true := by
  simp [IsFree]

theorem isBound_iff (hd : Disjoint (r.tables bank)) :
    r.isBound bank lane = true ↔
      ∃ e ∈ (r.tables bank).entries, e.1 ≤ lane ∧ lane < e.1 + e.2.lanes := by
  constructor
  · intro h
    obtain ⟨⟨base, binding⟩, hfind⟩ := Option.isSome_iff_exists.1 h
    exact ⟨_, (find?_mem hfind).1, (find?_mem hfind).2⟩
  · rintro ⟨⟨base, binding⟩, hmem, hle, hlt⟩
    rw [isBound, find?_of_mem hd hmem hle hlt]
    rfl

theorem IsFree.outside (hfree : r.IsFree bank group) (hd : Disjoint (r.tables bank))
    {e : Nat × Binding} (he : e ∈ (r.tables bank).entries) (hpos : 0 < e.2.lanes) :
    e.1 + e.2.lanes ≤ group ∨ group + 4 ≤ e.1 := by
  by_contra hcross
  -- The first lane that the binding and the group have in common is bound.
  have hbound (i : Nat) (hi : i < 4) (hle : e.1 ≤ group + i) (hlt : group + i < e.1 + e.2.lanes) :
      False := by
    have hnone := hfree i hi
    rw [(isBound_iff hd).2 ⟨e, he, hle, hlt⟩] at hnone
    cases hnone
  by_cases hle : e.1 ≤ group
  · exact hbound 0 (by decide) (by omega) (by omega)
  · exact hbound (e.1 - group) (by omega) (by omega) (by omega)

theorem Disjoint.insert {table : OrderedMap Binding} (h : Disjoint table) {base : Nat}
    {binding : Binding} (hpos : 0 < binding.lanes)
    (hfree : ∀ e ∈ table.entries, e.1 + e.2.lanes ≤ base ∨ base + binding.lanes ≤ e.1) :
    Disjoint (table.insert base binding) := by
  have hsorted := OrderedMap.pairwise_insertList base binding (h.imp fun hab => hab.1)
  refine hsorted.imp_of_mem fun {a b} ha hb hlt => ⟨hlt, ?_⟩
  rcases OrderedMap.mem_insertList ha with rfl | ha <;>
    rcases OrderedMap.mem_insertList hb with rfl | hb
  · exact absurd hlt (Nat.lt_irrefl _)
  · have := hfree b hb
    simp only at hlt ⊢
    omega
  · have := hfree a ha
    simp only at hlt ⊢
    omega
  · exact h.ends_before ha hb hlt

/-! ## Runs -/

/-- The two runs have no lane in common. -/
def Apart (a b : Nat × Binding) : Prop := a.1 + a.2.lanes ≤ b.1 ∨ b.1 + b.2.lanes ≤ a.1

instance : Std.Symm Apart := ⟨fun _ _ h => h.symm⟩

def HasLane (e : Nat × Binding) (lane : Nat) : Prop := e.1 ≤ lane ∧ lane < e.1 + e.2.lanes

/-- Runs in ascending order that share no lane, none of them empty. -/
structure LaidOut (table : OrderedMap Binding) : Prop where
  disjoint : Disjoint table
  nonempty : ∀ e ∈ table.entries, 0 < e.2.lanes

theorem LaidOut.insert {table : OrderedMap Binding} (h : LaidOut table) {e : Nat × Binding}
    (hpos : 0 < e.2.lanes) (hapart : ∀ d ∈ table.entries, Apart d e) :
    LaidOut (table.insert e.1 e.2) ∧
      ∀ d ∈ table.entries, d ∈ (table.insert e.1 e.2).entries := by
  refine ⟨⟨h.disjoint.insert hpos hapart, fun d hd => ?_⟩, fun d hd => ?_⟩
  · rcases OrderedMap.mem_insertList hd with rfl | hd
    · exact hpos
    · exact h.nonempty d hd
  · refine OrderedMap.mem_insertList_of_ne hd fun heq => ?_
    have hlanes := h.nonempty d hd
    have := hapart d hd
    unfold Apart at this
    omega

theorem LaidOut.find?_eq_some (h : LaidOut (r.tables bank)) {e : Nat × Binding} :
    r.find? bank lane = some e ↔ e ∈ (r.tables bank).entries ∧ HasLane e lane :=
  ⟨find?_mem, fun ⟨hmem, hle, hlt⟩ => find?_of_mem h.disjoint hmem hle hlt⟩

theorem tables_bind_self (r : RegisterFile) (bank : Bank) (base : Nat) (binding : Binding) :
    (r.bind bank base binding).tables bank = (r.tables bank).insert base binding := if_pos rfl

/-- Runs with different starts may be bound in either order. -/
theorem bind_comm (r : RegisterFile) (bank : Bank) {e e' : Nat × Binding} (hne : e.1 ≠ e'.1) :
    (r.bind bank e.1 e.2).bind bank e'.1 e'.2 = (r.bind bank e'.1 e'.2).bind bank e.1 e.2 := by
  have htable : ((r.tables bank).insert e.1 e.2).insert e'.1 e'.2 =
      ((r.tables bank).insert e'.1 e'.2).insert e.1 e.2 :=
    congrArg OrderedMap.mk (OrderedMap.insertList_comm hne.symm _ _ _)
  simp only [bind, if_pos, htable]
  congr 1
  funext b
  by_cases hb : b = bank <;> simp only [hb, if_true, if_false]

/-! ## Groups -/

/-- Of the groups of a bank, those that are free in `r` have a register in `r'`, and nothing else is
bound anew. -/
structure Fills (bank : Bank) (groups : List (Bank × Nat)) (r r' : RegisterFile) : Prop where
  laidOut : LaidOut (r'.tables bank)
  kept : ∀ e ∈ (r.tables bank).entries, e ∈ (r'.tables bank).entries
  added : ∀ e ∈ (r'.tables bank).entries, e ∈ (r.tables bank).entries ∨
    ∃ k, (bank, k) ∈ groups ∧ r.IsFree bank (4 * k) ∧ ∃ place, e = (4 * k, .vector place 4)
  filled : ∀ k, (bank, k) ∈ groups → r.IsFree bank (4 * k) →
    ∃ place, (4 * k, .vector place 4) ∈ (r'.tables bank).entries

namespace Fills

variable {groups more : List (Bank × Nat)} {r' r'' : RegisterFile}

theorem of_tables_eq (h : LaidOut (r.tables bank)) (heq : r'.tables bank = r.tables bank)
    (hnone : ∀ k, (bank, k) ∈ groups → ¬ r.IsFree bank (4 * k)) : Fills bank groups r r' where
  laidOut := heq ▸ h
  kept _ he := heq ▸ he
  added _ he := .inl (heq ▸ he)
  filled k hk hfree := absurd hfree (hnone k hk)

theorem trans (h : Fills bank groups r r') (h' : Fills bank more r' r'')
    (hr : LaidOut (r.tables bank)) : Fills bank (groups ++ more) r r'' where
  laidOut := h'.laidOut
  kept e he := h'.kept e (h.kept e he)
  added e he := by
    rcases h'.added e he with he | ⟨k, hk, hfree, hplace⟩
    · rcases h.added e he with he | ⟨k, hk, hnew⟩
      · exact .inl he
      · exact .inr ⟨k, mem_append_left _ hk, hnew⟩
    · refine .inr ⟨k, mem_append_right _ hk, fun i hi => ?_, hplace⟩
      -- What is free later was free before.
      have hlane := hfree i hi
      rw [Bool.eq_false_iff, ne_eq, isBound_iff h.laidOut.disjoint] at hlane
      rw [Bool.eq_false_iff, ne_eq, isBound_iff hr.disjoint]
      exact fun ⟨d, hd, hin⟩ => hlane ⟨d, h.kept d hd, hin⟩
  filled k hk hfree := by
    rcases mem_append.1 hk with hk | hk
    · obtain ⟨place, hplace⟩ := h.filled k hk hfree
      exact ⟨place, h'.kept _ hplace⟩
    by_cases hfree' : r'.IsFree bank (4 * k)
    · exact h'.filled k hk hfree'
    -- The group was given a register among the first groups.
    simp only [IsFree, not_forall, Bool.not_eq_false] at hfree'
    obtain ⟨i, hi, hbound⟩ := hfree'
    obtain ⟨e, he, hle, hlt⟩ := (isBound_iff h.laidOut.disjoint).1 hbound
    rcases h.added e he with hold | ⟨k', -, -, place, rfl⟩
    · have hlane := hfree i hi
      rw [(isBound_iff hr.disjoint).2 ⟨e, hold, hle, hlt⟩] at hlane
      cases hlane
    · simp only [Binding.lanes] at hle hlt
      obtain rfl : k' = k := by omega
      exact ⟨place, h'.kept _ he⟩

end Fills

/-- The listing and the register file with a group declared, if nothing is bound to any lane of
it. -/
def grouped (x : Listing × RegisterFile) (group : Bank × Nat) : Listing × RegisterFile :=
  if x.2.IsFree group.1 (4 * group.2) then
    ((x.1.declare ⟨group.1.name ++ toString (4 * group.2), Shape.group, .hidden⟩).2,
      x.2.bind group.1 (4 * group.2) (.vector ⟨x.1.vars.size, []⟩ 4))
  else x

theorem fills_grouped (x : Listing × RegisterFile) (group : Bank × Nat)
    (h : LaidOut (x.2.tables bank)) : Fills bank [group] x.2 (grouped x group).2 := by
  obtain ⟨bank', k⟩ := group
  unfold grouped
  by_cases hfree : x.2.IsFree bank' (4 * k)
  · rw [if_pos hfree]
    by_cases hbank : bank = bank'
    · subst hbank
      obtain ⟨hlaid, hkept⟩ := h.insert (e := (4 * k, .vector ⟨x.1.vars.size, []⟩ 4))
        (show 0 < 4 by decide) fun e he => hfree.outside h.disjoint he (h.nonempty e he)
      rw [← tables_bind_self] at hlaid hkept
      refine ⟨hlaid, hkept, fun e he => ?_, fun k' hk _ => ⟨⟨x.1.vars.size, []⟩, ?_⟩⟩
      · rcases mem_bind he with ⟨-, rfl⟩ | he
        · exact .inr ⟨k, mem_singleton_self _, hfree, _, rfl⟩
        · exact .inl he
      · cases mem_singleton.1 hk
        rw [tables_bind_self]
        exact OrderedMap.mem_insertList_self ..
    · refine .of_tables_eq h (if_neg hbank) fun k' hk => ?_
      exact absurd (congrArg Prod.fst (mem_singleton.1 hk)) hbank
  · rw [if_neg hfree]
    refine .of_tables_eq h rfl fun k' hk => ?_
    cases mem_singleton.1 hk
    exact hfree

theorem fills_foldl_grouped (groups : List (Bank × Nat)) (x : Listing × RegisterFile)
    (h : LaidOut (x.2.tables bank)) : Fills bank groups x.2 (groups.foldl grouped x).2 := by
  induction groups generalizing x with
  | nil => exact .of_tables_eq h rfl nofun
  | cons group rest ih =>
    have hone := fills_grouped x group h
    exact hone.trans (ih _ hone.laidOut) h

end RegisterFile

/-! ## Declarations -/

/-- What code before the first function works on. -/
def Workspace.view (w : Workspace) : Listing × RegisterFile := (w.listing, w.registers)

theorem exists_forM {α : Type} {f : α → Emit Unit}
    {g : Listing × RegisterFile → α → Listing × RegisterFile}
    (h : ∀ a w, ∃ w', f a w = .ok () w' ∧ w'.view = g w.view a) (as : List α) (w : Workspace) :
    ∃ w', as.forM f w = .ok () w' ∧ w'.view = as.foldl g w.view := by
  induction as generalizing w with
  | nil => exact ⟨w, rfl, rfl⟩
  | cons a rest ih =>
    obtain ⟨w1, hok, hview⟩ := h a w
    obtain ⟨w2, hrest, hview'⟩ := ih w1
    refine ⟨w2, ?_, by rw [hview', hview]; rfl⟩
    show (f a >>= fun _ => rest.forM f) w = _
    rw [Emit.bind_apply, hok]
    exact hrest

/-- One group of `declareBank`. -/
def declareGroup (bank : Bank) (k : Nat) : Emit Unit := do
  let group := 4 * k
  let registers ← getRegisters
  if (List.range 4).any fun i => registers.isBound bank (group + i) then return
  let place ← declare ⟨bank.name ++ toString group, Shape.group, .hidden⟩
  bind bank group (.vector place 4)

/-- The groups of register files, by bank and number. -/
def groupsOf (files : List (Bank × Nat)) : List (Bank × Nat) :=
  files.flatMap fun file => (List.range ((file.2 + 3) / 4)).map (file.1, ·)

theorem mem_groupsOf {files : List (Bank × Nat)} {bank : Bank} {k : Nat} :
    (bank, k) ∈ groupsOf files ↔ ∃ lanes, (bank, lanes) ∈ files ∧ 4 * k < lanes := by
  simp only [groupsOf, mem_flatMap, mem_map, mem_range, Prod.mk.injEq, Prod.exists]
  constructor
  · rintro ⟨_, lanes, hfile, _, hk, rfl, rfl⟩
    exact ⟨lanes, hfile, by omega⟩
  · rintro ⟨lanes, hfile, hk⟩
    exact ⟨bank, lanes, hfile, k, by omega, rfl, rfl⟩

def declareBanks (files : List (Bank × Nat)) : Emit Unit :=
  files.forM fun file => declareBank file.1 file.2

theorem declareBanks_eq (files : List (Bank × Nat)) :
    declareBanks files = (groupsOf files).forM fun group => declareGroup group.1 group.2 := by
  induction files with
  | nil => rfl
  | cons file rest ih =>
    rw [groupsOf, flatMap_cons, forM_eq_forM, forM_append, forM_map]
    exact congrArg (declareBank file.1 file.2 >>= fun _ => ·) ih

theorem exists_declareBanks (files : List (Bank × Nat)) (w : Workspace) :
    ∃ w', declareBanks files w = .ok () w' ∧
      w'.view = (groupsOf files).foldl grouped w.view := by
  rw [declareBanks_eq]
  refine exists_forM (fun group w => ?_) _ w
  unfold declareGroup grouped
  show ∃ w', (if ((List.range 4).any fun i => w.registers.isBound group.1 (4 * group.2 + i)) = true
    then _ else _ : Emit Unit) w = _ ∧ _
  by_cases h : w.registers.IsFree group.1 (4 * group.2)
  · rw [if_neg (isFree_iff.1 h), if_pos (show w.view.2.IsFree _ _ from h)]
    exact ⟨_, rfl, rfl⟩
  · rw [if_pos (not_not.1 fun hn => h (isFree_iff.2 hn)),
      if_neg (show ¬ w.view.2.IsFree _ _ from h)]
    exact ⟨_, rfl, rfl⟩

/-! ## Search -/

open RegisterFile

theorem findBinding_eq {w : Workspace} {bank : Bank} {lane : Nat}
    (hends : w.registers.EndsAt bank lane) :
    findBinding bank lane w = .ok (w.registers.find? bank lane) w := by
  rw [findBinding, Emit.getRegisters_bind, RegisterFile.find?]
  cases hc : w.registers.candidate? bank lane with
  | none => rfl
  | some entry =>
    have hstop : entry.1 + entry.2.lanes < 0x100000000 := hends entry.1 entry.2 hc
    have hlanes : entry.2.lanes < 0x100000000 := by omega
    simp only [Emit.word, if_pos hlanes, pure_bind, if_pos hstop, Option.filter]
    by_cases h : lane < entry.1 + entry.2.lanes <;> simp [h] <;> rfl

theorem exists_lookup {w : Workspace} {bank : Bank} {lane : Nat}
    (hends : w.registers.EndsAt bank lane) :
    ∃ w', lookup bank lane w = .ok (w.registers.bound? bank lane) w' ∧
      w'.registers = w.registers := by
  rw [Emit.lookup, Emit.bind_apply, findBinding_eq hends, bound?]
  rcases w.registers.find? bank lane with _ | ⟨base, place | place⟩ <;> exact ⟨_, rfl, rfl⟩

def bindRuns (bank : Bank) (runs : List (Nat × Binding)) : Emit Unit :=
  runs.forM fun e => Emit.bind bank e.1 e.2

/-- Runs that share no lane are all bound, in whatever order. -/
theorem fills_foldl_bind {bank : Bank} {runs : List (Nat × Binding)} (apart : runs.Pairwise Apart)
    (nonempty : ∀ e ∈ runs, 0 < e.2.lanes) {x : Listing × RegisterFile}
    (h : LaidOut (x.2.tables bank)) (hx : ∀ d ∈ (x.2.tables bank).entries, ∀ e ∈ runs, Apart d e) :
    let r' := (runs.foldl (fun x e => (x.1, x.2.bind bank e.1 e.2)) x).2
    LaidOut (r'.tables bank) ∧ ∀ e, e ∈ (r'.tables bank).entries ↔
      e ∈ (x.2.tables bank).entries ∨ e ∈ runs := by
  induction runs generalizing x with
  | nil => exact ⟨h, fun e => by simp⟩
  | cons e rest ih =>
    obtain ⟨hfirst, hrest⟩ := pairwise_cons.1 apart
    have hself := OrderedMap.mem_insertList_self e.1 e.2 (x.2.tables bank).entries
    obtain ⟨hlaid, hkept⟩ := h.insert (nonempty e mem_cons_self) fun d hd =>
      hx d hd e mem_cons_self
    rw [← tables_bind_self] at hlaid hkept
    obtain ⟨hlaid', hmem⟩ := ih hrest (fun d hd => nonempty d (.tail _ hd))
      (x := (x.1, x.2.bind bank e.1 e.2)) hlaid fun d hd e' he' => by
        rcases mem_bind hd with ⟨-, rfl⟩ | hd
        · exact hfirst e' he'
        · exact hx d hd e' (.tail _ he')
    refine ⟨hlaid', fun d => (hmem d).trans ?_⟩
    simp only [mem_cons]
    constructor
    · rintro (hd | hd)
      · rcases mem_bind hd with ⟨-, rfl⟩ | hd
        · exact .inr (.inl rfl)
        · exact .inl hd
      · exact .inr (.inr hd)
    · rintro (hd | rfl | hd)
      · exact .inl (hkept d hd)
      · refine .inl ?_
        rw [tables_bind_self]
        exact hself
      · exact .inr hd

/-- Runs that share no lane are found exactly, in whatever order they are bound and whatever register
files are declared after them: no run is replaced, a lane is found in the run that has it and in no
other one, and it is looked up to its place in a register of that run. -/
theorem lane_tables_exact (bank : Bank) (runs : List (Nat × Binding)) (files : List (Bank × Nat))
    (w₀ : Workspace) (empty : (w₀.registers.tables bank).entries = []) (apart : runs.Pairwise Apart)
    (nonempty : ∀ e ∈ runs, 0 < e.2.lanes) (ends : ∀ e ∈ runs, e.1 + e.2.lanes < 0x100000000)
    (small : ∀ file ∈ files, file.2 ≤ 0xFFFFFFFC) :
    ∃ w, (do bindRuns bank runs; declareBanks files) w₀ = .ok () w ∧
      (w.registers.tables bank).entries.Pairwise Apart ∧
      (∀ e ∈ runs, e ∈ (w.registers.tables bank).entries) ∧
      (∀ lane, ∃ found, findBinding bank lane w = .ok found w ∧
        ∀ e, found = some e ↔ e ∈ (w.registers.tables bank).entries ∧ HasLane e lane) ∧
      (∀ lane, ∃ found w', lookup bank lane w = .ok found w' ∧
        (found = none ↔ ∀ e ∈ (w.registers.tables bank).entries, ¬ HasLane e lane) ∧
        (∀ e ∈ (w.registers.tables bank).entries, HasLane e lane →
          found = some (e.2.resolve e.1 lane)) ∧
        ∀ x, found = some x → x.register.base ≤ lane ∧ lane < x.register.base + x.register.lanes ∧
          x.offset = lane - x.register.base) ∧
      (∀ more : List (Bank × Nat), ∃ w', declareBanks more w = .ok () w' ∧
        ∀ e ∈ (w.registers.tables bank).entries, e ∈ (w'.registers.tables bank).entries) ∧
      ∀ runs' : List (Nat × Binding), runs'.Perm runs →
        ∃ w', (do bindRuns bank runs'; declareBanks files) w₀ = .ok () w' ∧
          w'.registers = w.registers := by
  have run (runs : List (Nat × Binding)) :
      ∃ w, (do bindRuns bank runs; declareBanks files) w₀ = .ok () w ∧
        w.view = (groupsOf files).foldl grouped
          (runs.foldl (fun x e => (x.1, x.2.bind bank e.1 e.2)) w₀.view) := by
    obtain ⟨w1, hbound, hview⟩ := exists_forM (f := fun e => Emit.bind bank e.1 e.2)
      (g := fun x e => (x.1, x.2.bind bank e.1 e.2)) (fun e w => ⟨_, rfl, rfl⟩) runs w₀
    obtain ⟨w2, hdeclared, hview'⟩ := exists_declareBanks files w1
    refine ⟨w2, ?_, hview' ▸ hview ▸ rfl⟩
    rw [Emit.bind_apply, bindRuns, hbound]
    exact hdeclared
  have start : LaidOut (w₀.view.2.tables bank) :=
    ⟨by simp [RegisterFile.Disjoint, Workspace.view, empty], by simp [Workspace.view, empty]⟩
  obtain ⟨hlaid, hmem⟩ := fills_foldl_bind apart nonempty start (by simp [Workspace.view, empty])
  obtain ⟨w, hok, hview⟩ := run runs
  have hfills := fills_foldl_grouped (groupsOf files) _ hlaid
  rw [← show w.registers = _ from congrArg Prod.snd hview] at hfills
  have hends (lane : Nat) : w.registers.EndsAt bank lane := by
    intro base binding hc
    rcases hfills.added _ (OrderedMap.floorList_mem hc).1 with hold | ⟨k, hk, -, place, heq⟩
    · rcases (hmem _).1 hold with hold | hrun
      · simp [Workspace.view, empty] at hold
      · exact ends _ hrun
    · obtain ⟨rfl, rfl⟩ := Prod.mk.inj heq
      obtain ⟨lanes, hfile, hlt⟩ := mem_groupsOf.1 hk
      have := small _ hfile
      simp only [Binding.lanes]
      omega
  refine ⟨w, hok, hfills.laidOut.disjoint.imp fun h => .inl h.2,
    fun e he => hfills.kept e ((hmem e).2 (.inr he)), fun lane => ?_, fun lane => ?_, fun more => ?_,
    fun runs' hperm => ?_⟩
  · exact ⟨_, findBinding_eq (hends lane), fun e => hfills.laidOut.find?_eq_some⟩
  · obtain ⟨w', hlookup, -⟩ := exists_lookup (hends lane)
    refine ⟨_, w', hlookup, ?_, fun e he hlane => ?_, fun x hx => ?_⟩
    · rw [bound?, Option.map_eq_none_iff, Option.eq_none_iff_forall_ne_some]
      simp only [ne_eq, hfills.laidOut.find?_eq_some, not_and]
    · rw [bound?, hfills.laidOut.find?_eq_some.2 ⟨he, hlane⟩]
      rfl
    · have := bound?_covers hx
      omega
  · obtain ⟨w', hdeclared, hview'⟩ := exists_declareBanks more w
    have hmore := fills_foldl_grouped (groupsOf more) w.view hfills.laidOut
    rw [← hview'] at hmore
    exact ⟨w', hdeclared, hmore.kept⟩
  · obtain ⟨w', hok', hview'⟩ := run runs'
    refine ⟨w', hok', ?_⟩
    have hsame : runs'.foldl (fun x e => (x.1, x.2.bind bank e.1 e.2)) w₀.view =
        runs.foldl (fun x e => (x.1, x.2.bind bank e.1 e.2)) w₀.view := by
      -- Two runs that start at one lane are the same run.
      refine hperm.foldl_eq' (fun e he d hd x => ?_) _
      by_cases heq : e = d
      · rw [heq]
      · have hstart : e.1 ≠ d.1 := by
          have hboth := apart.forall (hperm.mem_iff.1 he) (hperm.mem_iff.1 hd) heq
          have hfirst := nonempty e (hperm.mem_iff.1 he)
          have hsecond := nonempty d (hperm.mem_iff.1 hd)
          unfold Apart at hboth
          omega
        exact congrArg (Prod.mk x.1) (x.2.bind_comm bank hstart)
    rw [hsame, ← hview] at hview'
    exact congrArg Prod.snd hview'

/-- A vector of two lanes, an array of two groups and a lane after them. -/
def scatteredRuns : List (Nat × Binding) :=
  [(5, .array ⟨1, []⟩ 2), (2, .vector ⟨0, []⟩ 2), (13, .vector ⟨2, []⟩ 1)]

theorem lane_tables_exact_scattered :
    let files := [(.temporary, 8), (.secondaryAttribute, 32)]
    ∃ w, (do bindRuns .secondaryAttribute scatteredRuns; declareBanks files : Emit Unit)
        { listing := { target := .machine } } = .ok () w ∧
      (∃ w', lookup .secondaryAttribute 11 w = .ok (some ⟨⟨⟨1, [1]⟩, 4, 9⟩, 2⟩) w') ∧
      ∃ w', (do bindRuns .secondaryAttribute scatteredRuns.reverse; declareBanks files : Emit Unit)
        { listing := { target := .machine } } = .ok () w' ∧ w'.registers = w.registers := by
  obtain ⟨w, hok, -, hruns, -, hlookup, -, hperm⟩ := lane_tables_exact .secondaryAttribute scatteredRuns
    [(.temporary, 8), (.secondaryAttribute, 32)] { listing := { target := .machine } } rfl
    (by simp [scatteredRuns, Apart, Binding.lanes]) (by decide) (by decide) (by decide)
  refine ⟨w, hok, ?_, hperm _ (reverse_perm _)⟩
  obtain ⟨found, w', hfound, -, hplace, -⟩ := hlookup 11
  rw [hplace (5, .array ⟨1, []⟩ 2) (hruns _ (by decide)) ⟨by decide, by decide⟩] at hfound
  exact ⟨w', hfound⟩

end Microcode
