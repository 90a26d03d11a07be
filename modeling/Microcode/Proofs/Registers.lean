import Mathlib.Data.List.Basic
import Microcode.Proofs.Emission
import Microcode.Resolve

/-!
What the lanes of a register file hold.

A lane is found in the shadow of its group or else in the register that is bound to it.  A register
file is well formed when bindings do not overlap and every register is a variable, or an element of
one, with as many components as it has lanes.  It is separate when no two registers share storage.
-/

namespace Microcode

open Machine List RegisterFile

namespace OrderedMap

variable {bank : Bank} {binding : Binding} {base lane lane' : Nat} {found : Resolved}

variable {α : Type} {key : Nat} {e : Nat × α}

theorem floorList_mem {es : List (Nat × α)} (h : floorList key es = some e) :
    e ∈ es ∧ e.1 ≤ key := by
  induction es with
  | nil => exact absurd h (by simp [floorList])
  | cons d rest ih =>
    obtain ⟨k, a⟩ := d
    rw [floorList] at h
    by_cases hk : k ≤ key
    · rw [if_pos hk] at h
      cases hrest : floorList key rest with
      | none =>
        rw [hrest, Option.none_or, Option.some.injEq] at h
        exact h ▸ ⟨mem_cons_self, hk⟩
      | some d =>
        rw [hrest, Option.some_or, Option.some.injEq] at h
        have := ih (h ▸ hrest)
        exact ⟨mem_cons_of_mem _ this.1, this.2⟩
    · rw [if_neg hk] at h
      cases h

/-- Among ascending keys the floor is the entry that no later entry follows at or before the key. -/
theorem floorList_eq {es : List (Nat × α)} (hes : es.Pairwise fun a b => a.1 < b.1) (he : e ∈ es)
    (hle : e.1 ≤ key) (hnext : ∀ d ∈ es, e.1 < d.1 → key < d.1) : floorList key es = some e := by
  induction es with
  | nil => cases he
  | cons d rest ih =>
    obtain ⟨k, a⟩ := d
    rw [pairwise_cons] at hes
    rcases mem_cons.1 he with rfl | hmem
    · have hnone : floorList key rest = none := by
        cases rest with
        | nil => rfl
        | cons d' rest' =>
          obtain ⟨k', a'⟩ := d'
          have hlt := hes.1 _ mem_cons_self
          have := hnext _ (mem_cons_of_mem _ mem_cons_self) hlt
          rw [floorList, if_neg (by simpa using this)]
      rw [floorList, if_pos hle, hnone, Option.none_or]
    · have hlt := hes.1 _ hmem
      have hk : k ≤ key := Nat.le_trans (Nat.le_of_lt hlt) hle
      rw [floorList, if_pos hk, ih hes.2 hmem fun d hd => hnext d (.tail _ hd),
        Option.some_or]

end OrderedMap

/-- Where a lane is in a binding that starts at `base`. -/
def Binding.resolve (binding : Binding) (base lane : Nat) : Resolved :=
  match binding with
  | .vector place lanes => ⟨⟨place, lanes, base⟩, lane - base⟩
  | .array place _ =>
    let index := (lane - base) / 4
    ⟨⟨{ place with path := place.path ++ [index] }, 4, base + index * 4⟩, (lane - base) % 4⟩

/-- The lane that a resolved lane holds. -/
def Resolved.content (found : Resolved) (s : State) : Lane :=
  (s.read found.register.place).get found.offset

namespace RegisterFile

def bound? (r : RegisterFile) (bank : Bank) (lane : Nat) : Option Resolved :=
  (r.find? bank lane).map fun (base, binding) => binding.resolve base lane

/-- Where a lane is in the shadow of its group. -/
def held? (r : RegisterFile) (bank : Bank) (lane : Nat) : Option Resolved :=
  if bank.isShadowed then (r.shadow? bank (lane / 4 * 4)).map (⟨·, lane - lane / 4 * 4⟩) else none

def resolved? (r : RegisterFile) (bank : Bank) (lane : Nat) : Option Resolved :=
  (r.held? bank lane).or (r.bound? bank lane)

/-- What a lane holds: the lane of the shadow of its group if there is one, or else of the register
bound to it.  Secondary attributes that nothing backs hold zeros. -/
def laneAt (r : RegisterFile) (s : State) (bank : Bank) (lane : Nat) : Option Lane :=
  match r.resolved? bank lane with
  | some found => some (found.content s)
  | none => if bank = .secondaryAttribute then some 0#32 else none

/-- What a lane shows: zero, where nothing holds it. -/
def shown (r : RegisterFile) (s : State) (bank : Bank) (lane : Nat) : Lane :=
  (r.laneAt s bank lane).getD 0#32

/-- What a predicate register holds. -/
def predicateAt (r : RegisterFile) (s : State) (slot : Nat) : Option Lane :=
  (r.predicates.get slot).map fun place => (s.read place).x

/-- The binding at or before a lane ends at a 32-bit lane number. -/
def EndsAt (r : RegisterFile) (bank : Bank) (lane : Nat) : Prop :=
  ∀ base binding, r.candidate? bank lane = some (base, binding) →
    base + binding.lanes < 0x100000000

/-- A shadow can be made for the group. -/
def Seedable (r : RegisterFile) (bank : Bank) (group : Nat) : Prop :=
  group + 4 < 0x100000000 ∧ ∀ i, i < 4 → r.EndsAt bank (group + i)

/-- No register of the bank crosses the border of an aligned group of four lanes. -/
def Aligned (r : RegisterFile) (bank : Bank) : Prop :=
  ∀ lane found, r.bound? bank lane = some found →
    found.register.base % 4 + found.register.lanes ≤ 4

/-- Lanes that can be resolved. -/
def Reaches (r : RegisterFile) (bank : Bank) (number : Int) (forStore : Bool) : Prop :=
  0 ≤ number ∧ number < 0x100000000 ∧
    ((r.held? bank number.toNat).isSome = true ∨
      if bank.isShadowed = true ∧ forStore = true then r.Seedable bank (number.toNat / 4 * 4)
      else r.EndsAt bank number.toNat ∧ ((r.bound? bank number.toNat).isSome = true ∨
        bank = .secondaryAttribute ∧ r.Seedable bank (number.toNat / 4 * 4)))

instance (r : RegisterFile) (bank : Bank) (lane : Nat) : Decidable (r.EndsAt bank lane) :=
  match h : r.candidate? bank lane with
  | none => .isTrue fun _ _ hc => absurd (h.symm.trans hc) nofun
  | some (base, binding) => decidable_of_iff (base + binding.lanes < 0x100000000)
      ⟨fun hlt _ _ hc => by cases h.symm.trans hc; exact hlt, fun hends => hends base binding h⟩

instance (r : RegisterFile) (bank : Bank) (group : Nat) : Decidable (r.Seedable bank group) :=
  inferInstanceAs (Decidable (_ ∧ ∀ i, i < 4 → r.EndsAt bank (group + i)))

instance (r : RegisterFile) (bank : Bank) (number : Int) (forStore : Bool) :
    Decidable (r.Reaches bank number forStore) :=
  inferInstanceAs (Decidable (_ ∧ _ ∧ (_ ∨ ite _ _ _)))

theorem find?_mem {r : RegisterFile} (h : r.find? bank lane = some (base, binding)) :
    (base, binding) ∈ (r.tables bank).entries ∧ base ≤ lane ∧ lane < base + binding.lanes := by
  obtain ⟨hc, hlt⟩ := Option.filter_eq_some_iff.1 h
  have := OrderedMap.floorList_mem hc
  exact ⟨this.1, this.2, by simpa using hlt⟩

theorem bound?_eq_some {r : RegisterFile} (h : r.bound? bank lane = some found) :
    ∃ base binding, r.find? bank lane = some (base, binding) ∧
      found = binding.resolve base lane := by
  obtain ⟨⟨base, binding⟩, hfind, rfl⟩ := Option.map_eq_some_iff.1 h
  exact ⟨base, binding, hfind, rfl⟩

theorem bound?_covers {r : RegisterFile} (h : r.bound? bank lane = some found) :
    found.register.base + found.offset = lane ∧ found.offset < found.register.lanes := by
  obtain ⟨base, binding, hfind, rfl⟩ := bound?_eq_some h
  obtain ⟨-, hbase, hlt⟩ := find?_mem hfind
  cases binding with
  | vector place lanes =>
    simp only [Binding.lanes] at hlt
    simp only [Binding.resolve]
    omega
  | array place length =>
    simp only [Binding.resolve]
    omega

/-- Bindings of a bank in ascending order, none reaching into the next. -/
def Disjoint (table : OrderedMap Binding) : Prop :=
  table.entries.Pairwise fun a b => a.1 < b.1 ∧ a.1 + a.2.lanes ≤ b.1

theorem Disjoint.ends_before {table : OrderedMap Binding} (h : Disjoint table) {a b : Nat × Binding}
    (ha : a ∈ table.entries) (hb : b ∈ table.entries) (hlt : a.1 < b.1) : a.1 + a.2.lanes ≤ b.1 :=
  List.Pairwise.forall_of_forall_of_flip (R := fun a b : Nat × Binding =>
    a.1 < b.1 → a.1 + a.2.lanes ≤ b.1) (fun x _ hx => absurd hx (Nat.lt_irrefl _))
    (h.imp fun hab _ => hab.2) (h.imp fun hab hba => by have := hab.1; omega) ha hb hlt

theorem find?_of_mem {r : RegisterFile} (hd : Disjoint (r.tables bank))
    (hmem : (base, binding) ∈ (r.tables bank).entries) (hle : base ≤ lane)
    (hlt : lane < base + binding.lanes) : r.find? bank lane = some (base, binding) := by
  have hnext : ∀ d ∈ (r.tables bank).entries, base < d.1 → lane < d.1 := by
    intro d hdm hbd
    have := hd.ends_before hmem hdm hbd
    simp only at this
    omega
  rw [find?, candidate?, OrderedMap.floor?,
    OrderedMap.floorList_eq (hd.imp fun hab => hab.1) hmem hle hnext]
  simpa [Option.filter] using hlt

/-- The lanes of a register that is bound to a lane are in the binding of that lane. -/
theorem find?_of_bound {r : RegisterFile} (hd : Disjoint (r.tables bank))
    (h : r.bound? bank lane = some found) (hle : found.register.base ≤ lane')
    (hlt : lane' < found.register.base + found.register.lanes) :
    ∃ base binding, r.find? bank lane = some (base, binding) ∧
      r.find? bank lane' = some (base, binding) ∧ found = binding.resolve base lane := by
  obtain ⟨base, binding, hfind, rfl⟩ := bound?_eq_some h
  obtain ⟨hmem, hbase, hin⟩ := find?_mem hfind
  refine ⟨base, binding, hfind, find?_of_mem hd hmem ?_ ?_, rfl⟩ <;>
    cases binding <;> simp only [Binding.resolve, Binding.lanes] at * <;> omega

theorem bound?_of_disjoint {r : RegisterFile} (hd : Disjoint (r.tables bank))
    (h : r.bound? bank lane = some found) (hle : found.register.base ≤ lane')
    (hlt : lane' < found.register.base + found.register.lanes) :
    r.bound? bank lane' = some ⟨found.register, lane' - found.register.base⟩ := by
  obtain ⟨base, binding, -, hfind, rfl⟩ := find?_of_bound hd h hle hlt
  rw [bound?, hfind, Option.map_some]
  cases binding with
  | vector place lanes => rfl
  | array place length =>
    simp only [Binding.resolve] at hle hlt ⊢
    have hindex : (lane' - base) / 4 = (lane - base) / 4 := by omega
    simp only [hindex, Option.some.injEq, Resolved.mk.injEq, true_and]
    omega

theorem endsAt_run {r : RegisterFile} (hd : Disjoint (r.tables bank))
    (h : r.bound? bank lane = some found) (hle : found.register.base ≤ lane')
    (hlt : lane' < found.register.base + found.register.lanes) (he : r.EndsAt bank lane) :
    r.EndsAt bank lane' := by
  obtain ⟨base, binding, hfind, hfind', -⟩ := find?_of_bound hd h hle hlt
  intro base' binding' hc
  rw [(Option.filter_eq_some_iff.1 hfind').1] at hc
  obtain ⟨rfl, rfl⟩ := Prod.mk.inj (Option.some.inj hc)
  exact he _ _ (Option.filter_eq_some_iff.1 hfind).1

end RegisterFile

/-! ## Well-formed register files -/

/-- A place that exists and has the shape. -/
structure Place.Valid (l : Listing) (place : Place) (shape : Shape) : Prop where
  declared : l.Declares place
  shape : (l.variableAt place).shape = shape
  element : State.elementIndex place < (l.variableAt place).length

theorem Place.Valid.mono {l l' : Listing} {place : Place} {shape : Shape}
    (h : place.Valid l shape) (hl : l.Extends l') : place.Valid l' shape where
  declared := hl.declares h.declared
  shape := by rw [hl.variableAt h.declared]; exact h.shape
  element := by rw [hl.variableAt h.declared]; exact h.element

/-- A register with one to four lanes, all of which its place has. -/
structure Register.Valid (l : Listing) (register : Register) : Prop where
  place : register.place.Valid l ⟨.f32, register.lanes⟩
  pos : 0 < register.lanes
  width : register.lanes ≤ 4

theorem Register.Valid.mono {l l' : Listing} {register : Register} (h : register.Valid l)
    (hl : l.Extends l') : register.Valid l' := ⟨h.place.mono hl, h.pos, h.width⟩

/-- What a place is the storage of. -/
inductive Owner where
  | bound (bank : Bank) (register : Register)
  | shadow (bank : Bank) (group : Nat)
  | predicate (slot : Nat)
  deriving DecidableEq

namespace RegisterFile

/-- The place is the storage of the owner. -/
inductive Backs (r : RegisterFile) : Owner → Place → Prop
  | bound {bank : Bank} {lane : Nat} {found : Resolved} (h : r.bound? bank lane = some found) :
    Backs r (.bound bank found.register) found.register.place
  | shadow {bank : Bank} {group : Nat} {register : Register}
      (h : r.shadow? bank group = some register) : Backs r (.shadow bank group) register.place
  | predicate {slot : Nat} {place : Place} (hslot : slot < 4)
      (h : r.predicates.get slot = some place) : Backs r (.predicate slot) place

structure WellFormed (l : Listing) (r : RegisterFile) : Prop where
  disjoint : ∀ bank, Disjoint (r.tables bank)
  bound : ∀ {bank lane found}, r.bound? bank lane = some found → found.register.Valid l
  shadow : ∀ {bank group register}, r.shadow? bank group = some register →
    bank.isShadowed = true ∧ group % 4 = 0 ∧ register.base = group ∧ register.lanes = 4 ∧
      register.Valid l
  numbered : ∀ {bank group register}, r.shadow? bank group = some register →
    group + 4 < 0x100000000
  predicate : ∀ {slot place}, slot < 4 → r.predicates.get slot = some place →
    place.Valid l Shape.bool

/-- No two registers share storage. -/
def Separate (r : RegisterFile) : Prop :=
  ∀ o o' place place', r.Backs o place → r.Backs o' place' → cell place = cell place' → o = o'

theorem held?_group {r : RegisterFile} {a b : Nat} (hg : a / 4 = b / 4)
    (h : r.held? bank a = none) : r.held? bank b = none := by
  rw [held?] at h ⊢
  by_cases hb : bank.isShadowed = true
  · rw [if_pos hb, Option.map_eq_none_iff] at h ⊢
    rw [← hg]
    exact h
  · rw [if_neg hb]

namespace WellFormed

variable {l l' : Listing} {r : RegisterFile}

theorem declared (h : r.WellFormed l) {o : Owner} {place : Place} (hb : r.Backs o place) :
    l.Declares place := by
  cases hb with
  | bound hb => exact (h.bound hb).place.declared
  | shadow hs => exact (h.shadow hs).2.2.2.2.place.declared
  | predicate hslot hp => exact (h.predicate hslot hp).declared

theorem mono (h : r.WellFormed l) (hl : l.Extends l') : r.WellFormed l' where
  disjoint := h.disjoint
  bound hb := (h.bound hb).mono hl
  shadow hs := by
    obtain ⟨h1, h2, h3, h4, h5⟩ := h.shadow hs
    exact ⟨h1, h2, h3, h4, h5.mono hl⟩
  numbered := h.numbered
  predicate hslot hp := (h.predicate hslot hp).mono hl

theorem bound?_run (h : r.WellFormed l) (hb : r.bound? bank lane = some found)
    (hle : found.register.base ≤ lane') (hlt : lane' < found.register.base + found.register.lanes) :
    r.bound? bank lane' = some ⟨found.register, lane' - found.register.base⟩ :=
  bound?_of_disjoint (h.disjoint bank) hb hle hlt

theorem held?_eq_some (h : r.WellFormed l) (hf : r.held? bank lane = some found) :
    r.shadow? bank (lane / 4 * 4) = some found.register ∧ found.offset = lane % 4 ∧
      found.register.base = lane / 4 * 4 ∧ found.register.lanes = 4 := by
  rw [held?] at hf
  by_cases hb : bank.isShadowed = true
  · rw [if_pos hb] at hf
    obtain ⟨register, hs, rfl⟩ := Option.map_eq_some_iff.1 hf
    obtain ⟨-, -, hbase, hlanes, -⟩ := h.shadow hs
    exact ⟨hs, by simp only; omega, hbase, hlanes⟩
  · rw [if_neg hb] at hf
    cases hf

theorem resolved?_cases (h : r.WellFormed l) (hf : r.resolved? bank lane = some found) :
    (r.held? bank lane = some found ∧ r.Backs (.shadow bank (lane / 4 * 4)) found.register.place) ∨
      (r.held? bank lane = none ∧ r.bound? bank lane = some found ∧
        r.Backs (.bound bank found.register) found.register.place) := by
  rw [resolved?] at hf
  cases hh : r.held? bank lane with
  | some held =>
    rw [hh, Option.some_or, Option.some.injEq] at hf
    subst hf
    exact .inl ⟨rfl, .shadow (h.held?_eq_some hh).1⟩
  | none =>
    rw [hh, Option.none_or] at hf
    exact .inr ⟨rfl, hf, .bound hf⟩

theorem resolved?_covers (h : r.WellFormed l) (hf : r.resolved? bank lane = some found) :
    found.register.base + found.offset = lane ∧ found.offset < found.register.lanes ∧
      found.register.Valid l := by
  rcases h.resolved?_cases hf with ⟨hh, -⟩ | ⟨-, hb, -⟩
  · obtain ⟨hs, hoff, hbase, hlanes⟩ := h.held?_eq_some hh
    exact ⟨by omega, by omega, (h.shadow hs).2.2.2.2⟩
  · obtain ⟨hcov, hlt⟩ := bound?_covers hb
    exact ⟨hcov, hlt, h.bound hb⟩

/-- The lanes that follow a lane in its register, as long as no shadow comes between them. -/
theorem resolved?_run (h : r.WellFormed l) {j : Nat} (hf : r.resolved? bank lane = some found)
    (hj : found.offset + j < found.register.lanes)
    (hnone : r.held? bank lane = none → r.held? bank (lane + j) = none) :
    r.resolved? bank (lane + j) = some ⟨found.register, found.offset + j⟩ := by
  have hcov := h.resolved?_covers hf
  rcases h.resolved?_cases hf with ⟨hheld, -⟩ | ⟨hnot, hb, -⟩
  · obtain ⟨hs, hoff, hbase, hlanes⟩ := h.held?_eq_some hheld
    have hgroup : (lane + j) / 4 * 4 = lane / 4 * 4 := by omega
    rw [resolved?, held?, if_pos (h.shadow hs).1, hgroup, hs, Option.map_some, Option.some_or]
    simp only [Option.some.injEq, Resolved.mk.injEq, true_and]
    omega
  · rw [resolved?, hnone hnot, Option.none_or, h.bound?_run hb (by omega) (by omega)]
    simp only [Option.some.injEq, Resolved.mk.injEq, true_and]
    omega

end WellFormed
end RegisterFile

/-! ## What a computation keeps -/

/-- A workspace and its state with a well-formed register file. -/
structure Good (w : Workspace) (s : State) : Prop where
  live : Live w s
  registers : w.registers.WellFormed w.listing

/-- Code is added that keeps the memory.  Bindings stay, and shadows and predicate registers are only
added. -/
structure Advances (start : Nat → Nat → Lanes) (w : Workspace) (s : State) (w' : Workspace)
    (s' : State) : Prop where
  good : Good w s
  good' : Good w' s'
  steps : Steps start w.listing s w'.listing s'
  increments : w'.increments = w.increments
  memory : s'.memory = s.memory
  tables : w'.registers.tables = w.registers.tables
  shadows : ∀ {bank group register}, w.registers.shadow? bank group = some register →
    w'.registers.shadow? bank group = some register
  predicates : ∀ {slot place}, slot < 4 → w.registers.predicates.get slot = some place →
    w'.registers.predicates.get slot = some place
  separate : w.registers.Separate → w'.registers.Separate

/-- No lane, no predicate and no memory changes.  Variables may be declared, as shadows that hold
what their groups hold. -/
structure Keeps (start : Nat → Nat → Lanes) (w : Workspace) (s : State) (w' : Workspace)
    (s' : State) : Prop extends Advances start w s w' s' where
  read : ∀ {place}, w.listing.Declares place → s'.read place = s.read place
  lanes : ∀ {bank lane x}, w.registers.laneAt s bank lane = some x →
    w'.registers.laneAt s' bank lane = some x
  shown : ∀ bank lane, w'.registers.shown s' bank lane = w.registers.shown s bank lane

variable {start : Nat → Nat → Lanes} {w w' w'' : Workspace} {s s' s'' : State}

namespace Advances

theorem refl (h : Good w s) : Advances start w s w s :=
  ⟨h, h, .refl, rfl, rfl, rfl, fun h => h, fun _ h => h, fun h => h⟩

theorem trans (h : Advances start w s w' s') (h' : Advances start w' s' w'' s'') :
    Advances start w s w'' s'' where
  good := h.good
  good' := h'.good'
  steps := h.steps.trans h'.steps
  increments := h'.increments.trans h.increments
  memory := h'.memory.trans h.memory
  tables := h'.tables.trans h.tables
  shadows hs := h'.shadows (h.shadows hs)
  predicates hslot hp := h'.predicates hslot (h.predicates hslot hp)
  separate hr := h'.separate (h.separate hr)

theorem bound? (h : Advances start w s w' s') (bank : Bank) (lane : Nat) :
    w'.registers.bound? bank lane = w.registers.bound? bank lane := by
  simp only [RegisterFile.bound?, RegisterFile.find?, RegisterFile.candidate?, h.tables]

theorem endsAt (h : Advances start w s w' s') (bank : Bank) (lane : Nat) :
    w'.registers.EndsAt bank lane ↔ w.registers.EndsAt bank lane := by
  simp only [EndsAt, candidate?, h.tables]

theorem held? (h : Advances start w s w' s') (hf : w.registers.held? bank lane = some found) :
    w'.registers.held? bank lane = some found := by
  rw [RegisterFile.held?] at hf ⊢
  by_cases hb : bank.isShadowed = true
  · rw [if_pos hb] at hf ⊢
    obtain ⟨register, hs, rfl⟩ := Option.map_eq_some_iff.1 hf
    rw [h.shadows hs]
    rfl
  · rw [if_neg hb] at hf
    cases hf

theorem reaches (h : Advances start w s w' s') {number : Int} {forStore : Bool}
    (hr : w.registers.Reaches bank number forStore) :
    w'.registers.Reaches bank number forStore := by
  obtain ⟨hnonneg, hsmall, hr⟩ := hr
  refine ⟨hnonneg, hsmall, ?_⟩
  rcases hr with hheld | hr
  · obtain ⟨found, hfound⟩ := Option.isSome_iff_exists.1 hheld
    exact .inl (by rw [h.held? hfound]; rfl)
  · refine .inr ?_
    simpa only [Seedable, h.endsAt, h.bound?] using hr

end Advances

namespace Keeps

theorem refl (h : Good w s) : Keeps start w s w s :=
  ⟨.refl h, fun _ => rfl, fun h => h, fun _ _ => rfl⟩

theorem trans (h : Keeps start w s w' s') (h' : Keeps start w' s' w'' s'') :
    Keeps start w s w'' s'' where
  toAdvances := h.toAdvances.trans h'.toAdvances
  read hp := (h'.read (h.steps.extension.declares hp)).trans (h.read hp)
  lanes hl := h'.lanes (h.lanes hl)
  shown bank lane := (h'.shown bank lane).trans (h.shown bank lane)

theorem predicateAt (h : Keeps start w s w' s') {slot : Nat} (hslot : slot < 4) {x : Lane}
    (hx : w.registers.predicateAt s slot = some x) : w'.registers.predicateAt s' slot = some x := by
  obtain ⟨place, hp, rfl⟩ := Option.map_eq_some_iff.1 hx
  rw [RegisterFile.predicateAt, h.predicates hslot hp, Option.map_some,
    h.read (h.good.registers.predicate hslot hp).declared]

end Keeps

theorem Quiet.laneAt (q : Quiet start w s w' s') (bank : Bank) (lane : Nat) :
    w'.registers.laneAt s' bank lane = w.registers.laneAt s bank lane := by
  rw [RegisterFile.laneAt, RegisterFile.laneAt, q.registers]
  cases w.registers.resolved? bank lane with
  | none => rfl
  | some found => simp only [Resolved.content, q.read]

theorem Quiet.keeps (q : Quiet start w s w' s') (h : w.registers.WellFormed w.listing) :
    Keeps start w s w' s' where
  good := ⟨q.live, h⟩
  good' := ⟨q.live_after, by rw [q.registers]; exact h.mono q.steps.extension⟩
  steps := q.steps
  increments := q.increments
  memory := q.memory
  tables := by rw [q.registers]
  shadows hs := by rw [q.registers]; exact hs
  predicates _ hp := by rw [q.registers]; exact hp
  read _ := q.read _
  lanes hl := by rw [q.laneAt]; exact hl
  shown bank lane := congrArg (·.getD 0#32) (q.laneAt bank lane)
  separate hr := by rw [q.registers]; exact hr

def Frame.keeps (start : Nat → Nat → Lanes) : Frame where
  Admits := Good
  Rel := Keeps start
  refl := Keeps.refl
  trans := Keeps.trans
  admits h := h.good'

theorem Emits.keeps {α : Type} {x : Emit α} {Q : α → Workspace → State → Prop}
    {E : Error → Workspace → Prop} (h : Emits (.quiet start) x w s Q E) :
    Emits (.keeps start) x w s Q E :=
  h.within Good.live fun _ _ hg q => Quiet.keeps q hg.registers

theorem Holds.advances {v : Value} {scalar : Scalar} {lanes : List Lane}
    (h : Holds w s v scalar lanes) (k : Advances start w s w' s') : Holds w' s' v scalar lanes :=
  h.steps k.good.live k.steps

end Microcode
