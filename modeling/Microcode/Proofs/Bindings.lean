import Microcode.Proofs.Running

/-!
Register files before any code is emitted.

Each binding has a variable of its own with the lanes that are bound to it, and the bindings of a
bank do not overlap.  Such a register file is well formed, and its registers share no storage.
-/

namespace Microcode

open Machine

namespace Binding

def place : Binding → Place
  | vector place _ | array place _ => place

/-- The variable has the lanes that are bound to it. -/
def Valid (l : Listing) : Binding → Prop
  | vector place lanes => place.Valid l ⟨.f32, lanes⟩ ∧ 0 < lanes ∧ lanes ≤ 4
  | array place length =>
    l.Declares place ∧ (l.variableAt place).shape = Shape.group ∧
      length ≤ (l.variableAt place).length

/-- A binding from lane `base` on whose registers stay within aligned groups of four lanes. -/
def Aligned (base : Nat) : Binding → Prop
  | vector _ lanes => base % 4 + lanes ≤ 4
  | array _ length => length = 0 ∨ base % 4 = 0

variable {l : Listing} {binding : Binding} {base lane : Nat}

theorem Valid.register (h : binding.Valid l) (hle : base ≤ lane)
    (hlt : lane < base + binding.lanes) : (binding.resolve base lane).register.Valid l := by
  cases binding with
  | vector place lanes => exact ⟨h.1, h.2.1, h.2.2⟩
  | array place length =>
    obtain ⟨hdecl, hshape, hlen⟩ := h
    rw [lanes] at hlt
    refine ⟨⟨hdecl, hshape, ?_⟩, by simp [resolve], by simp [resolve]⟩
    have hindex : (lane - base) / 4 < (l.variableAt place).length := by omega
    simpa [resolve, State.elementIndex, Listing.variableAt] using hindex

theorem variableIndex_resolve (binding : Binding) (base lane : Nat) :
    (binding.resolve base lane).register.place.variableIndex = binding.place.variableIndex := by
  cases binding <;> rfl

/-- Lanes of one binding with the same storage are lanes of one register. -/
theorem register_resolve_congr {lane' : Nat} (h : cell (binding.resolve base lane).register.place =
    cell (binding.resolve base lane').register.place) :
    (binding.resolve base lane).register = (binding.resolve base lane').register := by
  cases binding with
  | vector place lanes => rfl
  | array place length =>
    have hindex : (lane - base) / 4 = (lane' - base) / 4 := by
      have := congrArg Prod.snd h
      simpa [cell, resolve, State.elementIndex] using this
    simp only [resolve, hindex]

end Binding

namespace RegisterFile

/-- Nothing but bindings, each with a variable of its own. -/
structure Fresh (l : Listing) (r : RegisterFile) : Prop where
  shadows : r.shadows = []
  predicates : r.predicates = .replicate none
  disjoint : ∀ bank, Disjoint (r.tables bank)
  valid : ∀ bank, ∀ e ∈ (r.tables bank).entries, e.2.Valid l
  own : ∀ bank bank', ∀ e ∈ (r.tables bank).entries, ∀ e' ∈ (r.tables bank').entries,
    e.2.place.variableIndex = e'.2.place.variableIndex → bank = bank' ∧ e = e'

namespace Fresh

variable {l : Listing} {r : RegisterFile}

theorem shadow? (h : r.Fresh l) (bank : Bank) (group : Nat) : r.shadow? bank group = none := by
  rw [RegisterFile.shadow?, h.shadows]
  rfl

theorem predicate (h : r.Fresh l) (slot : Nat) : r.predicates.get slot = none := by
  rw [h.predicates, Quad.get_replicate]

theorem wellFormed (h : r.Fresh l) : r.WellFormed l where
  disjoint := h.disjoint
  bound hb := by
    obtain ⟨base, binding, hfind, rfl⟩ := bound?_eq_some hb
    obtain ⟨hmem, hle, hlt⟩ := find?_mem hfind
    exact (h.valid _ _ hmem).register hle hlt
  shadow hs := absurd hs (by simp [h.shadow?])
  numbered hs := absurd hs (by simp [h.shadow?])
  predicate _ hp := absurd hp (by simp [h.predicate])

theorem separate (h : r.Fresh l) : r.Separate := by
  intro o o' place place' ho ho' hcell
  cases ho with
  | shadow hs => exact absurd hs (by simp [h.shadow?])
  | predicate _ hp => exact absurd hp (by simp [h.predicate])
  | bound hb =>
    cases ho' with
    | shadow hs => exact absurd hs (by simp [h.shadow?])
    | predicate _ hp => exact absurd hp (by simp [h.predicate])
    | bound hb' =>
      obtain ⟨base, binding, hfind, rfl⟩ := bound?_eq_some hb
      obtain ⟨base', binding', hfind', rfl⟩ := bound?_eq_some hb'
      have hvar := congrArg Prod.fst hcell
      simp only [cell, Binding.variableIndex_resolve] at hvar
      obtain ⟨rfl, heq⟩ := h.own _ _ _ (find?_mem hfind).1 _ (find?_mem hfind').1 hvar
      obtain ⟨rfl, rfl⟩ := Prod.mk.inj heq
      rw [Binding.register_resolve_congr hcell]

end Fresh

/-- Registers stay within groups if vectors do and arrays start with one. -/
theorem aligned_of_bindings {r : RegisterFile} {bank : Bank}
    (h : ∀ e ∈ (r.tables bank).entries, Binding.Aligned e.1 e.2) : r.Aligned bank := by
  intro lane found hf
  obtain ⟨base, binding, hfind, rfl⟩ := bound?_eq_some hf
  obtain ⟨hmem, hle, hlt⟩ := find?_mem hfind
  have ha := h _ hmem
  cases binding with
  | vector place lanes => exact ha
  | array place length =>
    simp only [Binding.Aligned] at ha
    simp only [Binding.lanes] at hlt
    simp only [Binding.resolve]
    omega

end RegisterFile

end Microcode
