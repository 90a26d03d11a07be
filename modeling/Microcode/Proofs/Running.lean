import Microcode.Proofs.Recording
import Microcode.Proofs.Registers

/-!
Workspaces and the machines that run their code.

What holds of the state of a growing listing holds of every machine that was made for the finished
program: registers hold the same lanes and values have the same components.
-/

namespace Microcode

open Machine

variable {start : Nat → Nat → Lanes} {l : Listing} {r : RegisterFile} {w w' : Workspace}
  {S s s' : State} {p : Program}

/-- A workspace whose listing records what it counts, for the machine, with a well-formed register
file. -/
structure Workspace.Ready (w : Workspace) : Prop where
  consistent : w.listing.Consistent
  target : w.listing.target = .machine
  registers : w.registers.WellFormed w.listing

theorem Machine.Steps.within (h : Steps start w.listing s w'.listing s') :
    (Program.ofListing w.listing).Within (Program.ofListing w'.listing) := by
  generalize w.listing = l, w'.listing = l' at h
  induction h with
  | refl => exact .refl _
  | tail _ step ih => exact ih.trans step.within

theorem Listing.exists_fits (l : Listing) : ∃ s : State, s.Fits l := by
  refine ⟨⟨Array.replicate l.shapes.size (.replicate 0#32),
    l.vars.map fun v => Array.replicate v.length (.replicate 0#32), {}⟩, by simp, by simp, ?_⟩
  intro i hi
  simp [Array.getD_eq_getD_getElem?, hi]

namespace Machine

/-- Puts constants among values. -/
def State.setConstants (constants : List (Value × Lane)) (values : Array Lanes) : Array Lanes :=
  constants.foldl (fun values c => values.setIfInBounds c.1.index (single c.2)) values

theorem State.getD_setConstants_of_lt {constants : List (Value × Lane)} {i : Nat}
    (h : ∀ c ∈ constants, i < c.1.index) (values : Array Lanes) (d : Lanes) :
    (setConstants constants values).getD i d = values.getD i d := by
  induction constants generalizing values with
  | nil => rfl
  | cons c rest ih =>
    have hne := Nat.ne_of_gt (h c List.mem_cons_self)
    have := ih (fun c hc => h c (.tail _ hc)) (values.setIfInBounds c.1.index (single c.2))
    rw [setConstants, List.foldl_cons, ← setConstants, this]
    simp [Array.getD_eq_getD_getElem?, Array.getElem?_setIfInBounds_ne hne]

theorem State.size_setConstants (constants : List (Value × Lane)) (values : Array Lanes) :
    (setConstants constants values).size = values.size := by
  induction constants generalizing values with
  | nil => rfl
  | cons c rest ih => rw [setConstants, List.foldl_cons, ← setConstants, ih, Array.size_setIfInBounds]

theorem State.getD_setConstants {constants : List (Value × Lane)}
    (h : constants.Pairwise fun c d => c.1.index < d.1.index) {c : Value × Lane} (hc : c ∈ constants)
    {values : Array Lanes} (hlt : c.1.index < values.size) (d : Lanes) :
    (setConstants constants values).getD c.1.index d = single c.2 := by
  induction constants generalizing values with
  | nil => cases hc
  | cons e rest ih =>
    rw [List.pairwise_cons] at h
    rw [setConstants, List.foldl_cons, ← setConstants]
    rcases List.mem_cons.1 hc with rfl | hc
    · rw [getD_setConstants_of_lt h.1]
      simp [Array.getD_eq_getD_getElem?, hlt]
    · exact ih h.2 hc (by simpa using hlt)

theorem State.loaded_initial (l : Listing) :
    (State.initial (.ofListing l)).Loaded (.ofListing l) := by
  have hsound := Program.sound_ofListing l
  have hvalues : (State.initial (.ofListing l)).values = setConstants (Program.ofListing l).constants.toList
      (Array.replicate (Program.ofListing l).shapes.size (.replicate 0#32)) := by
    rw [initial, setConstants, ← Array.foldl_toList]
    rfl
  refine ⟨?_, by simp [initial], fun i hi => ?_, fun c hc => ?_⟩
  · rw [hvalues, size_setConstants, Array.size_replicate]
  · simp [initial, Array.getD_eq_getD_getElem?, hi]
  · rw [State.lanes, hvalues]
    exact getD_setConstants hsound.ordered (Array.mem_toList_iff.2 hc)
      (by simpa using hsound.constants c hc) _

theorem State.read_initial (p : Program) (place : Place) :
    (State.initial p).read place = .replicate 0#32 := by
  simp only [State.read, initial, Array.getD_eq_getD_getElem?, Array.getElem?_map]
  cases p.vars[place.variableIndex]? with
  | none => simp
  | some v =>
    simp only [Option.map_some, Option.getD_some, Array.getElem?_replicate]
    split <;> rfl

end Machine

namespace Workspace.Ready

theorem exists_good (h : w.Ready) : ∃ s, Good w s := by
  obtain ⟨s, hs⟩ := w.listing.exists_fits
  exact ⟨s, ⟨hs, h.target⟩, h.registers⟩

theorem good (h : w.Ready) (hS : S.Loaded p) (hp : (Program.ofListing w.listing).Within p) :
    Good w (S.upTo w.listing) :=
  ⟨⟨State.fits_upTo h.consistent hS hp, h.target⟩, h.registers⟩

/-- What a computation was shown to emit, on a machine of a program that its code is part of. -/
theorem exists_run {F : (Nat → Nat → Lanes) → Frame} {α : Type} {x : Emit α} {a : α}
    {Q : State → α → Workspace → State → Prop} {E : Error → Workspace → Prop} {l : Listing}
    (h : w.Ready) (admits : ∀ start s, Good w s → (F start).Admits w s)
    (steps : ∀ start s s', (F start).Rel w s w' s' → Steps start w.listing s w'.listing s')
    (spec : ∀ start s, Emits (F start) x w s (Q s) E) (ok : x w = .ok a w')
    (hl : w'.listing.entries.toList <+: l.entries.toList) (hS : S.Loaded (.ofListing l)) :
    ∃ s', (F S.held).Rel w (S.upTo w.listing) w' s' ∧ Q (S.upTo w.listing) a w' s' ∧
      w'.listing.Consistent ∧ (S.runSince (.ofListing l) w.listing w'.listing).Loaded (.ofListing l) ∧
      (S.runSince (.ofListing l) w.listing w'.listing).Shows S.held w'.listing s' := by
  have hin' := Program.within_ofListing hl
  obtain ⟨s0, good0⟩ := h.exists_good
  obtain ⟨s1, r0, -⟩ := (spec (fun _ _ => .replicate 0#32) s0).of_ok (admits _ _ good0) ok
  have hin := (steps _ _ _ r0).within.trans hin'
  obtain ⟨s', r, hQ⟩ := (spec S.held _).of_ok (admits _ _ (h.good hS hin)) ok
  exact ⟨s', r, hQ, (steps _ _ _ r).runSince h.consistent hS hin' hin⟩

end Workspace.Ready

namespace Machine.State.Shows

theorem content (h : S.Shows start l s) {found : Resolved} (hf : found.register.Valid l) :
    found.content S = found.content s := by
  rw [Resolved.content, Resolved.content, h.read hf.place.declared]

theorem laneAt (h : S.Shows start l s) (hr : r.WellFormed l) (bank : Bank) (lane : Nat) :
    r.laneAt S bank lane = r.laneAt s bank lane := by
  rw [RegisterFile.laneAt, RegisterFile.laneAt]
  cases hf : r.resolved? bank lane with
  | none => rfl
  | some found => simp only [h.content (hr.resolved?_covers hf).2.2]

theorem predicateAt (h : S.Shows start l s) (hr : r.WellFormed l) {slot : Nat} (hslot : slot < 4) :
    r.predicateAt S slot = r.predicateAt s slot := by
  rw [RegisterFile.predicateAt, RegisterFile.predicateAt]
  cases hp : r.predicates.get slot with
  | none => rfl
  | some place => rw [Option.map_some, Option.map_some, h.read (hr.predicate hslot hp).declared]

theorem lane (h : S.Shows start w.listing s) (hl : w.listing.Consistent)
    (hp : (Program.ofListing w.listing).Within p) {v : Value} {scalar : Scalar} {lanes : List Lane}
    (hv : Holds w s v scalar lanes) {i : Nat} (hi : i < lanes.length) :
    S.lane p v i = lanes.getD i 0#32 := by
  have hshape : p.countOf v = (Program.ofShapes w.listing.shapes).countOf v := by
    rw [Program.countOf, shapeOf_of_within hp hl hv.defined]
    rfl
  rw [State.lane, hshape, h.values v hv.defined]
  exact hv.lane hi

end Machine.State.Shows

end Microcode
