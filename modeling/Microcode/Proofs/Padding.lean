import Microcode.Proofs.Attributes
import Microcode.Proofs.Backing

/-!
Zeros in the place of lanes.

A load walks from register to register and fills what is left with zeros where it finds none.  Every
group of four lanes of which nothing is bound gets a register of its own, but a group with a bound
lane is left as it is, so that a lane that nothing is bound to may come before one that something is
bound to.  A load that starts before such a hole reads zeros from there on.
-/

namespace Microcode

open Machine Emit Access RegisterFile

/-! ## Register files with storage for every free group -/

/-- A workspace without code: it has bindings only, and none of them is empty. -/
structure Workspace.Bare (w : Workspace) : Prop where
  ready : w.Ready
  fresh : w.registers.Fresh w.listing
  nonempty : ∀ bank, ∀ e ∈ (w.registers.tables bank).entries, 0 < e.2.lanes

namespace RegisterFile

variable {l : Listing} {r : RegisterFile} {bank : Bank} {group : Nat}

theorem Fresh.bind_group (h : r.Fresh l) (v : Variable) (hshape : v.shape = Shape.group)
    (hpos : ∀ e ∈ (r.tables bank).entries, 0 < e.2.lanes)
    (hfree : r.IsFree bank group) :
    (r.bind bank group (.vector (l.declare v).1 4)).Fresh (l.declare v).2 where
  shadows := h.shadows
  predicates := h.predicates
  disjoint b := by
    by_cases hb : b = bank
    · subst hb
      simp only [bind, if_true]
      exact (h.disjoint b).insert (show 0 < 4 by decide) fun e he =>
        hfree.outside (h.disjoint b) he (hpos e he)
    · simp only [bind, if_neg hb]
      exact h.disjoint b
  valid b e he := by
    rcases mem_bind he with ⟨-, rfl⟩ | he
    · have := l.valid_declare v
      rw [hshape] at this
      exact ⟨this, by decide, by decide⟩
    · have hvalid := h.valid b e he
      have hl := l.extends_declare v
      cases hbinding : e.2 with
      | vector place lanes =>
        rw [hbinding] at hvalid
        exact ⟨hvalid.1.mono hl, hvalid.2⟩
      | array place length =>
        rw [hbinding] at hvalid
        refine ⟨hl.declares hvalid.1, ?_⟩
        rw [hl.variableAt hvalid.1]
        exact hvalid.2
  own b b' e he e' he' hvar := by
    have old {b : Bank} {e : Nat × Binding} (he : e ∈ (r.tables b).entries) :
        e.2.place.variableIndex < l.vars.size := by
      have hvalid := h.valid b e he
      cases hbinding : e.2 with
      | vector place lanes =>
        rw [hbinding] at hvalid
        exact hvalid.1.declared
      | array place length =>
        rw [hbinding] at hvalid
        exact hvalid.1
    have new : (l.declare v).1.variableIndex = l.vars.size := rfl
    rcases mem_bind he with ⟨rfl, rfl⟩ | hold <;> rcases mem_bind he' with ⟨rfl, rfl⟩ | hold'
    · exact ⟨rfl, rfl⟩
    · exact absurd (old hold') (by rw [← hvar]; exact Nat.lt_irrefl _)
    · exact absurd (old hold) (by rw [hvar]; exact Nat.lt_irrefl _)
    · exact h.own b b' e hold e' hold' hvar

end RegisterFile

namespace Workspace.Bare

variable {w w' : Workspace}

theorem leads_declareGroup (h : w.Bare) (bank : Bank) (k : Nat) :
    (Footprint.free fun _ => True).Leads (declareGroup bank k) w fun _ w' => w'.Bare := by
  unfold declareGroup
  apply Footprint.Leads.getRegisters
  refine .ite (fun _ => .pure h) fun hfree => ⟨trivial, ?_⟩
  have hfresh := h.fresh.bind_group ⟨bank.name ++ toString (4 * k), Shape.group, .hidden⟩ rfl
    (h.nonempty bank) (isFree_iff.2 hfree)
  refine ⟨⟨h.ready.consistent.add (.declare _), h.ready.target, hfresh.wellFormed⟩, hfresh,
    fun b e he => ?_⟩
  rcases mem_bind he with ⟨-, rfl⟩ | he
  · exact show 0 < 4 by decide
  · exact h.nonempty b e he

theorem declareRegisterFiles {s : Shader} (h : w.Bare)
    (hdeclared : Assembly.declareRegisterFiles s w = .ok () w') : w'.Bare := by
  have hleads := Footprint.Leads.forM (groupsOf s.files) h fun group _ _ _ h =>
    leads_declareGroup h group.1 group.2
  unfold Footprint.Leads at hleads
  rw [← declareBanks_eq, ← declareRegisterFiles_eq, hdeclared] at hleads
  exact hleads.2

end Workspace.Bare

/-! ## Holes before a lane -/

/-- Nothing is bound to a lane between the first one that a load gathers and that of the storage
component. -/
def Operand.PastHole (op : Operand) (r : RegisterFile) (mask : Mask) (sub : Int) (c : Nat) : Prop :=
  ∃ b ∈ op.storageOf mask, ∃ k : Nat, b ≤ k ∧ k ≤ c ∧
    r.bound? op.bank (laneNumber op.bank op.num (sub + k)).toNat = none

/-- Code may have been emitted, but nothing has been stored to a primary attribute. -/
structure Workspace.Unstored (w : Workspace) : Prop where
  ready : w.Ready
  unshadowed : ∀ group, w.registers.shadow? .primaryAttribute group = none

namespace Workspace.Unstored

variable {w : Workspace}

theorem held? (h : w.Unstored) (lane : Nat) : w.registers.held? .primaryAttribute lane = none := by
  rw [RegisterFile.held?, h.unshadowed]
  rfl

theorem laneAt (h : w.Unstored) (s : State) (lane : Nat) :
    w.registers.laneAt s .primaryAttribute lane =
      (w.registers.bound? .primaryAttribute lane).map (·.content s) := by
  rw [RegisterFile.laneAt, RegisterFile.resolved?, h.held?, Option.none_or]
  cases w.registers.bound? .primaryAttribute lane <;> rfl

/-- What is gathered from a lane on: zeros after a hole and what is bound before it. -/
theorem getD_lanesFrom (h : w.Unstored) (s : State) (number : Nat) {count j : Nat} (hj : j < count)
    (hsmall : number + j < 0x100000000) :
    ((∃ hole, number ≤ hole ∧ hole ≤ number + j ∧
        w.registers.bound? .primaryAttribute hole = none) →
      (w.registers.lanesFrom s .primaryAttribute count number count).getD j 0#32 = 0#32) ∧
    ((∀ lane, number ≤ lane → lane ≤ number + j →
        w.registers.bound? .primaryAttribute lane ≠ none) →
      (w.registers.bound? .primaryAttribute (number + j)).map (·.content s) =
        some ((w.registers.lanesFrom s .primaryAttribute count number count).getD j 0#32)) := by
  constructor
  · rintro ⟨hole, hle, hhole, hnone⟩
    exact h.ready.registers.getD_lanesFrom_hole (by decide) (Nat.le_refl _) hj hle hhole (by omega)
      (fun k _ _ => h.held? k) hnone
  · intro hbound
    have hunbroken : w.registers.Unbroken .primaryAttribute := fun lane found _ _ j _ => h.held? _
    have hlane : w.registers.laneAt s .primaryAttribute ((number : Int) + j).toNat = _ :=
      h.ready.registers.getD_lanesFrom (Nat.le_refl count) (fun _ => hunbroken) hj fun i hi => by
        refine ⟨by omega, ?_⟩
        rw [show ((number : Int) + i).toNat = number + i by omega, h.laneAt, Option.isSome_map]
        exact Option.isSome_iff_ne_none.2 (hbound _ (by omega) (by omega))
    rwa [show ((number : Int) + j).toNat = number + j by omega, h.laneAt] at hlane

end Workspace.Unstored

theorem Workspace.Bare.unstored {w : Workspace} (h : w.Bare) : w.Unstored :=
  ⟨h.ready, h.fresh.shadow? .primaryAttribute⟩

/-- A component of a load reads zero past a hole, and what is bound to its lane otherwise. -/
theorem Operand.gathered_unstored {w : Workspace} (s : State) {op : Operand} {mask : Mask} {sub : Int}
    (h : w.Unstored) (hbank : op.bank = .primaryAttribute) (hratio : op.storage.ratio = 1)
    (hreach : op.Starts w.registers mask sub) {c : Nat}
    (hc : c ∈ op.storageOf mask) (hsmall : laneNumber op.bank op.num (sub + c) < 0x100000000) :
    (op.PastHole w.registers mask sub c → op.gathered w.registers s mask sub c = 0#32) ∧
      (¬ op.PastHole w.registers mask sub c →
        (w.registers.bound? op.bank (laneNumber op.bank op.num (sub + c)).toNat).map (·.content s) =
          some (op.gathered w.registers s mask sub c)) := by
  obtain ⟨lo, hi, hspan⟩ := exists_span hc
  obtain ⟨⟨least, hmem, hlo⟩, -, hall⟩ := span?_eq_some hspan
  simp only [hratio, Nat.div_one] at hlo hall
  subst least
  have hbounds := hall c hc
  obtain ⟨number, hnumber⟩ : ∃ n : Nat, laneNumber op.bank op.num (sub + lo) = n :=
    ⟨_, (Int.toNat_of_nonneg (hreach lo hi hspan).1).symm⟩
  have hlane (k : Nat) (hk : lo ≤ k) :
      laneNumber op.bank op.num (sub + k) = (number + (k - lo) : Nat) := by
    rw [laneNumber_of_le _ _ _ hk, hnumber]
    rfl
  rw [hlane c hbounds.1] at hsmall ⊢
  rw [gathered_of_span hspan, hnumber]
  obtain ⟨hzero, hbound⟩ := h.getD_lanesFrom s number (show c - lo < hi - lo + 1 by omega) (by omega)
  rw [← hbank] at hzero hbound
  refine ⟨fun hpast => hzero ?_, fun hno => hbound fun lane hle hlt hnone => hno ?_⟩
  · obtain ⟨b, hb, k, hbk, hkc, hnone⟩ := hpast
    have := (hall b hb).1
    rw [hlane k (by omega), Int.toNat_natCast] at hnone
    exact ⟨_, by omega, by omega, hnone⟩
  · refine ⟨lo, hmem, lo + (lane - number), by omega, by omega, ?_⟩
    rw [hlane _ (by omega), Int.toNat_natCast,
      show number + (lo + (lane - number) - lo) = lane by omega]
    exact hnone

/-- With storage for all free groups and before anything is stored to primary attributes, a load of
them gives each component the lane that is bound to it, unless a lane to which nothing is bound comes
before it in the load: then it gives zero, whether anything is bound to its own lane or not. -/
theorem load_zero_past_hole (w : Workspace) :
    (∀ (s : Shader) (w₀ : Workspace), w₀.Bare →
      Assembly.declareRegisterFiles s w₀ = .ok () w → w.Unstored) ∧
    (w.Unstored → ∀ (w' : Workspace) (ctx : Context) (op : Operand) (mask : Mask) (sub : Int)
      (v : Value), op.bank = .primaryAttribute → op.element = .f32 →
      Access.load ctx op mask sub w = .ok v w' →
    ∀ l : Listing, w'.listing.entries.toList <+: l.entries.toList →
    ∀ S : State, S.Loaded (.ofListing l) → ∀ j i, (Mask.components mask)[j]? = some i →
    ∀ c : Nat, (op.swizzle.get i).storage? = some c →
      laneNumber op.bank op.num (sub + c) < 0x100000000 →
      let x := (S.runSince (.ofListing l) w.listing w'.listing).lane (.ofListing l) v j
      (op.PastHole w.registers mask sub c → x = op.modifiers.apply .f32 0#32) ∧
      (¬ op.PastHole w.registers mask sub c → ∃ found,
        w.registers.bound? op.bank (laneNumber op.bank op.num (sub + c)).toNat = some found ∧
          x = op.modifiers.apply .f32 (found.content S))) := by
  refine ⟨fun s w₀ bare declared => (bare.declareRegisterFiles declared).unstored, ?_⟩
  intro unstored w' ctx op mask sub v primary whole loaded l hl S hS j i hji c hc hsmall
  have hop : op.IsAttribute := ⟨by rw [primary]; rfl, whole⟩
  have hratio : op.storage.ratio = 1 := by rw [hop.storage]; rfl
  have spec (start : Nat → Nat → Lanes) (s : State) :
      Emits (.keeps start) (Access.load ctx op mask sub) w s _ _ :=
    emits_load ctx hop.isRegister (nonempty_of_load loaded) sub
  have hin' := Program.within_ofListing hl
  obtain ⟨s₀, good₀⟩ := unstored.ready.exists_good
  obtain ⟨_, k₀, -⟩ := (spec (fun _ _ => .replicate 0#32) s₀).of_ok good₀ loaded
  have hin := k₀.steps.within.trans hin'
  obtain ⟨s₁, k, hv, hreach, -⟩ := (spec S.held _).of_ok (unstored.ready.good hS hin) loaded
  obtain ⟨consistent, -, hshows⟩ := k.steps.runSince unstored.ready.consistent hS hin' hin
  obtain ⟨hj, rfl⟩ := List.getElem?_eq_some_iff.1 hji
  have hmem : c ∈ op.storageOf mask := Operand.mem_storageOf.2 ⟨_, List.getElem_mem hj, hc⟩
  have hx := hshows.lane consistent hin' hv (by simpa using hj)
  rw [List.getD_eq_getElem _ _ (by simpa using hj), List.getElem_map, Operand.reads, hc] at hx
  simp only [Element.decode_whole _ hratio, hratio, Nat.div_one] at hx
  rw [hop.storage, show Element.f32.scalar = .f32 from rfl] at hx
  obtain ⟨hzero, hbound⟩ := Operand.gathered_unstored (S.upTo w.listing) unstored primary hratio hreach
    hmem hsmall
  refine ⟨fun hpast => by rw [hx, hzero hpast], fun hno => ?_⟩
  obtain ⟨found, hfound, hcontent⟩ := Option.map_eq_some_iff.1 (hbound hno)
  refine ⟨found, hfound, ?_⟩
  rw [hx, ← hcontent, (State.shows_upTo w.listing S).content (unstored.ready.registers.bound hfound)]

theorem bare_twoAttributes : twoAttributes.Bare :=
  ⟨ready_twoAttributes, fresh_twoAttributes, hosted_twoAttributes.nonempty⟩

/-- Nothing is bound to lane 3, and a load of the lanes from 2 on reads zero from lane 4, which has
storage. -/
theorem load_zero_past_hole_of_two : ∃ w v w',
    Assembly.declareRegisterFiles eightAttributes twoAttributes = .ok () w ∧
    Access.load {} (.ofRegister .primaryAttribute 2 .f32) 7 0 w = .ok v w' ∧
    (w.registers.bound? .primaryAttribute 4).isSome = true ∧
    ∀ S : State, S.Loaded (.ofListing w'.listing) →
      let x := (S.runSince (.ofListing w'.listing) w.listing w'.listing).lane (.ofListing w'.listing) v
      x 0 = (S.read ⟨1, []⟩).x ∧ x 2 = 0#32 := by
  obtain ⟨_, w, declared, run⟩ := Emit.exists_of_passes
    (Assembly.declareRegisterFiles eightAttributes) twoAttributes
    (fun _ w => decide (w.registers.bound? .primaryAttribute 2 = some ⟨⟨⟨1, []⟩, 1, 2⟩, 0⟩ ∧
      w.registers.bound? .primaryAttribute 3 = none ∧
      (w.registers.bound? .primaryAttribute 4).isSome = true) &&
        (Access.load {} (.ofRegister .primaryAttribute 2 .f32) 7 0).passes w fun _ _ => true)
    (by decide +kernel)
  rw [Bool.and_eq_true, decide_eq_true_eq] at run
  obtain ⟨⟨hlast, hhole, hnext⟩, hloads⟩ := run
  obtain ⟨v, w', loaded, -⟩ := Emit.exists_of_passes _ _ _ hloads
  have unstored := (load_zero_past_hole w).1 eightAttributes twoAttributes bare_twoAttributes declared
  refine ⟨w, v, w', declared, loaded, hnext, fun S hS => ?_⟩
  have hload := (load_zero_past_hole w).2 unstored w' {} _ 7 0 v rfl rfl loaded _ ⟨[], by simp⟩ S hS
  constructor
  · obtain ⟨found, hfound, hx⟩ := (hload 0 0 rfl 0 rfl (by decide)).2 (by
      rintro ⟨b, -, k, -, hk, hnone⟩
      obtain rfl : k = 0 := Nat.le_zero.1 hk
      exact absurd (hlast.symm.trans hnone) nofun)
    obtain rfl := Option.some.inj (hlast.symm.trans hfound)
    exact hx
  · exact (hload 2 2 rfl 2 rfl (by decide)).1 ⟨0, by decide, 1, by decide, by decide, hhole⟩

end Microcode
