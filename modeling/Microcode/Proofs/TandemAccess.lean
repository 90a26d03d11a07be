import Microcode.Proofs.TandemRegisters

/-!
Operands of guarded code and of the same code without guards.

Reading an operand is the same computation on both sides.  Writing one differs only in the last
step, where the left side puts what the guard selects into storage and the right side the value
itself.
-/

namespace Microcode
namespace Tandem

open Emit Access List

variable (bank : Bank) (ctx : Context) (element : Element) (shift sub : Int) (mask : Mask)
  (num : Nat) (dest op : Operand) (swizzle : Swizzle) (v v' : Value) {α : Type}
  {parts parts' : List (Nat × Value)}

variable {σ : Course} {W : Tandem σ}

set_option synthInstance.maxSize 10000

/-! ## Swizzles and divided lanes -/

instance sided_pick (total : Nat) (channel : Channel) :
    Sided W (pick total shift channel) (pick total shift channel) := by
  unfold pick
  split <;> infer_instance

instance sided_bridge (left right left' right' : Value) [Twins W left left']
    [Twins W right right'] :
    Sided W (bridge left right swizzle shift mask) (bridge left' right' swizzle shift mask) := by
  unfold bridge
  iterate 4
    apply Sided.data_cases
    intro _ _
  split <;> infer_instance

instance sided_modify (m : Modifiers) [Twins W v v'] :
    Sided W (Access.modify m v) (Access.modify m v') := by
  unfold Access.modify
  infer_instance

instance sided_splitBits (lane lane' : Value) (width : Nat) (signed : Bool) [Twins W lane lane'] :
    Sided W (splitBits lane width signed) (splitBits lane' width signed) := by
  unfold splitBits
  infer_instance

instance sided_joinBits (bits bits' : Value) (width : Nat) [Twins W bits bits'] :
    Sided W (joinBits bits width) (joinBits bits' width) := by
  unfold joinBits
  infer_instance

instance sided_unpackLane (lane lane' : Value) [Twins W lane lane'] :
    Sided W (unpackLane ctx lane element) (unpackLane ctx lane' element) := by
  unfold unpackLane
  split <;> infer_instance

instance sided_asUnsigned [Twins W v v'] : Sided W (asUnsigned v) (asUnsigned v') := by
  unfold asUnsigned
  infer_instance

instance sided_toUnorm (maximum : Lane) [Twins W v v'] :
    Sided W (toUnorm v maximum) (toUnorm v' maximum) := by
  unfold toUnorm
  infer_instance

instance sided_packLane (elements elements' : Value) [Twins W elements elements'] :
    Sided W (packLane ctx elements element) (packLane ctx elements' element) := by
  unfold packLane
  split <;> infer_instance

theorem isEmpty_eq {α : Type} [Related σ α] {as bs : List α} (h : Related.rel W as bs) :
    bs.isEmpty = as.isEmpty := by
  cases h <;> rfl

instance twins_take [Related σ α] (as bs : List α) (n : Nat) [h : Twins W as bs] :
    Twins W (as.take n) (bs.take n) := ⟨forall₂_take n h.rel⟩

instance twins_drop [Related σ α] (as bs : List α) (n : Nat) [h : Twins W as bs] :
    Twins W (as.drop n) (bs.drop n) := ⟨forall₂_drop n h.rel⟩

instance sided_unpack (packed packed' : Value) [Twins W packed packed'] :
    Sided W (unpack ctx packed element swizzle mask shift)
      (unpack ctx packed' element swizzle mask shift) := by
  unfold unpack
  apply Sided.data_cases
  intro W1 lanes
  apply Sided.bind_cases
  intro W2 parts
  simp only [splitParts, splitAt_eq, isEmpty_eq (forall₂_drop _ parts.rel)]
  infer_instance

/-! ## Reading -/

/-- Segments of corresponding values. -/
instance : Related σ Segment where
  rel W a b := W.Val a.value b.value ∧ b.start = a.start ∧ b.take = a.take
  later h hs := ⟨hs.1.later h, hs.2⟩

instance twins_segment (start take : Nat) [h : Twins W v v'] :
    Twins W (Segment.mk v start take) (Segment.mk v' start take) := ⟨h.rel, rfl, rfl⟩

instance twins_value (s s' : Segment) [h : Twins W s s'] : Twins W s.value s'.value := ⟨h.rel.1⟩

theorem sim_gatherFrom (bank : Bank) (num : Nat) (first : Int) (fuel got remaining : Nat) :
    W.Sim (gatherFrom bank num first fuel got remaining)
      (gatherFrom bank num first fuel got remaining) Related.rel := by
  induction fuel generalizing W got remaining with
  | zero => exact .pure .nil
  | succ fuel ih =>
    rw [gatherFrom]
    apply Sim.ite (fun _ => .pure .nil)
    intro _
    apply Sim.bind (sided_offset (first + got)).sim
    rintro W1 sub _ - rfl
    apply sim_attempt_resolve
    · intro W2 found found' _ hfound
      have : Twins W2 found.register.place found'.register.place := ⟨hfound.1.place⟩
      simp only [hfound.1.lanes, hfound.2]
      apply Sim.bind (sided_load found.register.place found'.register.place).sim
      intro W3 v v' _ hv
      apply Sim.bind (ih _ _)
      intro W4 rest rest' hlater hrest
      exact .pure (.cons ⟨hv.later hlater, rfl, rfl⟩ hrest)
    · intro e e' he he'
      by_cases hgot : got = 0
      · simp only [hgot]
        exact .throw
      · simp only [hgot, he, he', decide_false, Bool.false_or, Bool.false_eq_true, if_false]
        exact Sided.sim
    · intro w a w' h
      simp only [decide_true, Bool.or_true, if_true] at h
      cases h
    · intro w a w' h
      simp only [decide_true, Bool.or_true, if_true] at h
      cases h

instance sided_gather (first : Int) (count : Nat) :
    Sided W (gather bank num first count) (gather bank num first count) :=
  ⟨sim_gatherFrom bank num first count 0 count⟩

instance sided_compactSegment (s s' : Segment) [h : Twins W s s'] :
    Sided W s.compact s'.compact := by
  unfold Segment.compact
  rw [h.rel.2.1, h.rel.2.2]
  infer_instance

instance sided_compact (segments segments' : List Segment) [Twins W segments segments'] :
    Sided W (compact segments) (compact segments') := by
  unfold compact
  infer_instance

instance sided_twoValues (segments segments' : List Segment) [h : Twins W segments segments'] :
    Sided W (twoValues segments) (twoValues segments') := by
  have hcompact : Sided W (do let v ← compact segments; return (v, v, 0))
      (do let v ← compact segments'; return (v, v, 0)) := inferInstance
  unfold twoValues
  obtain _ | ⟨ha, _ | ⟨hb, _ | _⟩⟩ := h.rel
  · exact hcompact
  · exact ⟨.pure ⟨ha.1, ha.1, ha.2.1.symm⟩⟩
  · rename_i a a' b b'
    have : Twins W a.value a'.value := ⟨ha.1⟩
    have : Twins W b.value b'.value := ⟨hb.1⟩
    have : Twins W a.start a'.start := ⟨ha.2.1.symm⟩
    simp only [hb.2.1]
    infer_instance
  · exact hcompact

instance sided_literalChannels (scalar : Scalar) :
    Sided W (literalChannels scalar swizzle mask) (literalChannels scalar swizzle mask) := by
  unfold literalChannels
  infer_instance

instance sided_loadRegister :
    Sided W (loadRegister ctx op mask sub) (loadRegister ctx op mask sub) := by
  unfold loadRegister
  dsimp only
  split
  · apply Sided.data_cases
    intro W1 first
    apply Sided.bind_cases
    intro W2 segments
    by_cases hratio : op.storage.ratio = 1
    · simp only [hratio, if_true]
      apply Sided.bind_cases
      intro W3 two
      have hstart : two.right.2.2 = two.left.2.2 := two.rel.2.2.symm
      simp only [hstart]
      infer_instance
    · simp only [hratio, if_false]
      infer_instance
  · infer_instance

instance sided_loadConstant : Sided W (loadConstant ctx op mask) (loadConstant ctx op mask) := by
  unfold loadConstant
  refine @sided_bind _ _ _ _ _ _ _ _ _ _ (@sided_mapM _ _ _ _ _ _ _ _ fun W' i => ?_) inferInstance
  dsimp only
  split
  · infer_instance
  · apply Sided.data_cases
    intro W1 index
    split <;> infer_instance

instance sided_loadImmediate : Sided W (loadImmediate op mask) (loadImmediate op mask) := by
  unfold loadImmediate
  dsimp only
  split <;> infer_instance

instance sided_predicateNumber : Sided W (predicateNumber op sub) (predicateNumber op sub) := by
  unfold predicateNumber
  infer_instance

instance sided_access_load :
    Sided W (Access.load ctx op mask sub) (Access.load ctx op mask sub) := by
  unfold Access.load
  dsimp only
  generalize op.bank = bank
  cases bank <;> infer_instance

/-! ## Writing -/

instance sided_toFloat (source : Element) (scale : Bool) [Twins W v v'] :
    Sided W (toFloat v source scale) (toFloat v' source scale) := by
  unfold toFloat
  infer_instance

instance sided_ofFloat (dest : Element) (scale : Bool) [Twins W v v'] :
    Sided W (ofFloat v dest scale) (ofFloat v' dest scale) := by
  unfold ofFloat
  infer_instance

instance sided_coerce (scalar : Scalar) (keepBits : Bool) [Twins W v v'] :
    Sided W (coerce v scalar keepBits) (coerce v' scalar keepBits) := by
  unfold coerce
  infer_instance

instance sided_component (channel ordinal : Nat) [Twins W v v'] :
    Sided W (component v channel ordinal) (component v' channel ordinal) := by
  unfold component
  apply Sided.data_cases
  intro W1 count
  split <;> infer_instance

instance sided_channels [Twins W v v'] :
    Sided W (channels v element mask) (channels v' element mask) := by
  unfold channels
  infer_instance

instance twins_place (found found' : Resolved) [h : Twins W found found'] :
    Twins W found.register.place found'.register.place := ⟨h.rel.1.place⟩

theorem lanes_right (found : Pair W Resolved) :
    found.right.register.lanes = found.left.register.lanes := found.rel.1.lanes

theorem offset_right (found : Pair W Resolved) : found.right.offset = found.left.offset :=
  found.rel.2

instance sided_currentElements :
    Sided W (currentElements ctx dest sub) (currentElements ctx dest sub) := by
  unfold currentElements
  apply Sided.bind_cases
  intro W1 found
  simp only [lanes_right, offset_right]
  infer_instance

theorem lookup_twins (h : Related.rel W parts parts') (c : Nat) :
    Option.Rel W.Val (parts.lookup c) (parts'.lookup c) :=
  lookup_rel (List.Forall₂.imp (fun _ _ h => ⟨Eq.symm h.1, h.2⟩) h) c

theorem isSome_lookup_eq (h : Related.rel W parts parts') (c : Nat) :
    (parts'.lookup c).isSome = (parts.lookup c).isSome :=
  isSome_eq_of_rel (lookup_twins h c)

instance twins_none [Related σ α] : Twins W (none : Option α) none := ⟨.none⟩

instance twins_some [Related σ α] (a b : α) [h : Twins W a b] :
    Twins W (some a) (some b) := ⟨.some h.rel⟩

/-- A channel is written on both sides or on neither, and the old elements are there on both sides
or on neither. -/
theorem sided_mergedElement (parts parts' : List (Nat × Value)) (old old' : Option Value)
    (c index : Nat) (zero : Constant) [hparts : Twins W parts parts'] [hold : Twins W old old'] :
    Sided W
      (match parts.lookup c, old with
        | some part, _ => pure part
        | none, some old => extract old index
        | none, none => constant zero)
      (match parts'.lookup c, old' with
        | some part, _ => pure part
        | none, some old => extract old index
        | none, none => constant zero) := by
  have hpart := lookup_twins hparts.rel c
  generalize parts.lookup c = part at hpart ⊢
  generalize parts'.lookup c = part' at hpart ⊢
  cases hpart with
  | some hpart => exact ⟨.pure hpart⟩
  | none =>
    obtain ⟨hold⟩ := hold
    cases hold with
    | none => infer_instance
    | @some v v' hv =>
      have : Twins W v v' := ⟨hv⟩
      infer_instance

instance sided_mergeLane (lane : Nat) (parts parts' : List (Nat × Value))
    [h : Twins W parts parts'] :
    Sided W (mergeLane ctx dest sub lane parts) (mergeLane ctx dest sub lane parts') := by
  unfold mergeLane
  extract_lets element slots rest rest'
  have hrest (W1 : After W) (old : Pair W1.tandem (Option Value)) :
      Sided W1.tandem (rest old.left) (rest' old.right) := by
    have (W2 : After W1.tandem) (c : Nat) := @sided_mergedElement σ W2.tandem parts parts' old.left
      old.right c (c - lane * element.ratio) (.zero element.scalar) _ _
    unfold rest rest'
    infer_instance
  have (W1 : After W) (W2 : After W1.tandem) (old : Pair W2.tandem (Option Value)) :
      Sided W2.tandem (rest old.left) (rest' old.right) :=
    hrest ⟨W2.tandem, W1.later.trans W2.later⟩ old
  simp only [isSome_lookup_eq h.rel]
  infer_instance

theorem isTouched_eq (h : Related.rel W parts parts') (ratio lane : Nat) :
    isTouched ratio lane parts' = isTouched ratio lane parts := by
  simp only [isTouched, isSome_lookup_eq h]

instance sided_laneWrites (parts parts' : List (Nat × Value)) [h : Twins W parts parts'] :
    Sided W (laneWrites ctx dest sub parts) (laneWrites ctx dest sub parts') := by
  unfold laneWrites
  simp only [isTouched_eq h.rel]
  infer_instance

theorem sameRegister_eq {a a' b b' : Register} (ha : a.Matches W.map a') (hb : b.Matches W.map b') :
    sameRegister W.right.listing a' b' = sameRegister W.left.listing a b := by
  have hvariable : a'.place.variableIndex = b'.place.variableIndex ↔
      a.place.variableIndex = b.place.variableIndex :=
    (W.injective _ ha.place.mem _ hb.place.mem).symm
  simp only [sameRegister, Listing.samePlace, W.goodLeft.live.target, W.goodRight.live.target,
    ha.lanes, ha.base, hb.lanes, hb.base, ha.place.path, hb.place.path, hvariable]

instance twins_addToGroup (found found' : Resolved)
    (groups groups' : List (Register × List (Nat × Value))) [hfound : Twins W found found']
    [hv : Twins W v v'] [hgroups : Twins W groups groups'] :
    Twins W (addToGroup W.left.listing found v groups)
      (addToGroup W.right.listing found' v' groups') := by
  have hnew : Related.rel W (found.offset, v) (found'.offset, v') := ⟨hfound.rel.2.symm, hv.rel⟩
  constructor
  obtain ⟨hgroups⟩ := hgroups
  induction hgroups with
  | nil => exact .cons ⟨hfound.rel.1, .cons hnew .nil⟩ .nil
  | @cons group group' rest rest' hgroup hrest ih =>
    obtain ⟨register, lanes⟩ := group
    obtain ⟨register', lanes'⟩ := group'
    rw [addToGroup, addToGroup, sameRegister_eq hgroup.1 hfound.rel.1]
    by_cases hsame : sameRegister W.left.listing register found.register = true
    · rw [if_pos hsame, if_pos hsame]
      exact .cons ⟨hgroup.1, rel_append hgroup.2 (.cons hnew .nil)⟩ hrest
    · rw [if_neg hsame, if_neg hsame]
      exact .cons hgroup ih

instance sided_groupLanes (writes writes' : List (Nat × Value)) [Twins W writes writes'] :
    Sided W (groupLanes bank num sub writes) (groupLanes bank num sub writes') := by
  unfold groupLanes
  apply Sided.foldlM_cases
  intro W1 groups write
  obtain ⟨⟨lane, v⟩, ⟨lane', v'⟩, hlane, hv⟩ := write
  obtain rfl : lane = lane' := hlane
  have : Twins W1.tandem v v' := ⟨hv⟩
  infer_instance

theorem findIdx?_eq {lanes lanes' : List (Nat × Value)} (h : Related.rel W lanes lanes') (j : Nat) :
    (lanes'.findIdx? fun (index, _) => index = j) = lanes.findIdx? fun (index, _) => index = j := by
  induction h with
  | nil => rfl
  | @cons lane lane' _ _ hlane _ ih =>
    have hindex : lane'.1 = lane.1 := Eq.symm hlane.1
    rw [findIdx?_cons, findIdx?_cons, ih]
    simp only [hindex]

instance twins_map_snd (lanes lanes' : List (Nat × Value)) [h : Twins W lanes lanes'] :
    Twins W (lanes.map Prod.snd) (lanes'.map Prod.snd) := by
  constructor
  show List.Forall₂ W.Val _ _
  rw [forall₂_map_left_iff, forall₂_map_right_iff]
  exact List.Forall₂.imp (fun _ _ h => h.2) h.rel

instance sided_replaceLanes (register register' : Register) (lanes lanes' : List (Nat × Value))
    [hr : Twins W register register'] [h : Twins W lanes lanes'] :
    Sided W (replaceLanes register lanes) (replaceLanes register' lanes') := by
  have : Twins W register.place register'.place := ⟨hr.rel.place⟩
  unfold replaceLanes
  simp only [hr.rel.lanes, List.Forall₂.length_eq h.rel, findIdx?_eq h.rel]
  -- One lane is inserted, and several go through a value of their own.
  obtain _ | @⟨lane, lane', _, _, hlane, _ | _⟩ := h.rel
  · infer_instance
  · have hindex : lane.1 = lane'.1 := hlane.1
    have : Twins W lane.2 lane'.2 := ⟨hlane.2⟩
    simp only [hindex]
    infer_instance
  · infer_instance

instance sided_writeRegister (register register' : Register) [h : Twins W register register']
    [Twins W v v'] :
    Sided W (writeRegister register v (some σ.guard)) (writeRegister register' v' none) := by
  have : Twins W register.place register'.place := ⟨h.rel.place⟩
  unfold writeRegister
  infer_instance

instance sided_writeLanes (writes writes' : List (Nat × Value)) [Twins W writes writes'] :
    Sided W (writeLanes bank num sub writes (some σ.guard))
      (writeLanes bank num sub writes' none) := by
  unfold writeLanes
  apply Sided.bind_cases
  intro W1 groups
  apply Sided.forM_cases
  intro W2 group
  infer_instance

instance sided_storePredicate [Twins W v v'] :
    Sided W (storePredicate dest v sub (some σ.guard)) (storePredicate dest v' sub none) := by
  unfold storePredicate
  dsimp only
  infer_instance

instance sided_wholeRegister (shape : Shape) :
    Sided W (wholeRegister? dest shape mask sub) (wholeRegister? dest shape mask sub) := by
  unfold wholeRegister?
  refine @sided_ite _ _ _ _ _ _ _ _ _ _ (Sided.bind_cases fun W1 found => ?_) inferInstance
  have : Twins W1.tandem found.left.register found.right.register := ⟨found.rel.1⟩
  simp only [lanes_right, offset_right]
  infer_instance

instance sided_storeRegister [Twins W v v'] :
    Sided W (storeRegister ctx dest v mask sub (some σ.guard))
      (storeRegister ctx dest v' mask sub none) := by
  unfold storeRegister
  apply Sided.data_cases
  intro W1 shape
  apply Sided.bind_cases
  intro W2 whole
  obtain ⟨left, right, hwhole⟩ := whole
  cases hwhole with
  | none => infer_instance
  | @some register register' hregister =>
    have : Twins W2.tandem register register' := ⟨hregister⟩
    infer_instance

instance sided_store [Twins W v v'] : Sided W (Access.store ctx dest v mask sub (some σ.guard))
      (Access.store ctx dest v' mask sub none) := by
  unfold Access.store
  dsimp only
  generalize dest.bank = bank
  cases bank <;> infer_instance

end Tandem
end Microcode
