import Microcode.Proofs.Division

/-!
Swizzles over two values and the modifiers of operands.

The second value continues the first.  A storage channel picks a component of the two, the nearest
one there is, and every other channel gives its literal.
-/

namespace Microcode

open Machine Emit Access List

variable {start : Nat → Nat → Lanes} {w : Workspace} {s : State} {scalar : Scalar}

namespace Access

/-- What a channel picks. -/
def picked (total : Nat) (shift : Int) (channel : Channel) : Pick :=
  match channel.storage? with
  | some c => .component (min (max 0 ((c : Int) + shift)) ((total : Int) - 1)).toNat
  | none => .literal channel.literal

/-- The lane that a pick gives. -/
def Pick.lane (scalar : Scalar) (lanes : List Lane) : Pick → Lane
  | .component index => lanes.getD index 0#32
  | .literal bits => (Constant.ofNumber scalar bits).lane

end Access

/-- The lane that a channel gives over the lanes of both values. -/
def Channel.lane (channel : Channel) (scalar : Scalar) (lanes : List Lane) (shift : Int) : Lane :=
  (picked lanes.length shift channel).lane scalar lanes

theorem scalar_ofNumber (scalar : Scalar) (bits : Lane) :
    (Constant.ofNumber scalar bits).scalar = scalar := by
  cases scalar <;> rfl

theorem computes_ofNumber (scalar : Scalar) (bits : Lane) :
    Computes start (constant (.ofNumber scalar bits)) w s scalar
      [(Constant.ofNumber scalar bits).lane] := by
  have h : Computes start (constant (.ofNumber scalar bits)) w s
      (Constant.ofNumber scalar bits).scalar [(Constant.ofNumber scalar bits).lane] :=
    computes_constant _
  rwa [scalar_ofNumber] at h

theorem emits_pick {total : Nat} {shift : Int} {channel : Channel} {E : Error → Workspace → Prop}
    (h : ∀ c, channel.storage? = some c →
      -0x80000000 ≤ (c : Int) + shift ∧ (c : Int) + shift < 0x80000000) :
    Emits (.quiet start) (pick total shift channel) w s
      (fun p _ _ => p = picked total shift channel) E := by
  rw [pick, picked]
  cases hc : channel.storage? with
  | none => exact .pure rfl
  | some c => exact Emits.offset (fun hn => absurd (h c hc) hn) fun _ => .pure rfl

theorem eq_map_of_forall₂ {α β : Type} {f : α → β} {xs : List α} {ys : List β}
    (h : List.Forall₂ (fun a b => b = f a) xs ys) : ys = xs.map f := by
  induction h with
  | nil => rfl
  | cons hab _ ih => rw [map_cons, ← hab, ← ih]

/-! ## Literals -/

/-- Replaces the components that are literals. -/
def withLiterals (scalar : Scalar) (fixed : List (Nat × Lane)) (lanes : List Lane) : List Lane :=
  fixed.foldl (fun lanes f => lanes.set f.1 (Constant.ofNumber scalar f.2).lane) lanes

theorem computes_withLiterals (fixed : List (Nat × Lane)) {v : Value} {xs : List Lane}
    (hv : Holds w s v scalar xs) (hfixed : ∀ f ∈ fixed, f.1 < xs.length) :
    Computes start (fixed.foldlM
      (fun v (slot, bits) => do Emit.insert v (← constant (.ofNumber scalar bits)) slot) v) w s
      scalar (withLiterals scalar fixed xs) := by
  induction fixed generalizing w s v xs with
  | nil => exact .pure hv
  | cons f rest ih =>
    rw [foldlM_cons]
    refine Computes.bind
      (?_ : Computes start _ w s scalar (xs.set f.1 (Constant.ofNumber scalar f.2).lane))
      fun u w1 s1 q1 hu => ih hu fun g hg => ?_
    · refine (computes_ofNumber scalar f.2).bind fun part w1 s1 q1 hpart => ?_
      exact computes_insert (hv.quiet q1) hpart (hfixed f mem_cons_self)
    · rw [length_set]
      exact hfixed g (.tail _ hg)

/-- Literals of picks that start at position `n`. -/
def literalsFrom (n : Nat) (picks : List Pick) : List (Nat × Lane) :=
  (picks.zipIdx n).filterMap fun (p, slot) => p.literal?.map fun bits => (slot, bits)

theorem withLiterals_append (lanes : List Lane) (picks : List Pick) (before : List Lane) :
    withLiterals scalar (literalsFrom before.length picks)
      (before ++ picks.map fun p => lanes.getD p.index 0#32) =
      before ++ picks.map (Pick.lane scalar lanes) := by
  induction picks generalizing before with
  | nil => rfl
  | cons p rest ih =>
    cases p with
    | component index =>
      have h := ih (before ++ [lanes.getD index 0#32])
      rw [length_append, append_assoc, append_assoc] at h
      exact h
    | literal bits =>
      have h := ih (before ++ [(Constant.ofNumber scalar bits).lane])
      rw [length_append, append_assoc, append_assoc] at h
      rw [show literalsFrom before.length (.literal bits :: rest) =
        (before.length, bits) :: literalsFrom (before.length + 1) rest from rfl, withLiterals,
        foldl_cons, map_cons, map_cons, set_append_right _ _ (Nat.le_refl _),
        Nat.sub_self, set_cons_zero]
      exact h

theorem withLiterals_literals (lanes : List Lane) (picks : List Pick) :
    withLiterals scalar (literals picks) (picks.map fun p => lanes.getD p.index 0#32) =
      picks.map (Pick.lane scalar lanes) := withLiterals_append lanes picks []

theorem literals_lt {picks : List Pick} {f : Nat × Lane} (h : f ∈ literals picks) :
    f.1 < picks.length := by
  obtain ⟨⟨p, slot⟩, hmem, hf⟩ := mem_filterMap.1 h
  obtain ⟨bits, -, rfl⟩ := Option.map_eq_some_iff.1 hf
  have := mem_zipIdx hmem
  simpa using this.2.1

/-! ## Swizzles -/

theorem index_picked_lt {total : Nat} (ht : 0 < total) (shift : Int) (channel : Channel) :
    (picked total shift channel).index < total := by
  rw [picked]
  cases channel.storage? with
  | none => exact ht
  | some c =>
    simp only [Pick.index]
    omega

/-- A swizzle under a mask gives one component for each bit of the mask. -/
theorem computes_bridge {left right : Value} {xs ys : List Lane} (hl : Holds w s left scalar xs)
    (hr : Holds w s right scalar ys) (swizzle : Swizzle) (shift : Int) {mask : Mask}
    (hmask : Mask.components mask ≠ [])
    (hrange : ∀ i ∈ Mask.components mask, ∀ c, (swizzle.get i).storage? = some c →
      -0x80000000 ≤ (c : Int) + shift ∧ (c : Int) + shift < 0x80000000) :
    Computes start (bridge left right swizzle shift mask) w s scalar
      ((Mask.components mask).map fun i => (swizzle.get i).lane scalar (xs ++ ys) shift) := by
  intro E
  rw [bridge]
  refine Emits.scalarOf (Emits.countOf (Emits.countOf ?_))
  rw [hl.scalarOf, hl.countOf, hr.countOf]
  refine (Emits.mapM (R := fun i p _ _ => p = picked (xs.length + ys.length) shift (swizzle.get i))
    (Mask.components mask) (fun _ _ _ _ _ _ _ h => h)
    fun i hi w' s' _ => emits_pick (hrange i hi)).bind fun picks w1 s1 q1 hpicks => ?_
  replace hpicks := eq_map_of_forall₂ hpicks
  have hlanes : ((Mask.components mask).map fun i =>
      (swizzle.get i).lane scalar (xs ++ ys) shift) = picks.map (Pick.lane scalar (xs ++ ys)) := by
    rw [hpicks, map_map]
    refine map_congr_left fun i _ => ?_
    rw [Function.comp_apply, Channel.lane, length_append]
  have hlen : picks.length = (Mask.components mask).length := by rw [hpicks, length_map]
  have hpos : 0 < picks.length := by rw [hlen]; exact length_pos_of_ne_nil hmask
  have hwidth : picks.length ≤ 4 := by
    rw [hlen]
    exact Nat.le_trans (length_filter_le _ _) (by simp)
  have hin : ∀ p ∈ picks, p.index < xs.length + ys.length := by
    intro p hp
    rw [hpicks] at hp
    obtain ⟨i, -, rfl⟩ := mem_map.1 hp
    exact index_picked_lt (Nat.add_pos_left hl.pos _) shift _
  rw [hlanes]
  have finish {base : Value} {w2 : Workspace} {s2 : State}
      (hbase : Holds w2 s2 base scalar (picks.map fun p => (xs ++ ys).getD p.index 0#32)) :
      Computes start ((literals picks).foldlM
        (fun v (slot, bits) => do Emit.insert v (← constant (.ofNumber scalar bits)) slot) base)
        w2 s2 scalar (picks.map (Pick.lane scalar (xs ++ ys))) := by
    rw [← withLiterals_literals]
    refine computes_withLiterals _ hbase fun f hf => ?_
    rw [length_map]
    exact literals_lt hf
  -- All picks but a single literal: pick the components, then replace the literals.
  have general : Computes start (do
      let base ← if (literals picks).isEmpty && picks.map Pick.index == List.range xs.length
        then pure left else shuffle left right (picks.map Pick.index)
      (literals picks).foldlM
        (fun v (slot, bits) => do Emit.insert v (← constant (.ofNumber scalar bits)) slot) base)
      w1 s1 scalar (picks.map (Pick.lane scalar (xs ++ ys))) := by
    have hmap : (picks.map fun p => (xs ++ ys).getD p.index 0#32) =
        (picks.map Pick.index).map ((xs ++ ys).getD · 0#32) := by rw [map_map]; rfl
    by_cases hid : ((literals picks).isEmpty && picks.map Pick.index == List.range xs.length) = true
    · rw [if_pos hid]
      have hrange' : picks.map Pick.index = List.range xs.length := by
        simp only [Bool.and_eq_true, beq_iff_eq] at hid
        exact hid.2
      have hxs : (picks.map fun p => (xs ++ ys).getD p.index 0#32) = xs := by
        rw [hmap, hrange']
        refine ext_getElem (by simp) fun i _ hi => ?_
        rw [getElem_map, getElem_range, getD_append _ _ _ _ hi,
          getD_eq_getElem _ _ hi]
      have hleft := hl.quiet q1
      rw [← hxs] at hleft
      exact finish hleft
    · rw [if_neg hid]
      refine Computes.bind ((computes_shuffle (hl.quiet q1) (hr.quiet q1) (by simpa using hpos)
        (by simpa using hwidth) fun i hi => ?_).of_eq hmap.symm) fun v w2 s2 _ hv => finish hv
      obtain ⟨p, hp, rfl⟩ := mem_map.1 hi
      exact hin p hp
  match picks, general, hpos with
  | [.literal bits], _, _ => exact computes_ofNumber scalar bits E
  | .component _ :: _, general, _ => exact general E
  | .literal _ :: _ :: _, general, _ => exact general E

/-! ## Modifiers -/

/-- What the modifiers make of a lane.  Unsigned numbers have no absolute value, and truth values are
left alone. -/
def Modifiers.apply (m : Modifiers) (scalar : Scalar) (x : Lane) : Lane :=
  let signed := scalar = .f32 || scalar = .i32
  let x := if m.absolute && signed then Machine.unary .abs scalar x else x
  if !m.negative then x
  else if signed then Machine.unary .neg scalar x
  else if scalar = .u32 then 0#32 - x
  else x

theorem computes_modify (m : Modifiers) {v : Value} {xs : List Lane} (hv : Holds w s v scalar xs) :
    Computes start (Access.modify m v) w s scalar (xs.map (m.apply scalar)) := by
  intro E
  rw [Access.modify]
  refine Emits.shapeOf ?_
  rw [hv.shape]
  have negate {u : Value} {ys : List Lane} {w1 : Workspace} {s1 : State}
      (hu : Holds w1 s1 u scalar ys) (hlen : ys.length = xs.length) :
      Computes start (if (!m.negative) = true then pure u
        else if (scalar = .f32 || scalar = .i32) = true then unary .neg u
        else if scalar = .u32 then do
          let zero ← splatConstant (.u32 0#32) xs.length
          binary .sub zero u
        else pure u) w1 s1 scalar (ys.map fun x =>
          if !m.negative then x
          else if scalar = .f32 || scalar = .i32 then Machine.unary .neg scalar x
          else if scalar = .u32 then 0#32 - x
          else x) := by
    by_cases hneg : (!m.negative) = true
    · simp only [if_pos hneg, map_id']
      exact .pure hu
    simp only [if_neg hneg]
    by_cases hsigned : (scalar = .f32 || scalar = .i32) = true
    · simp only [if_pos hsigned]
      exact computes_unary .neg hu
    simp only [if_neg hsigned]
    by_cases hunsigned : scalar = .u32
    · simp only [if_pos hunsigned]
      subst hunsigned
      refine (computes_splatConstant (.u32 0#32) hv.pos hv.width).bind fun zero w2 s2 q2 hzero => ?_
      refine (computes_binary .sub hzero (hu.quiet q2) (by simp [hlen])).of_eq ?_
      refine ext_getElem (by simp [hlen]) fun i _ _ => ?_
      rw [getElem_zipWith, getElem_map, getElem_replicate]
      rfl
    · simp only [if_neg hunsigned, map_id']
      exact .pure hu
  have happly : xs.map (m.apply scalar) =
      (xs.map fun x => if m.absolute && (scalar = .f32 || scalar = .i32) then
        Machine.unary .abs scalar x else x).map fun x =>
          if !m.negative then x
          else if scalar = .f32 || scalar = .i32 then Machine.unary .neg scalar x
          else if scalar = .u32 then 0#32 - x
          else x := by
    rw [map_map]
    rfl
  rw [happly]
  by_cases habs : (m.absolute && (scalar = .f32 || scalar = .i32)) = true
  · simp only [if_pos habs]
    exact (computes_unary .abs hv E).bind fun u w1 s1 _ hu => negate hu (by simp) E
  · simp only [if_neg habs, map_id']
    exact negate hv rfl E

end Microcode
