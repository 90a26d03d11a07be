import Microcode.Proofs.Storing
import Microcode.Proofs.TypedResolution

/-!
Access to operands keeps the contract.

A load gives as many components as its mask selects, in the scalar of its element.  A store takes a
value of any shape and stores nothing but floats, each register as a whole.
-/

namespace Microcode

open Machine Emit Access List

set_option synthInstance.maxSize 10000

variable (ctx : Context) (op : Operand) {bank : Bank} {writes : List (Nat × Value)}
  {groups : List (Register × List (Nat × Value))} {segments : List Segment} {limit : Nat}
  {P : Passage} {w' : Workspace}

variable {w : Workspace} {scalar : Scalar} {m n : Nat} {v : Value} {mask : Mask}

theorem Workspace.Sound.has_pos (hw : w.Sound) (hv : w.listing.Has v ⟨scalar, n⟩) : 0 < n :=
  (hw.listing.proper.has hv).1

theorem Workspace.Sound.has_le (hw : w.Sound) (hv : w.listing.Has v ⟨scalar, n⟩) : n ≤ 4 :=
  (hw.listing.proper.has hv).2

instance (e : Element) : e.scalar.IsNumber := ⟨e.scalar_ne_bool⟩

/-! ## Swizzles and modifiers -/

/-- A list of so many elements. -/
class Sized {α : Type} (xs : List α) (n : outParam Nat) : Prop where
  length : xs.length = n

instance (n : Nat) : Sized (List.range n) n := ⟨length_range⟩

instance (mask : Mask) : Sized (Mask.components mask) (Mask.count mask) := ⟨rfl⟩

instance checked_constants {α β δ : Type} [Described β δ] {d : δ} (f : α → Constant) (xs : List α)
    (g : Value → Emit β) [hf : ∀ x, (f x).Of scalar] [hxs : Sized xs n] [hn : Width n]
    [hg : ∀ (w' : w.Later) (v : Given w'.workspace Value (⟨scalar, n⟩ : Shape)),
      Checked w'.workspace (g v.data) d] :
    Checked w (xs.mapM (fun x => constant (f x)) >>= fun vs => construct vs >>= g) d := by
  have := hn.pos
  refine ⟨(Checks.mapM (P := .within) (S := fun v w' => w'.listing.Has v ⟨scalar, 1⟩) xs
    (fun _ _ _ h hv => h.has hv) fun x _ w' _ _ => Inferred.checks).bind fun vs w1 h1 _ hvs => ?_⟩
  obtain rfl : vs.length = n := hvs.1.trans hxs.length
  refine (checks_construct_scalars hvs.2 (length_pos_iff.1 hn.pos) hn.le).bind ?_
  intro v w2 h2 _ hv
  exact (hg ⟨w2, h1.trans h2⟩ ⟨v, hv⟩).checks

theorem checks_pick {total : Nat} (htotal : 0 < total) (shift : Int) (channel : Channel) :
    Checks .within (pick total shift channel) w fun p _ => p.index < total := by
  rw [pick]
  cases channel.storage? with
  | none => exact .pure htotal
  | some c =>
    refine .offset (.pure ?_)
    show (min (max 0 ((c : Int) + shift)) ((total : Int) - 1)).toNat < total
    omega

/-- A mask that selects something. -/
class Mask.Selects (mask : Mask) : Prop where
  nonempty : Mask.components mask ≠ []

instance (mask : Mask) [h : mask.Selects] : Width (Mask.count mask) :=
  ⟨length_pos_iff.2 h.nonempty, Mask.length_components mask⟩

instance inferred_bridge (left right : Value) (swizzle : Swizzle) (shift : Int)
    [hl : Known w left ⟨scalar, m⟩] [hr : Known w right ⟨scalar, n⟩] [hmask : mask.Selects] :
    Inferred w (bridge left right swizzle shift mask) ⟨scalar, Mask.count mask⟩ := by
  unfold bridge
  refine ⟨.scalarOf hl.is (.countOf hl.is (.countOf hr.is (.sound fun hw => ?_)))⟩
  have hm := hw.has_pos hl.is
  refine (Checks.mapM (S := fun p _ => p.index < m + n) _ (fun _ _ _ _ h => h)
    fun _ _ _ _ _ => checks_pick (by simp only; omega) shift _).bind ?_
  intro picks w1 h1 _ hpicks
  have hlen : Mask.count mask = picks.length := hpicks.1.symm
  have hwidth : Width picks.length := hlen ▸ inferInstance
  rw [hlen]
  split
  · exact (inferred_constant (.ofNumber scalar _)).checks
  · refine .join (Q := fun v w' => w'.listing.Has v ⟨scalar, picks.length⟩) (fun hwhole => ?_)
      (fun _ => ?_) fun base w2 _ _ hbase => .foldlM _ hbase ?_
    · simp only [Bool.and_eq_true, beq_iff_eq] at hwhole
      have hcount := congrArg List.length hwhole.2
      rw [length_map, length_range] at hcount
      rw [hcount]
      exact .pure (h1.has hl.is)
    · have hne : picks.map Pick.index ≠ [] := by
        rw [ne_eq, map_eq_nil_iff]
        exact length_pos_iff.1 hwidth.pos
      have := checks_shuffle (P := .within) (h1.has hl.is) (h1.has hr.is) hne
        (by rw [length_map]; exact hwidth.le) fun i hi => by
          obtain ⟨p, hp, rfl⟩ := mem_map.1 hi
          exact hpicks.2 p hp
      rwa [length_map] at this
    · intro f hf v w3 _ _ hv
      refine (inferred_constant (.ofNumber scalar f.2)).checks.bind ?_
      intro c w4 h4 _ hc
      exact checks_insert (h4.has hv) hc (literals_lt hf)

instance inferred_modify (modifiers : Modifiers) [hv : Known w v ⟨scalar, n⟩] :
    Inferred w (modify modifiers v) ⟨scalar, n⟩ := by
  unfold Access.modify
  refine .proper v fun _ => ⟨.shapeOf hv.is (.join (fun _ => Inferred.checks) (fun _ => .pure hv.is)
    fun u w1 _ _ hu => ?_)⟩
  have : Known w1 u ⟨scalar, n⟩ := ⟨hu⟩
  refine .ite (fun _ => Checked.checks) fun _ => .ite (fun _ => Checked.checks) fun _ =>
    .ite (fun hscalar => ?_) fun _ => Checked.checks
  obtain rfl : scalar = .u32 := hscalar
  exact Checked.checks

/-! ## Division of lanes -/

/-- Fields of so many bits divide a lane into so many. -/
class Divides (width : Nat) (n : outParam Nat) : Prop where
  count : 32 / width = n
  proper : Width n

instance : Divides 8 4 := ⟨rfl, inferInstance⟩

instance : Divides 16 2 := ⟨rfl, by decide, by decide⟩

instance (k : Nat) : Constant.Of (integer .i32 k) .i32 := ⟨rfl⟩

instance (k : Nat) : Constant.Of (integer .u32 k) .u32 := ⟨rfl⟩

instance : Constant.Of byteBias .i32 := ⟨rfl⟩

instance : Constant.Of colorStep .f32 := ⟨rfl⟩

instance inferred_splitBits (width : Nat) [Known w v ⟨.f32, 1⟩] [h : Divides width n] :
    Inferred w (splitBits v width false) ⟨.u32, n⟩ := by
  obtain ⟨rfl, proper⟩ := h
  unfold splitBits
  simp only [Bool.false_eq_true, if_false]
  exact .of_parts

instance inferred_splitSigned (width : Nat) [Known w v ⟨.f32, 1⟩] [h : Divides width n] :
    Inferred w (splitBits v width true) ⟨.i32, n⟩ := by
  obtain ⟨rfl, proper⟩ := h
  unfold splitBits
  simp only [if_true]
  exact .of_parts

instance inferred_joinBits (width : Nat) [h : Divides width n] [hv : Known w v ⟨.u32, n⟩] :
    Inferred w (joinBits v width) ⟨.f32, 1⟩ := by
  obtain ⟨rfl, proper⟩ := h
  -- The first field is joined with the others one by one.
  have last (w' : Workspace) (placed : Value) [hp : Known w' placed ⟨.u32, 32 / width⟩] :
      Checked w' (do
        let first ← extract placed 0
        let word ← (List.range' 1 (32 / width - 1)).foldlM
          (fun word k => do binary .or word (← extract placed k)) first
        convert .bitcast word .f32) (⟨.f32, 1⟩ : Shape) := by
    refine ⟨(checks_extract hp.is proper.pos).bind fun first w1 h1 _ hfirst => ?_⟩
    refine (Checks.foldlM (P := .within) (R := fun word w' => w'.listing.Has word ⟨.u32, 1⟩) _ hfirst
      fun k hk word w2 h2 _ hword => ?_).bind fun word w2 _ _ hword => ?_
    · have hin : k < 32 / width := by
        have := mem_range'_1.1 hk
        omega
      refine (checks_extract (h2.has (h1.has hp.is)) hin).bind fun part w3 h3 _ hpart => ?_
      have : Known w3 word ⟨.u32, 1⟩ := ⟨h3.has hword⟩
      have : Known w3 part ⟨.u32, 1⟩ := ⟨hpart⟩
      exact Inferred.checks
    · have : Known w2 word ⟨.u32, 1⟩ := ⟨hword⟩
      exact Inferred.checks
  unfold joinBits
  dsimp only
  exact .of_parts

instance inferred_unpackHelper (encoding : HalfEncoding) [hv : Known w v ⟨.f32, 1⟩] :
    Inferred w (helper (.unpack encoding) v) ⟨.f32, 2⟩ :=
  ⟨checks_define (.unpack hv.is)⟩

instance inferred_packHelper (encoding : HalfEncoding) [hv : Known w v ⟨.f32, 2⟩] :
    Inferred w (helper (.pack encoding) v) ⟨.f32, 1⟩ :=
  ⟨checks_define (.pack hv.is)⟩

instance inferred_unpackLane (element : Element) [Known w v ⟨.f32, 1⟩] :
    Inferred w (unpackLane ctx v element) ⟨element.scalar, element.ratio⟩ := by
  unfold unpackLane
  cases element with
  | f16 => exact inferred_unpackHelper _
  | s16 => exact inferred_splitSigned 16
  | u16 => exact inferred_splitBits 16
  | s8 => exact inferred_splitSigned 8
  | u8 => exact inferred_splitBits 8
  | o8 =>
    change Inferred w _ (⟨.i32, 4⟩ : Shape)
    exact .of_parts
  | c10 =>
    change Inferred w _ (⟨.f32, 4⟩ : Shape)
    exact .of_parts
  | f32 | unknown => exact ⟨.pure Known.is⟩
  | s32 | u32 => exact inferred_convert v _ _

instance inferred_asUnsigned [hv : Known w v ⟨scalar, n⟩] [scalar.IsNumber] :
    Inferred w (asUnsigned v) ⟨.u32, n⟩ := by
  unfold asUnsigned
  refine ⟨.scalarOf hv.is (.ite (fun h => ?_) fun _ => Inferred.checks)⟩
  obtain rfl : scalar = .u32 := h
  exact .pure hv.is

instance inferred_toUnorm (maximum : Lane) [Known w v ⟨.f32, n⟩] :
    Inferred w (toUnorm v maximum) ⟨.u32, n⟩ := by
  unfold toUnorm
  exact .proper v fun _ => inferInstance

instance inferred_packLane (element : Element) [hv : Known w v ⟨element.scalar, element.ratio⟩] :
    Inferred w (packLane ctx v element) ⟨.f32, 1⟩ := by
  unfold packLane
  cases element <;> dsimp only
  case f16 =>
    have : Known w v ⟨.f32, 2⟩ := hv
    exact .of_parts
  case s16 =>
    have : Known w v ⟨.i32, 2⟩ := hv
    exact .of_parts
  case u16 =>
    have : Known w v ⟨.u32, 2⟩ := hv
    exact .of_parts
  case s8 | o8 =>
    have : Known w v ⟨.i32, 4⟩ := hv
    exact .of_parts
  case u8 =>
    have : Known w v ⟨.u32, 4⟩ := hv
    exact .of_parts
  case c10 =>
    have : Known w v ⟨.f32, 4⟩ := hv
    exact .of_parts
  case f32 | unknown => exact ⟨.scalarOf hv.is (.pure hv.is)⟩
  case s32 | u32 => exact ⟨.scalarOf hv.is (inferred_convert v _ _).checks⟩

/-- Lanes that are divided into at most four elements. -/
theorem checks_unpack {element : Element} [hv : Known w v ⟨.f32, n⟩] [mask.Selects]
    (hwidth : n * element.ratio ≤ 4) (swizzle : Swizzle) (shift : Int) :
    Yields .within (unpack ctx v element swizzle mask shift) w
      ⟨element.scalar, Mask.count mask⟩ := by
  rw [unpack]
  refine .countOf hv.is (.sound fun hw => ?_)
  have hpos := hw.has_pos hv.is
  refine (Checks.mapM (P := .within)
    (S := fun u w' => w'.listing.Has u ⟨element.scalar, element.ratio⟩) _
    (fun _ _ _ h hv => h.has hv) ?_).bind ?_
  · intro k hk w' h' _
    refine (checks_extract (h'.has hv.is) (mem_range.1 hk)).bind ?_
    intro lane w'' _ _ hlane
    have : Known w'' lane ⟨.f32, 1⟩ := ⟨hlane⟩
    exact Inferred.checks
  · intro parts w1 _ _ hparts
    have hlen : parts.length = n := hparts.1.trans (by simp)
    have hsplit : splitParts parts element.ratio 4 = (parts, []) := by
      rw [splitParts, splitAt_eq, take_of_length_le, drop_eq_nil_of_le]
      all_goals
        rw [hlen]
        rcases element.ratio_cases with h | h | h <;> rw [h] at hwidth ⊢ <;> omega
    rw [hsplit]
    refine (checks_construct_same hparts.2 (by rintro rfl; simp at hlen; omega)
      (by rw [hlen]; exact hwidth)).bind ?_
    intro left w2 _ _ hleft
    have : Known w2 left ⟨element.scalar, parts.length * element.ratio⟩ := ⟨hleft⟩
    exact (inferred_bridge left left swizzle shift).checks

/-! ## Reading -/

/-- Lanes of a value that are all there. -/
def Access.Segment.Typed (l : Listing) (s : Segment) : Prop :=
  ∃ n, l.Has s.value ⟨.f32, n⟩ ∧ s.start + s.take ≤ n ∧ 0 < s.take

theorem Workspace.Continues.segment {s : Segment} (h : w.Continues w') (hs : s.Typed w.listing) :
    s.Typed w'.listing := by
  obtain ⟨n, hv, hin⟩ := hs
  exact ⟨n, h.has hv, hin⟩

/-- Segments that hold so many lanes together. -/
structure Access.Gathered (l : Listing) (segments : List Segment) (count : Nat) : Prop where
  typed : ∀ s ∈ segments, s.Typed l
  total : (segments.map Segment.take).sum = count

instance : Described (List Segment) Nat where
  Is w := Gathered w.listing
  later h hs := ⟨fun s hmem => h.segment (hs.typed s hmem), hs.total⟩

theorem checks_gatherFrom (bank : Bank) (num : Nat) (first : Int) (fuel got remaining : Nat)
    (hfuel : remaining ≤ fuel) (hfour : remaining ≤ 4) :
    Checks .within (gatherFrom bank num first fuel got remaining) w fun segments w' =>
      Gathered w'.listing segments remaining := by
  have none_left (w : Workspace) : Gathered w.listing [] 0 := ⟨by simp, rfl⟩
  induction fuel generalizing w got remaining with
  | zero =>
    obtain rfl : remaining = 0 := by omega
    exact .pure (none_left w)
  | succ fuel ih =>
    rw [gatherFrom]
    refine .ite (fun h => h ▸ .pure (none_left w)) fun hpos => .offset ?_
    refine (checks_resolve num _ false).attempt.bind ?_
    intro found w1 _ _ hfound
    cases found with
    | error e =>
      have : Width remaining := ⟨by omega, hfour⟩
      refine .ite (fun _ => .throw) fun _ => ?_
      refine (inferred_splatConstant (.f32 0#32) remaining).checks.bind ?_
      intro v w2 _ _ hv
      refine .pure ⟨fun s hs => ?_, by simp⟩
      rw [mem_singleton.1 hs]
      exact ⟨remaining, hv, by simp, by simp only; omega⟩
    | ok found =>
      obtain ⟨hregister, hinside, -⟩ := hfound found rfl
      refine (checks_load hregister.place).bind ?_
      intro v w2 _ _ hv
      refine (ih _ _ (by omega) (by omega)).bind ?_
      intro rest w3 h3 _ hrest
      refine .pure ⟨fun s hs => ?_, ?_⟩
      · rcases mem_cons.1 hs with rfl | hs
        · exact ⟨found.register.lanes, h3.has hv, by simp only; omega, by simp only; omega⟩
        · exact hrest.typed s hs
      · rw [map_cons, sum_cons, hrest.total]
        show min (found.register.lanes - found.offset) remaining + _ = remaining
        omega

theorem checks_compact_one {s : Segment} (hs : s.Typed w.listing) :
    Yields .within s.compact w ⟨.f32, s.take⟩ := by
  obtain ⟨n, hv, hin, hpos⟩ := hs
  rw [Segment.compact]
  refine .countOf hv (.sound fun hw => ?_)
  have hfour := hw.has_le hv
  refine .ite (fun hwhole => ?_) fun _ => .ite (fun hone => ?_) fun _ => ?_
  · simp only [Bool.and_eq_true, decide_eq_true_eq] at hwhole
    rw [hwhole.2]
    exact .pure hv
  · rw [hone]
    exact checks_extract hv (by omega)
  · have hne : List.range' s.start s.take ≠ [] := by
      rw [ne_eq, range'_eq_nil_iff]
      omega
    have := checks_shuffle (P := .within) hv hv hne (by rw [length_range']; omega) fun i hi => by
      have := mem_range'_1.1 hi
      omega
    rwa [length_range'] at this

instance inferred_compact (segments : List Segment) [hs : Known w segments n] [hn : Width n] :
    Inferred w (compact segments) ⟨.f32, n⟩ := by
  have parts (segments : List Segment) (w : Workspace) (hs : ∀ s ∈ segments, s.Typed w.listing) :
      Checks .within (segments.mapM Segment.compact) w fun vs w' =>
        List.Forall₂ (fun v n => w'.listing.Has v ⟨.f32, n⟩) vs (segments.map Segment.take) := by
    induction segments generalizing w with
    | nil => exact .pure .nil
    | cons s rest ih =>
      rw [mapM_cons]
      refine (checks_compact_one (hs s mem_cons_self)).bind ?_
      intro v w1 h1 _ hv
      refine (ih w1 fun t ht => h1.segment (hs t (.tail _ ht))).bind ?_
      intro vs w2 h2 _ hvs
      exact .pure (.cons (h2.has hv) hvs)
  unfold compact
  refine ⟨(parts segments w hs.is.typed).bind fun vs w1 _ _ hvs => ?_⟩
  have htotal : (segments.map Segment.take).sum = n := hs.is.total
  have hne : vs ≠ [] := by
    rintro rfl
    rw [forall₂_nil_left_iff.1 hvs] at htotal
    have := hn.pos
    exact absurd htotal (by simp; omega)
  have := checks_construct (P := .within) hvs hne (by rw [htotal]; exact hn.le)
  rwa [htotal] at this

theorem checks_twoValues [hs : Known w segments n] [Width n] :
    Checks .within (twoValues segments) w fun r w' =>
      ∃ m n, w'.listing.Has r.1 ⟨.f32, m⟩ ∧ w'.listing.Has r.2.1 ⟨.f32, n⟩ := by
  have joined : Checks .within (do let v ← compact segments; return (v, v, 0)) w fun r w' =>
      ∃ m n, w'.listing.Has r.1 ⟨.f32, m⟩ ∧ w'.listing.Has r.2.1 ⟨.f32, n⟩ :=
    (inferred_compact segments).checks.bind fun v w1 _ _ hv => .pure ⟨n, n, hv, hv⟩
  have htyped := hs.is.typed
  unfold twoValues
  split
  · obtain ⟨n, hv, -⟩ := htyped _ mem_cons_self
    exact .pure ⟨n, n, hv, hv⟩
  · refine .ite (fun _ => ?_) fun _ => joined
    obtain ⟨m, ha, -⟩ := htyped _ mem_cons_self
    obtain ⟨n, hb, -⟩ := htyped _ (mem_cons_of_mem _ mem_cons_self)
    exact .pure ⟨m, n, ha, hb⟩
  · exact joined

instance inferred_literalChannels (scalar : Scalar) (swizzle : Swizzle) [mask.Selects] :
    Inferred w (literalChannels scalar swizzle mask) ⟨scalar, Mask.count mask⟩ := by
  unfold literalChannels
  have h : Checked w ((Mask.components mask).mapM (fun i =>
      constant (.ofNumber scalar (swizzle.get i).literal)) >>= fun vs => construct vs >>= pure)
      (⟨scalar, Mask.count mask⟩ : Shape) := inferInstance
  simp only [bind_pure] at h
  exact .of_parts

theorem checks_readLanes {op : Operand} {lo hi : Nat} (hspan : op.span? mask = some (lo, hi))
    [Known w segments (hi - lo + 1)] [mask.Selects] :
    Yields .within (readLanes ctx op mask lo segments) w ⟨op.storage.scalar, Mask.count mask⟩ := by
  have hwidth := (Operand.span?_width hspan).2
  have hratio := op.storage.ratio_cases
  have : Width (hi - lo + 1) := by
    refine ⟨Nat.succ_pos _, ?_⟩
    rcases hratio with h | h | h <;> rw [h] at hwidth <;> omega
  rw [readLanes]
  refine .ite (fun _ => ?_) fun _ => ?_
  · refine checks_twoValues.bind ?_
    rintro ⟨left, right, first⟩ w1 _ _ ⟨m, n, hl, hr⟩
    have : Known w1 left ⟨.f32, m⟩ := ⟨hl⟩
    have : Known w1 right ⟨.f32, n⟩ := ⟨hr⟩
    refine .ite (fun hfloat => ?_) fun _ => Checked.checks
    rw [hfloat]
    exact Inferred.checks
  · refine (inferred_compact segments).checks.bind ?_
    intro packed w1 _ _ hpacked
    have : Known w1 packed ⟨.f32, hi - lo + 1⟩ := ⟨hpacked⟩
    refine checks_unpack ctx ?_ op.swizzle _
    rcases hratio with h | h | h <;> rw [h] at hwidth ⊢ <;> omega

instance inferred_loadRegister (op : Operand) (sub : Int) [mask.Selects] :
    Inferred w (loadRegister ctx op mask sub) ⟨op.element.scalar, Mask.count mask⟩ := by
  rw [loadRegister_eq, ← op.storage_scalar]
  cases hspan : op.span? mask with
  | none => exact inferred_literalChannels op.storage.scalar op.swizzle
  | some span =>
    obtain ⟨lo, hi⟩ := span
    have hwidth := Operand.span?_width hspan
    have hfour : hi - lo + 1 ≤ 4 := by
      rcases op.storage.ratio_cases with h | h | h <;> rw [h] at hwidth <;> omega
    refine ⟨.offset ((checks_gatherFrom op.bank op.num _ _ 0 _ (Nat.le_refl _) hfour).bind ?_)⟩
    intro segments w1 _ _ hs
    have : Known w1 segments (hi - lo + 1) := ⟨hs⟩
    exact checks_readLanes ctx hspan

instance inferred_loadConstant (op : Operand) [hmask : mask.Selects] :
    Inferred w (loadConstant ctx op mask) ⟨op.element.scalar, Mask.count mask⟩ := by
  unfold loadConstant
  refine ⟨(Checks.mapM (P := .within) (S := fun v w' => w'.listing.Has v ⟨.f32, 1⟩) _
    (fun _ _ _ h hv => h.has hv) fun i _ w' _ _ => ?_).bind fun parts w1 _ _ hparts => ?_⟩
  · dsimp only
    split
    · exact Inferred.checks
    · refine .word fun _ => ?_
      split
      · exact Inferred.checks
      · exact .throw
  · have hne : parts ≠ [] := by
      rintro rfl
      exact hmask.nonempty (length_eq_zero_iff.1 hparts.1.symm)
    refine (checks_construct_scalars hparts.2 hne
      (hparts.1 ▸ Mask.length_components mask)).bind ?_
    intro v w2 _ _ hv
    rw [hparts.1] at hv
    have : Known w2 v ⟨.f32, Mask.count mask⟩ := ⟨hv⟩
    refine .ite (fun hfloat => ?_) fun _ => Inferred.checks
    rw [hfloat]
    exact .pure hv

instance : Constant.Of (immediateFill op) op.element.scalar := by
  have hbool := op.element.scalar_ne_bool
  rw [immediateFill]
  cases h : op.element.scalar with
  | bool => exact absurd h hbool
  | f32 | i32 | u32 => exact ⟨rfl⟩

instance inferred_loadImmediate [mask.Selects] :
    Inferred w (loadImmediate op mask) ⟨op.element.scalar, Mask.count mask⟩ := by
  rw [loadImmediate]
  split
  case h_1 bits honly =>
    have hone : Mask.count mask = 1 := by
      split at honly
      case h_1 i hcomponents => rw [Mask.count, hcomponents]; rfl
      case h_2 => cases honly
    rw [hone]
    infer_instance
  case h_2 => exact .of_parts

/-- An operand that is no predicate register gives the components its mask selects. -/
theorem inferred_loadOperand {op : Operand} (hbank : op.bank ≠ .predicate) (mask : Mask) (sub : Int) :
    Inferred w (Access.load ctx op mask sub) ⟨op.element.scalar, Mask.count mask⟩ := by
  unfold Access.load
  refine ⟨.ite (fun _ => .throw) fun hzero => ?_⟩
  have : Mask.Selects (mask % 16) := by
    constructor
    rw [Mask.components_mod]
    exact Mask.components_ne_nil hzero
  have hcount : Mask.count mask = Mask.count (mask % 16) := by
    rw [Mask.count, Mask.count, Mask.components_mod]
  rw [hcount]
  split
  · exact Checked.checks
  · exact Checked.checks
  · exact absurd ‹_› hbank
  · exact Checked.checks

/-! ## Conversions -/

instance inferred_toFloat (source : Element) (scale : Bool) [hv : Known w v ⟨scalar, n⟩]
    [scalar.IsNumber] : Inferred w (toFloat v source scale) ⟨.f32, n⟩ := by
  unfold toFloat
  refine .proper v fun _ => ⟨.shapeOf hv.is (.join (Q := fun u w' => w'.listing.Has u ⟨.f32, n⟩)
    (fun hfloat => ?_) (fun _ => Inferred.checks) fun u w1 _ _ hu => ?_)⟩
  · obtain rfl : scalar = .f32 := hfloat
    exact .pure hv.is
  · have : Known w1 u ⟨.f32, n⟩ := ⟨hu⟩
    exact Checked.checks

instance inferred_ofFloat (dest : Element) (scale : Bool) [Known w v ⟨.f32, n⟩] :
    Inferred w (ofFloat v dest scale) ⟨dest.scalar, n⟩ := by
  unfold ofFloat
  dsimp only
  exact .proper v fun _ => inferInstance

instance inferred_coerce (target : Scalar) (keepBits : Bool) [hv : Known w v ⟨scalar, n⟩]
    [target.IsNumber] : Inferred w (coerce v target keepBits) ⟨target, n⟩ := by
  unfold coerce
  refine .proper v fun _ => ⟨.shapeOf hv.is (.ite (fun hsame => ?_) fun _ => .ite (fun hbool => ?_)
    fun hbool => ?_)⟩
  · obtain rfl : scalar = target := hsame
    exact .pure hv.is
  · obtain rfl : scalar = .bool := hbool
    exact Checked.checks
  · have : scalar.IsNumber := ⟨hbool⟩
    exact Inferred.checks

/-- The condition of an instruction, if there is one, is a truth value. -/
def Listing.Tests? (l : Listing) (condition : Option Value) : Prop :=
  ∀ c, condition = some c → l.Has c Shape.bool

instance : Described (Option Value) Unit where
  Is w condition _ := w.listing.Tests? condition
  later h hc c heq := h.has (hc c heq)

instance known_none : Known w (none : Option Value) () := ⟨fun _ h => nomatch h⟩

instance known_some [h : Known w v ⟨.bool, 1⟩] : Known w (some v) () :=
  ⟨fun _ hc => Option.some.inj hc ▸ h.is⟩

instance inferred_map_some (x : Emit Value) [hx : Inferred w x ⟨.bool, 1⟩] :
    Inferred w (some <$> x) () := by
  rw [map_eq_pure_bind]
  exact .of_parts

instance inferred_predicatePlace (k : Int) : Inferred w (predicatePlace k) ⟨.bool, 1⟩ :=
  ⟨checks_predicatePlace k⟩

instance inferred_condition (p : Predicate) : Inferred w (condition p) () := by
  unfold condition
  split <;> exact .of_parts

instance inferred_guarded {shape : Shape} (place : Place) (condition : Option Value)
    [hp : Known w place shape] [hv : Known w v shape] [hc : Known w condition ()] :
    Inferred w (guarded place v condition) shape := by
  unfold guarded
  cases condition with
  | none => exact .of_parts
  | some c =>
    refine ⟨(checks_load hp.is).bind ?_⟩
    intro old w1 h1 _ hold
    exact checks_select (h1.has (hc.is c rfl)) (h1.has hv.is) hold (.inl rfl)

/-! ## Writing -/

theorem inferred_component [hv : Known w v ⟨scalar, n⟩] {channel : Nat} (hchannel : channel < 4)
    (ordinal : Nat) : Inferred w (component v channel ordinal) ⟨scalar, 1⟩ := by
  unfold component
  refine .proper v fun hn => ⟨.countOf hv.is ?_⟩
  split
  · rename_i hone
    obtain rfl : n = 1 := hone
    exact .pure hv.is
  · rename_i hfour
    obtain rfl : n = 4 := hfour
    exact checks_extract hv.is hchannel
  · have := hn.pos
    exact checks_extract hv.is (by simp only; omega)

/-- Parts by channel, each a scalar. -/
def Listing.Parts (l : Listing) (scalar : Scalar) (parts : List (Nat × Value)) : Prop :=
  parts.length ≤ 4 ∧ ∀ p ∈ parts, l.Has p.2 ⟨scalar, 1⟩

instance : Described (List (Nat × Value)) Scalar where
  Is w parts scalar := w.listing.Parts scalar parts
  later h hp := ⟨hp.1, fun p hmem => h.has (hp.2 p hmem)⟩

/-- A part, and the channel or lane it goes to. -/
instance : Described (Nat × Value) Scalar where
  Is w p scalar := w.listing.Has p.2 ⟨scalar, 1⟩
  later h hp := h.has hp

instance known_part (channel : Nat) [h : Known w v ⟨scalar, 1⟩] : Known w (channel, v) scalar :=
  ⟨h.is⟩

instance inferred_channels (element : Element) (mask : Mask) [hv : Known w v ⟨scalar, n⟩] :
    Inferred w (channels v element mask) element.scalar := by
  unfold channels
  refine ⟨(Checks.mapM (P := .within)
    (S := fun (p : Nat × Value) w' => w'.listing.Has p.2 ⟨element.scalar, 1⟩) _
    (fun _ _ _ h hp => h.has hp) ?_).mono fun parts w' _ _ hparts => ⟨?_, hparts.2⟩⟩
  · rintro ⟨channel, ordinal⟩ hmem w' h' _
    have : Known w' v ⟨scalar, n⟩ := ⟨h'.has hv.is⟩
    have := inferred_component (w := w') (v := v) (Mask.lt_of_mem_components
      (fst_mem_of_mem_zipIdx hmem)) ordinal
    exact Checked.checks (g := element.scalar)
  · rw [hparts.1, length_zipIdx]
    exact Mask.length_components mask

instance inferred_currentElements (dest : Operand) (sub : Int) :
    Inferred w (currentElements ctx dest sub) ⟨dest.storage.scalar, dest.storage.ratio⟩ := by
  unfold currentElements
  refine ⟨(checks_resolve dest.num sub true).bind fun found w1 _ _ hfound => ?_⟩
  refine (checks_load hfound.register.place).bind ?_
  intro v w2 _ _ hv
  refine .join (Q := fun v w' => w'.listing.Has v ⟨.f32, 1⟩) (fun hone => ?_)
    (fun _ => checks_extract hv hfound.inside) fun bits w3 _ _ hbits => ?_
  · rw [hone] at hv
    exact .pure hv
  · have : Known w3 bits ⟨.f32, 1⟩ := ⟨hbits⟩
    exact Inferred.checks

theorem checks_mergeElements (element : Element) (lane : Nat) {parts : List (Nat × Value)}
    (hparts : w.listing.Parts element.scalar parts) {old : Option Value}
    (hold : ∀ v, old = some v → w.listing.Has v ⟨element.scalar, element.ratio⟩) :
    Yields .within (do
      let elements ← (List.range' (lane * element.ratio) element.ratio).mapM fun c => do
        match parts.lookup c, old with
        | some part, _ => return part
        | none, some old => extract old (c - lane * element.ratio)
        | none, none => constant (.zero element.scalar)
      packLane ctx (← construct elements) element) w ⟨.f32, 1⟩ := by
  have hratio : 0 < element.ratio ∧ element.ratio ≤ 4 := by
    rcases element.ratio_cases with h | h | h <;> omega
  refine (Checks.mapM (P := .within) (S := fun v w' => w'.listing.Has v ⟨element.scalar, 1⟩) _
    (fun _ _ _ h hv => h.has hv) fun c hc w' h' _ => ?_).bind ?_
  · have hin := mem_range'_1.1 hc
    cases hlookup : parts.lookup c with
    | some part => exact .pure (h'.has (hparts.2 _ (mem_of_lookup hlookup)))
    | none =>
      cases old with
      | some old => exact checks_extract (h'.has (hold old rfl)) (by omega)
      | none => exact Inferred.checks
  · intro elements w1 _ _ helements
    have hlen : elements.length = element.ratio := helements.1.trans length_range'
    refine (checks_construct_scalars helements.2 (length_pos_iff.1 (by omega))
      (by omega)).bind ?_
    intro v w2 _ _ hv
    rw [hlen] at hv
    have : Known w2 v ⟨element.scalar, element.ratio⟩ := ⟨hv⟩
    exact Inferred.checks

instance inferred_mergeLane (dest : Operand) (sub : Int) (lane : Nat) (parts : List (Nat × Value))
    [hparts : Known w parts dest.storage.scalar] :
    Inferred w (mergeLane ctx dest sub lane parts) ⟨.f32, 1⟩ := by
  unfold mergeLane
  refine ⟨.ite (fun _ => ?_) fun _ => .offset ?_⟩
  · exact checks_mergeElements ctx dest.storage lane hparts.is fun _ h => nomatch h
  · rw [bind_map_left]
    refine (inferred_currentElements ctx dest _).checks.bind ?_
    intro old w1 h1 _ hold
    refine checks_mergeElements ctx dest.storage lane (Described.later h1 hparts.is) fun v hv => ?_
    rwa [← Option.some.inj hv]

instance inferred_laneWrites (dest : Operand) (sub : Int) (parts : List (Nat × Value))
    [hparts : Known w parts dest.storage.scalar] :
    Inferred w (laneWrites ctx dest sub parts) Scalar.f32 := by
  have written {γ : Type} {g : γ → Emit (Nat × Value)} {xs : List γ} (hxs : xs.length ≤ 4)
      (hg : ∀ c ∈ xs, ∀ w' : w.Later, Checked w'.workspace (g c) Scalar.f32) :
      Checks .within (xs.mapM g) w fun writes w' => w'.listing.Parts .f32 writes :=
    (Checks.mapM (P := .within) (S := fun (p : Nat × Value) w' => w'.listing.Has p.2 ⟨.f32, 1⟩) xs
      (fun _ _ _ h hp => h.has hp) fun c hc w' h _ => (hg c hc ⟨w', h⟩).checks).mono
      fun writes w' _ _ h => ⟨h.1 ▸ hxs, h.2⟩
  unfold laneWrites
  refine ⟨.ite (fun _ => written hparts.is.1 ?_) fun _ => written ?_ fun lane _ w' => inferInstance⟩
  · rintro ⟨channel, part⟩ hmem w'
    have : Known w part ⟨dest.storage.scalar, 1⟩ := ⟨hparts.is.2 _ hmem⟩
    infer_instance
  · refine Nat.le_trans (length_filter_le _ _) ?_
    rw [length_range]
    exact Nat.div_le_self 4 _

/-- Lanes of a register that are to be written together. -/
structure Access.WriteGroup (w : Workspace) (bank : Bank) (limit : Nat)
    (group : Register × List (Nat × Value)) : Prop where
  register : group.1.Valid w.listing
  backed : w.registers.Backed bank group.1
  nonempty : group.2 ≠ []
  inside : ∀ p ∈ group.2, p.1 < group.1.lanes
  parts : ∀ p ∈ group.2, w.listing.Has p.2 Shape.f32
  limited : group.2.length ≤ limit

theorem Workspace.Continues.writeGroup {group : Register × List (Nat × Value)} (h : w.Continues w')
    (hg : WriteGroup w bank limit group) : WriteGroup w' bank limit group where
  register := h.register hg.register
  backed := h.backed hg.backed
  nonempty := hg.nonempty
  inside := hg.inside
  parts p hp := h.has (hg.parts p hp)
  limited := hg.limited

/-- Every target tells the registers of a bank apart by their first lanes. -/
theorem sameRegister_of_backed (hw : w.Sound) {a b : Register} (ha : w.registers.Backed bank a)
    (hb : w.registers.Backed bank b) (t : Target) :
    sameRegister (w.listing.retarget t) a b = decide (a.base = b.base) := by
  by_cases hbase : a.base = b.base
  · rw [hw.registers.backed_of_base ha hb hbase]
    cases t <;> simp [sameRegister, Listing.samePlace, Listing.retarget]
  · simp [sameRegister, hbase]

theorem addToGroup_retarget (hw : w.Sound) {found : Resolved}
    (hfound : w.registers.Backed bank found.register) (v : Value)
    (hg : ∀ g ∈ groups, WriteGroup w bank limit g) (t : Target) :
    addToGroup (w.listing.retarget t) found v groups = addToGroup w.listing found v groups := by
  induction groups with
  | nil => rfl
  | cons group rest ih =>
    obtain ⟨register, lanes⟩ := group
    have hsame := sameRegister_of_backed hw (hg _ mem_cons_self).backed hfound
    rw [addToGroup, addToGroup, hsame t, ← hsame w.listing.target, Listing.retarget_self,
      ih fun g h => hg g (.tail _ h)]

theorem writeGroup_addToGroup (hw : w.Sound) {found : Resolved} (hfound : found.Typed w bank true)
    (hv : w.listing.Has v Shape.f32) (hg : ∀ g ∈ groups, WriteGroup w bank limit g) :
    ∀ g ∈ addToGroup w.listing found v groups, WriteGroup w bank (limit + 1) g := by
  have widen {g : Register × List (Nat × Value)} (h : WriteGroup w bank limit g) :
      WriteGroup w bank (limit + 1) g := { h with limited := Nat.le_succ_of_le h.limited }
  induction groups with
  | nil =>
    intro g hmem
    rw [mem_singleton.1 hmem]
    exact ⟨hfound.register, hfound.backed rfl, by simp, by simpa using hfound.inside,
      by simpa using hv, by simp⟩
  | cons group rest ih =>
    obtain ⟨register, lanes⟩ := group
    have hgroup := hg _ mem_cons_self
    have hrest : ∀ g ∈ rest, WriteGroup w bank limit g := fun g h => hg g (.tail _ h)
    have hsame := sameRegister_of_backed hw hgroup.backed (hfound.backed rfl) w.listing.target
    rw [Listing.retarget_self] at hsame
    intro g hmem
    rw [addToGroup, hsame] at hmem
    by_cases hbase : register.base = found.register.base
    · rw [if_pos (by simpa using hbase)] at hmem
      rcases mem_cons.1 hmem with rfl | hmem
      · have hregister := hw.registers.backed_of_base hgroup.backed (hfound.backed rfl) hbase
        simp only at hregister
        refine ⟨hgroup.register, hgroup.backed, by simp, fun p hp => ?_, fun p hp => ?_, ?_⟩
        · rcases mem_append.1 hp with hp | hp
          · exact hgroup.inside p hp
          · rw [mem_singleton.1 hp, hregister]
            exact hfound.inside
        · rcases mem_append.1 hp with hp | hp
          · exact hgroup.parts p hp
          · rw [mem_singleton.1 hp]
            exact hv
        · rw [length_append]
          exact Nat.succ_le_succ hgroup.limited
      · exact widen (hrest g hmem)
    · rw [if_neg (by simpa using hbase)] at hmem
      rcases mem_cons.1 hmem with rfl | hmem
      · exact widen hgroup
      · exact ih hrest g hmem

/-- Reading the listing, where every target finds the same answer in it. -/
theorem Checks.inspect {α β : Type} {g : Listing → α} {f : α → Emit β} {R : β → Workspace → Prop}
    (hg : ∀ t, g (w.listing.retarget t) = g w.listing) (hf : Checks P (f (g w.listing)) w R) :
    Checks P (do f (g (← get).listing)) w R := by
  intro hw
  obtain ⟨htarget, hf⟩ := hf hw
  refine ⟨fun t => ?_, hf⟩
  show f (g (w.listing.retarget t)) (w.retarget t) = _
  rw [hg t]
  exact htarget t

theorem checks_addLanes (bank : Bank) (num : Nat) (sub : Int) (limit : Nat)
    (hwrites : ∀ p ∈ writes, w.listing.Has p.2 Shape.f32)
    (hgroups : ∀ g ∈ groups, WriteGroup w bank limit g) :
    Checks .within (writes.foldlM (fun groups (lane, v) => do
      let found ← resolve bank num (← offset (sub + lane)) true
      return addToGroup (← get).listing found v groups) groups) w fun groups w' =>
        ∀ g ∈ groups, WriteGroup w' bank (limit + writes.length) g := by
  induction writes generalizing limit w groups with
  | nil => exact .pure hgroups
  | cons write rest ih =>
    obtain ⟨lane, v⟩ := write
    simp only [foldlM_cons, bind_assoc, pure_bind]
    refine .offset ?_
    refine (checks_resolve num _ true).bind ?_
    intro found w1 h1 hw1 hfound
    have hgroups1 : ∀ g ∈ groups, WriteGroup w1 bank limit g :=
      fun g hg => h1.writeGroup (hgroups g hg)
    have hv := h1.has (hwrites _ mem_cons_self)
    refine .inspect (g := fun l => addToGroup l found v groups) (f := (rest.foldlM _ ·))
      (fun t => addToGroup_retarget hw1 (hfound.backed rfl) v hgroups1 t) ?_
    rw [length_cons, Nat.add_comm rest.length, ← Nat.add_assoc]
    exact ih (limit + 1) (fun p hp => h1.has (hwrites p (.tail _ hp)))
      (writeGroup_addToGroup hw1 hfound hv hgroups1)

theorem checks_groupLanes (bank : Bank) (num : Nat) (sub : Int)
    (hwrites : ∀ p ∈ writes, w.listing.Has p.2 Shape.f32) :
    Checks .within (groupLanes bank num sub writes) w fun groups w' =>
      ∀ g ∈ groups, WriteGroup w' bank writes.length g := by
  have h := checks_addLanes bank num sub 0 hwrites fun _ hg => absurd hg not_mem_nil
  rwa [Nat.zero_add] at h

theorem checks_replaceLanes {register : Register} {lanes : List (Nat × Value)}
    (hg : WriteGroup w bank 4 (register, lanes)) :
    Yields .within (replaceLanes register lanes) w ⟨.f32, register.lanes⟩ := by
  have values {w' : Workspace} (h : w.Continues w') :
      Yields .within (construct (lanes.map Prod.snd)) w' ⟨.f32, lanes.length⟩ := by
    have hparts : ∀ v ∈ lanes.map Prod.snd, w'.listing.Has v ⟨.f32, 1⟩ := by
      intro v hv
      obtain ⟨p, hp, rfl⟩ := mem_map.1 hv
      exact h.has (hg.parts p hp)
    have := checks_construct_scalars (P := .within) hparts (by simpa using hg.nonempty)
      (by simpa using hg.limited)
    rwa [length_map] at this
  rw [replaceLanes]
  refine .ite (fun hwhole => ?_) fun _ => ?_
  · rw [← hwhole]
    exact values (.refl w)
  · refine (checks_load hg.register.place).bind ?_
    intro old w1 h1 _ (hold : w1.listing.Has old ⟨.f32, register.lanes⟩)
    split
    · rename_i index part
      exact checks_insert hold (h1.has (hg.parts _ mem_cons_self))
        (hg.inside _ mem_cons_self)
    · refine (values h1).bind ?_
      intro written w2 h2 _ hwritten
      have hpos : 0 < register.lanes := hg.register.pos
      refine (checks_shuffle (h2.has hold) hwritten (by simp; omega)
        (by simpa using hg.register.width) fun i hi => ?_).mono fun u w' _ _ hu => ?_
      · obtain ⟨j, hj, rfl⟩ := mem_map.1 hi
        have hj := mem_range.1 hj
        split
        · rename_i k hk
          have := (findIdx?_eq_some_iff_findIdx_eq.1 hk).1
          omega
        · omega
      · rwa [length_map, length_range] at hu

instance : Described Register Unit where
  Is w register _ := register.Valid w.listing
  later h hr := h.register hr

instance known_place {register : Register} [h : Known w register ()] :
    Known w register.place ⟨.f32, register.lanes⟩ := ⟨h.is.place⟩

instance inferred_writeRegister (register : Register) (condition : Option Value)
    [Known w register ()] [Known w v ⟨.f32, register.lanes⟩] [Known w condition ()] :
    Inferred w (writeRegister register v condition) () := by
  unfold writeRegister
  exact .of_parts

instance inferred_writeLanes (bank : Bank) (num : Nat) (sub : Int) (writes : List (Nat × Value))
    (condition : Option Value) [hwrites : Known w writes Scalar.f32] [hc : Known w condition ()] :
    Inferred w (writeLanes bank num sub writes condition) () := by
  unfold writeLanes
  refine ⟨(checks_groupLanes bank num sub hwrites.is.2).bind ?_⟩
  intro groups w1 h1 _ hgroups
  refine .forM groups ?_
  rintro ⟨register, lanes⟩ hmem w2 h2 _
  have hg : WriteGroup w2 bank 4 (register, lanes) :=
    { h2.writeGroup (hgroups _ hmem) with
      limited := Nat.le_trans (hgroups _ hmem).limited hwrites.is.1 }
  refine (checks_replaceLanes hg).bind ?_
  intro v w3 h3 _ hv
  have : Known w3 v ⟨.f32, register.lanes⟩ := ⟨hv⟩
  have : Known w3 register () := ⟨h3.register hg.register⟩
  have : Known w3 condition () := ⟨Described.later (h1.trans (h2.trans h3)) hc.is⟩
  exact Inferred.checks

instance inferred_storePredicate (dest : Operand) (sub : Int) (condition : Option Value)
    [hv : Known w v ⟨scalar, n⟩] [hc : Known w condition ()] :
    Inferred w (storePredicate dest v sub condition) () := by
  unfold storePredicate predicateNumber
  refine .proper v fun hn => ⟨.offset ((checks_predicatePlace _).bind ?_)⟩
  intro place w1 h1 _ hplace
  have hv1 := h1.has hv.is
  refine .shapeOf hv1 (.join (Q := fun u w' => w'.listing.Has u ⟨scalar, 1⟩ ∧ w1.Continues w')
    (fun h => ?_) (fun h => ?_) fun u w2 _ _ hu => ?_)
  · exact (checks_extract hv1 (Nat.lt_of_succ_lt h)).mono fun _ _ h _ hu => ⟨hu, h⟩
  · obtain rfl : n = 1 := Nat.le_antisymm (Nat.le_of_not_lt h) hn.pos
    exact .pure ⟨hv1, .refl _⟩
  · obtain ⟨hu, h2⟩ := hu
    have : Known w2 u ⟨scalar, 1⟩ := ⟨hu⟩
    have : Known w2 place ⟨.bool, 1⟩ := ⟨h2.valid hplace⟩
    have : Known w2 condition () := ⟨Described.later (h1.trans h2) hc.is⟩
    refine .ite (fun hbool => ?_) fun _ => Checked.checks
    obtain rfl : scalar = .bool := hbool
    exact Checked.checks

theorem checks_wholeRegister? (dest : Operand) (shape : Shape) (mask : Mask) (sub : Int) :
    Checks .within (wholeRegister? dest shape mask sub) w fun r w' => ∀ register, r = some register →
      register.Valid w'.listing ∧ register.lanes = 4 ∧ shape.count = 4 := by
  rw [wholeRegister?]
  refine .ite (fun hwhole => ?_) fun _ => .pure fun _ h => by cases h
  simp only [Bool.and_eq_true, decide_eq_true_eq] at hwhole
  refine (checks_resolve dest.num sub true).bind ?_
  intro found w1 _ _ hfound
  refine .ite (fun hregister => ?_) fun _ => .pure fun _ h => by cases h
  simp only [Bool.and_eq_true, decide_eq_true_eq] at hregister
  refine .pure fun register h => ?_
  rw [← Option.some.inj h]
  exact ⟨hfound.register, hregister.2, hwhole.2⟩

instance inferred_storeRegister (dest : Operand) (mask : Mask) (sub : Int)
    (condition : Option Value) [hv : Known w v ⟨scalar, n⟩] [hc : Known w condition ()] :
    Inferred w (storeRegister ctx dest v mask sub condition) () := by
  unfold storeRegister
  refine ⟨.shapeOf hv.is ((checks_wholeRegister? dest _ mask sub).bind ?_)⟩
  intro whole w1 h1 _ hwhole
  have : Known w1 v ⟨scalar, n⟩ := ⟨h1.has hv.is⟩
  have : Known w1 condition () := ⟨Described.later h1 hc.is⟩
  cases whole with
  | some register =>
    obtain ⟨hregister, hlanes, rfl⟩ := hwhole register rfl
    have : Known w1 register () := ⟨hregister⟩
    have (w' : Workspace) (u : Value) [h : Known w' u ⟨.f32, 4⟩] :
        Known w' u ⟨.f32, register.lanes⟩ := hlanes ▸ h
    exact Checked.checks
  | none => exact Checked.checks

instance inferred_storeOperand (dest : Operand) (mask : Mask) (sub : Int) (condition : Option Value)
    [Known w v ⟨scalar, n⟩] [Known w condition ()] :
    Inferred w (Access.store ctx dest v mask sub condition) () := by
  unfold Access.store
  refine ⟨.ite (fun _ => .pure trivial) fun _ => ?_⟩
  split <;> exact Checked.checks

end Microcode
