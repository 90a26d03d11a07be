import Microcode.Proofs.Bindings
import Microcode.Proofs.Gathering
import Microcode.Proofs.Swizzling

/-!
What operands read.

An operand of a register bank reads elements of consecutive lanes.  A load gathers the lanes from the
first to the last one it needs, divides them into elements and applies the swizzle.
-/

namespace Microcode

open Machine Emit Access List Operand Access

variable (ctx : Context) (e : Element) {channel : Channel} {sub : Int}

variable {start : Nat → Nat → Lanes} {w : Workspace} {s : State}

/-! ## Masks and channels -/

namespace Mask

variable {mask : Mask}

theorem components_mod (mask : Mask) : components (mask % 16) = components mask := by
  rw [components, components]
  refine filter_congr fun i hi => ?_
  rw [show (16 : Nat) = 2 ^ 4 from rfl, Nat.testBit_mod_two_pow]
  simp [mem_range.1 hi]

theorem lt_of_mem_components {i : Nat} (h : i ∈ components mask) : i < 4 :=
  mem_range.1 (mem_filter.1 h).1

theorem components_ne_nil (h : mask % 16 ≠ 0) : components mask ≠ [] := by
  intro hnil
  refine h (Nat.eq_of_testBit_eq fun i => ?_)
  rw [Nat.zero_testBit, show (16 : Nat) = 2 ^ 4 from rfl, Nat.testBit_mod_two_pow]
  by_cases hi : i < 4
  · have := filter_eq_nil_iff.1 hnil i (mem_range.2 hi)
    simpa [hi] using this
  · simp [hi]

theorem length_components (mask : Mask) : (components mask).length ≤ 4 :=
  Nat.le_trans (length_filter_le _ _) (by simp)

end Mask

/-- What a channel that reads no storage stands for.  Integers drop the fraction of one half, and
what is undefined counts as zero. -/
def Channel.number (channel : Channel) (scalar : Scalar) : Lane :=
  match channel with
  | .one => if scalar = .f32 then 0x3f800000#32 else 1#32
  | .two => if scalar = .f32 then 0x40000000#32 else 2#32
  | .half => if scalar = .f32 then 0x3f000000#32 else 0#32
  | _ => 0#32

theorem Channel.storage?_lt {c : Nat} (h : channel.storage? = some c) : c < 4 := by
  cases channel <;> simp_all [storage?] <;> omega

theorem Element.scalar_ne_bool : e.scalar ≠ .bool := by cases e <;> decide

theorem Channel.number_eq {scalar : Scalar} (hs : scalar ≠ .bool) :
    channel.storage? = none →
      (Constant.ofNumber scalar channel.literal).lane = channel.number scalar := by
  cases scalar with
  | bool => exact absurd rfl hs
  | f32 | i32 | u32 => cases channel <;> decide

theorem Channel.lane_literal {scalar : Scalar} (hs : scalar ≠ .bool) (h : channel.storage? = none)
    (lanes : List Lane) (shift : Int) :
    channel.lane scalar lanes shift = channel.number scalar := by
  rw [← number_eq hs h, lane, picked, h]
  rfl

theorem Channel.lane_storage {c : Nat} (h : channel.storage? = some c) (scalar : Scalar)
    {lanes : List Lane} {shift : Int} {i : Nat} (hi : (c : Int) + shift = i)
    (hlt : i < lanes.length) : channel.lane scalar lanes shift = lanes.getD i 0#32 := by
  have hclamp : (min (max 0 ((c : Int) + shift)) ((lanes.length : Int) - 1)).toNat = i := by omega
  rw [lane, picked, h]
  simp only [Pick.lane, hclamp]

namespace Element

theorem ratio_pos : 0 < e.ratio := by cases e <;> decide

theorem ratio_cases : e.ratio = 1 ∨ e.ratio = 2 ∨ e.ratio = 4 := by
  cases e <;> decide

theorem decode_whole (encoding : HalfEncoding) {e : Element} (h : e.ratio = 1) (lane : Lane)
    (k : Nat) : e.decode encoding lane k = lane := by
  cases e <;> first | rfl | cases h

end Element

/-! ## What an operand reads -/

namespace Operand

variable {op : Operand} {mask : Mask}

/-- What component `i` of an operand reads, if lane `k` of the operand holds `lanes k`. -/
def reads (op : Operand) (encoding : HalfEncoding) (lanes : Nat → Lane) (i : Nat) : Lane :=
  match (op.swizzle.get i).storage? with
  | some c =>
    op.storage.decode encoding (lanes (c / op.storage.ratio)) (c % op.storage.ratio)
  | none => (op.swizzle.get i).number op.storage.scalar

/-- The storage components that an operand reads under a mask. -/
def storageOf (op : Operand) (mask : Mask) : List Nat :=
  (Mask.components mask).filterMap fun i => (op.swizzle.get i).storage?

/-- The first and the last lane that an operand reads. -/
def span? (op : Operand) (mask : Mask) : Option (Nat × Nat) :=
  match (op.storageOf mask).min?, (op.storageOf mask).max? with
  | some least, some greatest => some (least / op.storage.ratio, greatest / op.storage.ratio)
  | _, _ => none

theorem storage_scalar (op : Operand) : op.storage.scalar = op.element.scalar := by
  rw [storage]
  split
  · cases op.element <;> rfl
  · rfl

theorem mem_storageOf {c : Nat} :
    c ∈ op.storageOf mask ↔ ∃ i ∈ Mask.components mask, (op.swizzle.get i).storage? = some c :=
  mem_filterMap

theorem exists_span {c : Nat} (hc : c ∈ op.storageOf mask) :
    ∃ lo hi, op.span? mask = some (lo, hi) := by
  obtain ⟨a, ha⟩ := Option.isSome_iff_exists.1 (isSome_min?_of_mem hc)
  obtain ⟨b, hb⟩ := Option.isSome_iff_exists.1 (isSome_max?_of_mem hc)
  exact ⟨_, _, by rw [span?, ha, hb]⟩

theorem span?_eq_none (h : op.span? mask = none) {i : Nat} (hi : i ∈ Mask.components mask) :
    (op.swizzle.get i).storage? = none := by
  cases hc : (op.swizzle.get i).storage? with
  | none => rfl
  | some c =>
    obtain ⟨lo, hi, hspan⟩ := exists_span (mem_storageOf.2 ⟨i, hi, hc⟩)
    exact nomatch h.symm.trans hspan

/-- The span runs from a lane that is read to one that is read, and holds all of them. -/
theorem span?_eq_some {lo hi : Nat} (h : op.span? mask = some (lo, hi)) :
    (∃ c ∈ op.storageOf mask, lo = c / op.storage.ratio) ∧
      (∃ c ∈ op.storageOf mask, hi = c / op.storage.ratio) ∧
      ∀ c ∈ op.storageOf mask, lo ≤ c / op.storage.ratio ∧ c / op.storage.ratio ≤ hi := by
  rw [span?] at h
  split at h
  · rename_i least greatest hleast hgreatest
    obtain ⟨rfl, rfl⟩ := Prod.mk.inj (Option.some.inj h)
    rw [min?_eq_some_iff] at hleast
    rw [max?_eq_some_iff] at hgreatest
    exact ⟨⟨_, hleast.1, rfl⟩, ⟨_, hgreatest.1, rfl⟩, fun c hc =>
      ⟨Nat.div_le_div_right (hleast.2 c hc), Nat.div_le_div_right (hgreatest.2 c hc)⟩⟩
  · cases h

theorem span?_width {lo hi : Nat} (h : op.span? mask = some (lo, hi)) :
    lo ≤ hi ∧ (hi + 1) * op.storage.ratio ≤ 4 := by
  obtain ⟨⟨c, hc, rfl⟩, ⟨d, hd, rfl⟩, hall⟩ := span?_eq_some h
  obtain ⟨i, -, hi⟩ := mem_storageOf.1 hd
  have hd4 := Channel.storage?_lt hi
  refine ⟨(hall c hc).2, ?_⟩
  rcases op.storage.ratio_cases with hr | hr | hr <;> rw [hr] <;> omega

/-- The lanes that a load of the operand gathers. -/
def gathered (op : Operand) (r : RegisterFile) (s : State) (mask : Mask) (sub : Int) (k : Nat) :
    Lane :=
  match op.span? mask with
  | some (lo, hi) =>
    (r.lanesFrom s op.bank (hi - lo + 1) (laneNumber op.bank op.num (sub + lo))
      (hi - lo + 1)).getD (k - lo) 0#32
  | none => 0#32

theorem gathered_of_span {r : RegisterFile} {s : State} {sub : Int} {lo hi : Nat}
    (h : op.span? mask = some (lo, hi)) (k : Nat) : op.gathered r s mask sub k =
      (r.lanesFrom s op.bank (hi - lo + 1) (laneNumber op.bank op.num (sub + lo))
        (hi - lo + 1)).getD (k - lo) 0#32 := by
  rw [gathered, h]

/-- The first lane that a load of the operand gathers can be read. -/
def Starts (op : Operand) (r : RegisterFile) (mask : Mask) (sub : Int) : Prop :=
  ∀ lo hi, op.span? mask = some (lo, hi) →
    r.Reaches op.bank (laneNumber op.bank op.num (sub + lo)) false

/-- The lanes that a load of the operand gathers cannot be gathered. -/
def Barred (op : Operand) (r : RegisterFile) (mask : Mask) (sub : Int) : Prop :=
  ∃ lo hi, op.span? mask = some (lo, hi) ∧
    Blocked r op.bank op.num (sub + lo) (hi - lo + 1) True

end Operand

theorem Quiet.gathered {w' : Workspace} {s' : State} (q : Quiet start w s w' s') (h : Good w s)
    (op : Operand) (mask : Mask) (sub : Int) :
    op.gathered w'.registers s' mask sub = op.gathered w.registers s mask sub := by
  funext k
  rw [Operand.gathered, Operand.gathered]
  cases op.span? mask with
  | none => rfl
  | some span => simp only [(q.rereads h ..).again]

/-! ## Loads of registers -/

section

variable {op : Operand} {mask : Mask} {lo hi : Nat} {lanes : List Lane}

theorem computes_bridge_whole {left right : Value} {xs ys : List Lane} {first : Nat}
    (encoding : HalfEncoding) (hl : Holds w s left op.storage.scalar xs)
    (hr : Holds w s right op.storage.scalar ys) (hratio : op.storage.ratio = 1)
    (hmask : Mask.components mask ≠ []) (hspan : op.span? mask = some (lo, hi))
    (hlen : lanes.length = hi - lo + 1) (hlanes : ((xs ++ ys).drop first).take lanes.length = lanes) :
    Computes start (bridge left right op.swizzle ((first : Int) - lo) mask) w s op.storage.scalar
      ((Mask.components mask).map (op.reads encoding fun k => lanes.getD (k - lo) 0#32)) := by
  have hin : first + lanes.length ≤ (xs ++ ys).length := by
    have := congrArg List.length hlanes
    simp only [length_take, length_drop] at this
    omega
  have hall := (span?_eq_some hspan).2.2
  have hwidth := span?_width hspan
  have hbounds : ∀ i ∈ Mask.components mask, ∀ c, (op.swizzle.get i).storage? = some c →
      lo ≤ c ∧ c ≤ hi := by
    intro i hi' c hc
    have := hall c (mem_storageOf.2 ⟨i, hi', hc⟩)
    rwa [hratio, Nat.div_one] at this
  have := hl.width
  have := hr.width
  rw [length_append] at hin
  refine (computes_bridge hl hr op.swizzle _ hmask fun i hi' c hc => ?_).of_eq ?_
  · have := hbounds i hi' c hc
    have := Channel.storage?_lt hc
    omega
  refine map_congr_left fun i hi' => ?_
  rw [reads]
  cases hc : (op.swizzle.get i).storage? with
  | none => exact Channel.lane_literal op.storage.scalar_ne_bool hc _ _
  | some c =>
    have hb := hbounds i hi' c hc
    rw [Channel.lane_storage hc _ (show (c : Int) + (first - lo) = (first + (c - lo) : Nat) by omega)
      (by rw [length_append]; omega)]
    simp only [Element.decode_whole encoding hratio, hratio, Nat.div_one]
    rw [← hlanes, getD_eq_getElem?_getD, getD_eq_getElem?_getD, getElem?_take,
      if_pos (by omega), getElem?_drop]

/-- The elements of lanes, in order. -/
def Element.sequence (e : Element) (encoding : HalfEncoding) (lanes : List Lane) : List Lane :=
  lanes.flatMap fun x => (List.range e.ratio).map (e.decode encoding x)

theorem Element.length_sequence (encoding : HalfEncoding) (lanes : List Lane) :
    (e.sequence encoding lanes).length = lanes.length * e.ratio := by
  induction lanes with
  | nil => rw [sequence, flatMap_nil, length_nil, Nat.zero_mul]
  | cons x rest ih =>
    rw [sequence, flatMap_cons, length_append, length_map, length_range,
      ← sequence, ih, length_cons, Nat.succ_mul, Nat.add_comm]

theorem Element.getD_sequence (encoding : HalfEncoding) {lanes : List Lane} {k f : Nat}
    (hk : k < lanes.length) (hf : f < e.ratio) :
    (e.sequence encoding lanes).getD (k * e.ratio + f) 0#32 =
      e.decode encoding (lanes.getD k 0#32) f := by
  induction lanes generalizing k with
  | nil => cases hk
  | cons x rest ih =>
    rw [sequence, flatMap_cons, ← sequence]
    cases k with
    | zero =>
      rw [Nat.zero_mul, Nat.zero_add, getD_append _ _ _ _ (by simpa using hf),
        getD_eq_getElem _ _ (by simpa using hf), getElem_map, getElem_range]
      rfl
    | succ k =>
      rw [Nat.succ_mul, getD_append_right _ _ _ _ (by simp; omega), length_map,
        length_range, show k * e.ratio + e.ratio + f - e.ratio = k * e.ratio + f by omega,
        ih (by simpa using hk)]
      rfl

theorem computes_unpack {packed : Value} (hp : Holds w s packed .f32 lanes) (element : Element)
    (hwidth : lanes.length * element.ratio ≤ 4) (swizzle : Swizzle)
    (hmask : Mask.components mask ≠ []) (shift : Int)
    (hrange : ∀ i ∈ Mask.components mask, ∀ c, (swizzle.get i).storage? = some c →
      -0x80000000 ≤ (c : Int) + shift ∧ (c : Int) + shift < 0x80000000) :
    Computes start (unpack ctx packed element swizzle mask shift) w s element.scalar
      ((Mask.components mask).map fun i => (swizzle.get i).lane element.scalar
        (element.sequence ctx.halfEncoding lanes ++ element.sequence ctx.halfEncoding lanes)
        shift) := by
  intro E
  rw [unpack]
  refine Emits.countOf ?_
  rw [hp.countOf]
  refine (emits_mapM_holds element.scalar (List.range lanes.length)
    (fun k => (List.range element.ratio).map
      (element.decode ctx.halfEncoding (lanes.getD k 0#32))) fun k hk w' s' q => ?_).bind
    fun parts w1 s1 q1 hparts => ?_
  · exact (computes_extract (hp.quiet q) (mem_range.1 hk)).bind fun v w1 s1 _ hv =>
      computes_unpackLane ctx hv element
  have hflat : ((List.range lanes.length).map fun k => (List.range element.ratio).map
      (element.decode ctx.halfEncoding (lanes.getD k 0#32))).flatten =
      element.sequence ctx.halfEncoding lanes := by
    rw [Element.sequence, flatMap_def]
    congr 1
    refine ext_getElem (by simp) fun k hk _ => ?_
    have hk' : k < lanes.length := by simpa using hk
    rw [getElem_map, getElem_map, getElem_range, getD_eq_getElem _ _ hk']
  have hcount : parts.length = lanes.length := by
    rw [hparts.length_eq, length_map, length_range]
  have hsplit : splitParts parts element.ratio 4 = (parts, []) := by
    rw [splitParts, splitAt_eq]
    have hle : parts.length ≤ (4 + element.ratio - 1) / element.ratio := by
      rw [hcount, Nat.le_div_iff_mul_le element.ratio_pos]
      have := element.ratio_pos
      omega
    rw [take_of_length_le hle, drop_of_length_le hle]
  rw [hsplit]
  have hpos := hp.pos
  refine Emits.bind (((computes_construct hparts (fun h => ?_) ?_).of_eq hflat) E)
    fun left w2 s2 q2 hleft => ?_
  · rw [h] at hcount
    exact absurd hcount (by simp; omega)
  · rw [hflat, Element.length_sequence]
    exact hwidth
  · exact computes_bridge hleft hleft swizzle shift hmask hrange E

theorem computes_unpack_reads {packed : Value} (hp : Holds w s packed .f32 lanes)
    (hmask : Mask.components mask ≠ []) (hspan : op.span? mask = some (lo, hi))
    (hlen : lanes.length = hi - lo + 1) :
    Computes start (unpack ctx packed op.storage op.swizzle mask (-(lo * op.storage.ratio : Nat)))
      w s op.storage.scalar ((Mask.components mask).map
        (op.reads ctx.halfEncoding fun k => lanes.getD (k - lo) 0#32)) := by
  have hall := (span?_eq_some hspan).2.2
  have hwidth := span?_width hspan
  have hpos := op.storage.ratio_pos
  have hfit : lanes.length * op.storage.ratio ≤ 4 :=
    Nat.le_trans (Nat.mul_le_mul_right _ (by omega)) hwidth.2
  have hlo : lo * op.storage.ratio ≤ 4 :=
    Nat.le_trans (Nat.mul_le_mul_right _ (by omega)) hwidth.2
  refine (computes_unpack ctx hp op.storage hfit op.swizzle hmask _ fun i hi' c hc => ?_).of_eq ?_
  · have := Channel.storage?_lt hc
    omega
  refine map_congr_left fun i hi' => ?_
  rw [reads]
  cases hc : (op.swizzle.get i).storage? with
  | none => exact Channel.lane_literal op.storage.scalar_ne_bool hc _ _
  | some c =>
    have hb := hall c (mem_storageOf.2 ⟨i, hi', hc⟩)
    -- Component `c` is field `c % ratio` of lane `c / ratio`, and the lanes start at `lo`.
    have hf := Nat.mod_lt c hpos
    have hdiv := Nat.div_add_mod' c op.storage.ratio
    have hsub : (c / op.storage.ratio - lo) * op.storage.ratio + lo * op.storage.ratio =
        c / op.storage.ratio * op.storage.ratio := by
      rw [← Nat.add_mul, Nat.sub_add_cancel hb.1]
    have hk : c / op.storage.ratio - lo < lanes.length := by omega
    have hlt : (c / op.storage.ratio - lo) * op.storage.ratio + c % op.storage.ratio <
        (op.storage.sequence ctx.halfEncoding lanes).length := by
      rw [Element.length_sequence]
      have := Nat.mul_le_mul_right op.storage.ratio (Nat.succ_le_of_lt hk)
      rw [Nat.succ_mul] at this
      omega
    rw [Channel.lane_storage hc _ (show (c : Int) + -(lo * op.storage.ratio : Nat) =
      ((c / op.storage.ratio - lo) * op.storage.ratio + c % op.storage.ratio : Nat) by omega)
      (by rw [length_append]; omega), getD_append _ _ _ _ hlt,
      Element.getD_sequence _ _ hk hf]

theorem computes_literalChannels (op : Operand) (encoding : HalfEncoding) (lanes : Nat → Lane)
    (hmask : Mask.components mask ≠ []) (hspan : op.span? mask = none) :
    Computes start (literalChannels op.storage.scalar op.swizzle mask) w s op.storage.scalar
      ((Mask.components mask).map (op.reads encoding lanes)) := by
  intro E
  rw [literalChannels]
  refine (emits_mapM_holds op.storage.scalar (Mask.components mask)
    (fun i => [op.reads encoding lanes i]) fun i hi' w' s' _ => ?_).bind fun parts w1 s1 q1 hparts => ?_
  · have hnone := span?_eq_none hspan hi'
    rw [reads, hnone]
    simp only [← Channel.number_eq op.storage.scalar_ne_bool hnone]
    exact computes_ofNumber op.storage.scalar _
  · have hflat := flatten_map_singleton (Mask.components mask) (op.reads encoding lanes)
    refine (computes_construct hparts (fun h => hmask ?_) ?_).of_eq hflat E
    · rw [h, forall₂_nil_left_iff] at hparts
      exact map_eq_nil_iff.1 hparts
    · rw [hflat, length_map]
      exact Mask.length_components mask

/-- Gathered lanes as the components of an operand. -/
def readLanes (ctx : Context) (op : Operand) (mask : Mask) (lo : Nat) (segments : List Segment) :
    Emit Value := do
  if op.storage.ratio = 1 then
    let (left, right, first) ← twoValues segments
    if op.storage.scalar = .f32 then bridge left right op.swizzle ((first : Int) - lo) mask
    else
      let left ← convert .bitcast left op.storage.scalar
      let right ← convert .bitcast right op.storage.scalar
      bridge left right op.swizzle ((first : Int) - lo) mask
  else
    unpack ctx (← compact segments) op.storage op.swizzle mask (-(lo * op.storage.ratio : Nat))

theorem loadRegister_eq (op : Operand) (mask : Mask) (sub : Int) :
    loadRegister ctx op mask sub =
      match op.span? mask with
      | some (lo, hi) => do
        let first ← offset (sub + lo)
        let segments ← gather op.bank op.num first (hi - lo + 1)
        readLanes ctx op mask lo segments
      | none => literalChannels op.storage.scalar op.swizzle mask := by
  rw [loadRegister, span?, storageOf]
  generalize (Mask.components mask).filterMap (fun i => (op.swizzle.get i).storage?) = storage
  cases storage.min? <;> cases storage.max? <;> rfl

theorem computes_readLanes {segments : List Segment} (hsegments : Covers w s segments lanes)
    (hmask : Mask.components mask ≠ []) (hspan : op.span? mask = some (lo, hi))
    (hlen : lanes.length = hi - lo + 1) :
    Computes start (readLanes ctx op mask lo segments) w s op.storage.scalar
      ((Mask.components mask).map
        (op.reads ctx.halfEncoding fun k => lanes.getD (k - lo) 0#32)) := by
  intro E
  have hpos : 0 < lanes.length := by omega
  have hwidth : lanes.length ≤ 4 := by
    have := span?_width hspan
    have := Nat.mul_le_mul_left (hi + 1) op.storage.ratio_pos
    omega
  rw [readLanes]
  by_cases hratio : op.storage.ratio = 1
  · rw [if_pos hratio]
    refine (emits_twoValues hsegments hpos hwidth).bind fun p w1 s1 q1 h1 => ?_
    obtain ⟨xs, ys, hl, hr, hlanes⟩ := h1
    by_cases hfloat : op.storage.scalar = .f32
    · rw [← hfloat] at hl hr
      simp only [if_pos hfloat]
      exact computes_bridge_whole ctx.halfEncoding hl hr hratio hmask hspan hlen hlanes E
    · simp only [if_neg hfloat]
      refine (computes_bitcast op.storage.scalar hl E).bind fun left w2 s2 q2 hl2 => ?_
      refine (computes_bitcast op.storage.scalar (hr.quiet q2) E).bind fun right w3 s3 q3 hr3 => ?_
      exact computes_bridge_whole ctx.halfEncoding (hl2.quiet q3) hr3 hratio hmask hspan hlen hlanes E
  · rw [if_neg hratio]
    exact (computes_compact hsegments hpos hwidth E).bind fun packed w1 s1 _ hp =>
      computes_unpack_reads ctx hp hmask hspan hlen E

/-- A load of a register reads the lanes it gathers, which can be gathered again, and fails only where
they cannot be gathered. -/
theorem emits_loadRegister (op : Operand) (hmask : Mask.components mask ≠ []) (sub : Int) :
    Emits (.keeps start) (loadRegister ctx op mask sub) w s
      (fun v w' s' => Holds w' s' v op.storage.scalar ((Mask.components mask).map
          (op.reads ctx.halfEncoding (op.gathered w.registers s mask sub))) ∧
        op.Starts w.registers mask sub ∧
        op.gathered w'.registers s' mask sub = op.gathered w.registers s mask sub ∧
        SameLanes w s w' s')
      (fun _ _ => op.Barred w.registers mask sub) := by
  rw [loadRegister_eq]
  cases hspan : op.span? mask with
  | none =>
    exact (computes_literalChannels op _ _ hmask hspan _).rel.keeps.gives
      fun v w' s' k hv => ⟨hv.2, fun lo hi h => (nomatch hspan.symm.trans h), hv.1.gathered k.good ..,
        Quiet.sameLanes hv.1⟩
  | some span =>
    obtain ⟨lo, hi⟩ := span
    have hwidth := span?_width hspan
    have hfour : hi - lo + 1 ≤ 4 := by
      have := Nat.mul_le_mul_left (hi + 1) op.storage.ratio_pos
      omega
    refine Emits.offset (fun h => ⟨lo, hi, hspan, .range 0 (by omega) (by simpa using h)⟩)
      fun _ => ?_
    refine Emits.bind ((emits_gather op.num (sub + lo) (by omega) hfour).fails
      fun _ _ h => ⟨lo, hi, hspan, h⟩) fun segments w1 s1 k1 h1 => ?_
    refine (computes_readLanes ctx h1.1 hmask hspan
      (k1.good.registers.length_lanesFrom (Nat.le_refl _)) _).rel.keeps.gives
      fun v w' s' k2 h2 => ⟨?_, fun lo' hi' h => ?_, ?_, h1.2.2.lanes.trans (Quiet.sameLanes h2.1)⟩
    · rw [show op.gathered w.registers s mask sub = _ from funext (gathered_of_span hspan)]
      exact h2.2
    · obtain ⟨rfl, rfl⟩ := Prod.mk.inj (Option.some.inj (hspan.symm.trans h))
      exact h1.2.1
    · refine (Quiet.gathered h2.1 k2.good ..).trans (funext fun k => ?_)
      rw [gathered_of_span hspan, gathered_of_span hspan, h1.2.2.again]

theorem load_of_isRegister {op : Operand} (hbank : op.bank.isRegister = true)
    (hmask : mask % 16 ≠ 0) (sub : Int) :
    load ctx op mask sub =
      loadRegister ctx op (mask % 16) sub >>= Access.modify op.modifiers := by
  rw [Access.load]
  simp only [if_neg hmask]
  generalize hb : op.bank = bank at hbank
  cases bank <;> simp_all [Bank.isRegister]

theorem nonempty_of_load {w w' : Workspace} {ctx : Context} {v : Value}
    (h : Access.load ctx op mask sub w = .ok v w') : mask % 16 ≠ 0 := by
  intro hmask
  rw [Access.load] at h
  simp only [if_pos hmask] at h
  cases (show EStateM.Result.error _ w = .ok v w' from h)

/-- Modifiers apply to what a register operand reads. -/
theorem emits_load {op : Operand} (hbank : op.bank.isRegister = true) (hmask : mask % 16 ≠ 0)
    (sub : Int) :
    Emits (.keeps start) (load ctx op mask sub) w s
      (fun v w' s' => Holds w' s' v op.storage.scalar ((Mask.components mask).map fun i =>
          op.modifiers.apply op.storage.scalar
            (op.reads ctx.halfEncoding (op.gathered w.registers s mask sub) i)) ∧
        op.Starts w.registers mask sub ∧
        op.gathered w'.registers s' mask sub = op.gathered w.registers s mask sub ∧
        SameLanes w s w' s')
      (fun _ _ => op.Barred w.registers mask sub) := by
  rw [load_of_isRegister ctx hbank hmask]
  have hne : Mask.components (mask % 16) ≠ [] := by
    rw [Mask.components_mod]
    exact Mask.components_ne_nil hmask
  have hspan : op.span? (mask % 16) = op.span? mask := by
    rw [span?, span?, storageOf, storageOf, Mask.components_mod]
  have hgathered (r : RegisterFile) (s : State) :
      op.gathered r s (mask % 16) sub = op.gathered r s mask sub := by
    funext k
    rw [gathered, gathered, hspan]
  have h : Emits (.keeps start) (loadRegister ctx op (mask % 16) sub) w s _ _ :=
    emits_loadRegister ctx op hne sub
  simp only [Starts, Barred, hspan, hgathered, Mask.components_mod] at h
  refine h.bind fun v w1 s1 _ h1 => ?_
  refine (computes_modify op.modifiers h1.1 _).rel.keeps.gives fun u w2 s2 k2 h2 =>
    ⟨?_, h1.2.1, (Quiet.gathered h2.1 k2.good ..).trans h1.2.2.1, h1.2.2.2.trans (Quiet.sameLanes h2.1)⟩
  have hu := h2.2
  rw [map_map] at hu
  exact hu

/-! ## Loads of constants and immediates -/

/-- The constant that component `i` of an operand reads, if the tables have it. -/
def Operand.constant? (op : Operand) (i : Nat) : Option Lane :=
  (op.swizzle.get i).literal?.or
    (constantAt ctx op i (op.num + (op.swizzle.get i).storage?.getD 0))

/-- What component `i` of an immediate operand reads. -/
def Operand.immediate (op : Operand) (i : Nat) : Lane :=
  match (op.swizzle.get i).storage? with
  | some _ => (immediateFill op).lane
  | none => (op.swizzle.get i).number op.storage.scalar

/-- What component `i` of an operand that is no register reads, before its modifiers. -/
def Operand.fixed? (op : Operand) (i : Nat) : Option Lane :=
  match op.bank with
  | .constant => (op.constant? ctx i).map (Machine.convert .numeric .f32 op.storage.scalar)
  | .immediate => some (op.immediate i)
  | _ => none

theorem computes_loadImmediate (op : Operand) (hmask : Mask.components mask ≠ []) :
    Computes start (loadImmediate op mask) w s op.storage.scalar
      ((Mask.components mask).map op.immediate) := by
  have hscalar : (immediateFill op).scalar = op.storage.scalar := by
    rw [op.storage_scalar, immediateFill]
    cases op.element <;> rfl
  have hliteral {i : Nat} (h : (op.swizzle.get i).storage? = none) :
      (Constant.ofNumber op.storage.scalar (op.swizzle.get i).literal).lane = op.immediate i := by
    rw [immediate, h]
    exact Channel.number_eq op.storage.scalar_ne_bool h
  rw [loadImmediate]
  split
  case h_1 bits hbits =>
    split at hbits
    case h_2 => cases hbits
    case h_1 i hi =>
      rw [hi, map_singleton, ← hliteral, Channel.literal, hbits, ← op.storage_scalar]
      · exact computes_ofNumber op.storage.scalar bits
      · generalize op.swizzle.get i = channel at hbits
        cases channel <;> first | rfl | cases hbits
  case h_2 =>
    have hpos : 0 < Mask.count mask := length_pos_of_ne_nil hmask
    refine (computes_splatConstant _ hpos (Mask.length_components mask)).bind fun v w1 s1 _ hv => ?_
    rw [hscalar] at hv
    refine (computes_bridge hv hv op.swizzle 0 hmask fun i _ c hc => ?_).of_eq
      (map_congr_left fun i _ => ?_)
    · have := Channel.storage?_lt hc
      omega
    · cases hc : (op.swizzle.get i).storage? with
      | none => rw [Channel.lane, picked, hc, ← hliteral hc]; rfl
      | some c =>
        rw [Channel.lane, picked, immediate, hc, replicate_append_replicate]
        simp only [Pick.lane, length_replicate]
        rw [getD_replicate]
        omega

theorem emits_loadConstant (op : Operand) (hmask : Mask.components mask ≠ []) :
    Emits (.quiet start) (loadConstant ctx op mask) w s
      (fun v w' s' => ∃ xs : List Lane, (Mask.components mask).map (op.constant? ctx) = xs.map some ∧
        Holds w' s' v op.storage.scalar
          (xs.map (Machine.convert .numeric .f32 op.storage.scalar))) (fun _ _ => True) := by
  have given (bits : Lane) {w : Workspace} {s : State} : Emits (.quiet start)
      (constant (.f32 bits)) w s (fun v w' s' => ∃ x, some bits = some x ∧ Holds w' s' v .f32 [x])
      (fun _ _ => True) :=
    (computes_constant (.f32 bits) _).gives fun v w' s' _ hv => ⟨bits, rfl, hv⟩
  rw [op.storage_scalar, loadConstant]
  refine (Emits.mapM (R := fun i v w' s' => ∃ x, op.constant? ctx i = some x ∧
    Holds w' s' v .f32 [x]) _ (fun _ _ _ _ _ _ q hv => hv.imp fun _ h => ⟨h.1, h.2.quiet q⟩)
    fun i _ w' s' _ => ?_).bind fun parts w1 s1 q1 hparts => ?_
  · dsimp only [constant?]
    cases (op.swizzle.get i).literal? with
    | some bits => exact given bits
    | none =>
      refine Emits.word (fun _ => trivial) fun _ => ?_
      rw [Option.none_or]
      cases constantAt ctx op i (op.num + (op.swizzle.get i).storage?.getD 0) with
      | none => exact fun _ => trivial
      | some bits => exact given bits
  · obtain ⟨xs, hxs, hholds⟩ : ∃ xs : List Lane, (Mask.components mask).map (op.constant? ctx) = xs.map some ∧
        List.Forall₂ (fun v ys => Holds w1 s1 v .f32 ys) parts (xs.map fun x => [x]) := by
      generalize Mask.components mask = components at hparts
      induction hparts with
      | nil => exact ⟨[], rfl, .nil⟩
      | cons hv _ ih =>
        obtain ⟨x, hx, hv⟩ := hv
        obtain ⟨xs, hxs, hrest⟩ := ih
        exact ⟨x :: xs, by rw [map_cons, hx, hxs, map_cons], .cons hv hrest⟩
    have hlength : (Mask.components mask).length = xs.length := by
      simpa using congrArg List.length hxs
    have hflat : (xs.map fun x => [x]).flatten = xs := (flatten_map_singleton xs id).trans (map_id xs)
    refine (computes_construct hholds (fun hnil => hmask ?_) ?_ _).bind fun v w2 s2 _ hv => ?_
    · rw [hnil, forall₂_nil_left_iff, map_eq_nil_iff] at hholds
      rw [← length_eq_zero_iff, hlength, hholds, length_nil]
    · rw [hflat, ← hlength]
      exact Mask.length_components mask
    · rw [hflat] at hv
      by_cases hscalar : op.element.scalar = .f32
      · rw [if_pos hscalar, hscalar]
        refine .pure ⟨xs, hxs, ?_⟩
        rwa [show Machine.convert .numeric .f32 .f32 = id from rfl, map_id]
      · rw [if_neg hscalar]
        exact (computes_convert .numeric _ hv _).gives fun u w3 s3 _ hu => ⟨xs, hxs, hu⟩

theorem computes_load_immediate (hbank : op.bank = .immediate) (hmask : mask % 16 ≠ 0) (sub : Int) :
    Computes start (load ctx op mask sub) w s op.storage.scalar
      (((Mask.components mask).map op.immediate).map (op.modifiers.apply op.storage.scalar)) := by
  rw [Access.load]
  simp only [if_neg hmask, hbank]
  rw [← Mask.components_mod]
  refine (computes_loadImmediate op ?_).bind fun v w1 s1 _ hv => computes_modify op.modifiers hv
  rw [Mask.components_mod]
  exact Mask.components_ne_nil hmask

/-- What an operand that is no register reads depends on nothing but the constants. -/
theorem emits_load_fixed (hbank : ¬ op.bank.isRegister = true) (hpredicate : op.bank ≠ .predicate)
    (hmask : mask % 16 ≠ 0) (sub : Int) :
    Emits (.quiet start) (load ctx op mask sub) w s
      (fun v w' s' => ∃ xs : List Lane, (Mask.components mask).map (op.fixed? ctx) = xs.map some ∧
        Holds w' s' v op.storage.scalar (xs.map (op.modifiers.apply op.storage.scalar)))
      (fun _ _ => True) := by
  unfold fixed?
  by_cases himmediate : op.bank = .immediate
  · simp only [himmediate]
    exact (computes_load_immediate ctx himmediate hmask sub _).gives
      fun v w' s' _ hv => ⟨_, (map_map ..).symm, hv⟩
  rw [Access.load]
  simp only [if_neg hmask]
  generalize hb : op.bank = bank at hbank hpredicate himmediate ⊢
  cases bank
  case constant =>
    have hne : Mask.components (mask % 16) ≠ [] := by
      rw [Mask.components_mod]
      exact Mask.components_ne_nil hmask
    refine (emits_loadConstant ctx op hne).bind fun v w1 s1 _ h1 => ?_
    obtain ⟨xs, hxs, hv⟩ := h1
    rw [Mask.components_mod] at hxs
    refine (computes_modify op.modifiers hv _).gives fun u w2 s2 _ hu => ⟨_, ?_, hu⟩
    rw [← Function.comp_def, ← map_map, hxs, map_map, map_map]
    rfl
  case immediate => exact absurd rfl himmediate
  case predicate => exact absurd rfl hpredicate
  case temporary | primaryAttribute | output | secondaryAttribute | internal =>
    exact absurd rfl hbank
  all_goals exact fun _ => trivial

end

/-! ## Loads on a machine -/

/-- Lane `sub` from register `num` on can be read. -/
def Workspace.Resolves (w : Workspace) (bank : Bank) (num : Nat) (sub : Int) : Prop :=
  ∃ found w', (offset sub >>= fun sub => resolve bank num sub false) w = .ok found w'

/-- Lanes of an operand between the first and the last one that it reads. -/
def Operand.Touches (op : Operand) (mask : Mask) (k : Nat) : Prop :=
  ∃ c ∈ op.storageOf mask, ∃ d ∈ op.storageOf mask,
    c / op.storage.ratio ≤ k ∧ k ≤ d / op.storage.ratio

theorem Operand.touches_of_span {op : Operand} {mask : Mask} {lo hi k : Nat}
    (h : op.span? mask = some (lo, hi)) (hlo : lo ≤ k) (hhi : k ≤ hi) : op.Touches mask k := by
  obtain ⟨⟨c, hc, rfl⟩, ⟨d, hd, rfl⟩, -⟩ := span?_eq_some h
  exact ⟨c, hc, d, hd, hlo, hhi⟩

theorem Good.reaches {bank : Bank} {num : Nat} (h : Good w s) (hr : w.Resolves bank num sub) :
    (-0x80000000 ≤ sub ∧ sub < 0x80000000) ∧
      w.registers.Reaches bank (laneNumber bank num sub) false := by
  obtain ⟨found, w', hok⟩ := hr
  have spec : Emits (.keeps fun _ _ => .replicate 0#32)
      (offset sub >>= fun sub => resolve bank num sub false) w s
      (fun _ _ _ => (-0x80000000 ≤ sub ∧ sub < 0x80000000) ∧
        w.registers.Reaches bank (laneNumber bank num sub) false) (fun _ _ => True) :=
    Emits.offset (fun _ => trivial) fun hsub => (emits_resolve num sub false).mono
      (fun _ _ _ _ hf => ⟨hsub, hf.reached⟩) fun _ _ _ => trivial
  obtain ⟨_, -, hspec⟩ := spec.of_ok h hok
  exact hspec

theorem RegisterFile.Reaches.isSome_laneAt {r : RegisterFile} {bank : Bank} {number : Int}
    (h : r.Reaches bank number false) (s : State) :
    (r.laneAt s bank number.toNat).isSome = true := by
  have hr := h.2.2
  rw [if_neg (by simp)] at hr
  rw [laneAt, resolved?]
  cases hheld : r.held? bank number.toNat with
  | some _ => rfl
  | none =>
    cases hbound : r.bound? bank number.toNat with
    | some _ => rfl
    | none =>
      rw [hheld, hbound] at hr
      simp only [Option.isSome_none, Bool.false_eq_true, false_or] at hr
      rw [Option.none_or]
      simp only [if_pos hr.2.1, Option.isSome_some]

/-- Where registers stay within groups and every touched lane can be read, what is gathered is what
the lanes hold. -/
theorem Operand.gathered_eq {op : Operand} {mask : Mask} (h : Good w s)
    (ha : w.registers.Aligned op.bank)
    (hres : ∀ k : Nat, op.Touches mask k → w.Resolves op.bank op.num (sub + k)) {k : Nat}
    (hk : op.Touches mask k) :
    w.registers.laneAt s op.bank (laneNumber op.bank op.num (sub + k)).toNat =
      some (op.gathered w.registers s mask sub k) := by
  obtain ⟨c, hc, d, hd, hck, hkd⟩ := hk
  obtain ⟨lo, hi, hspan⟩ := exists_span hc
  have hall := (span?_eq_some hspan).2.2
  have hlo := (hall c hc).1
  have hhi := (hall d hd).2
  rw [laneNumber_of_le _ _ _ (show lo ≤ k by omega), gathered_of_span hspan]
  refine h.registers.getD_lanesFrom (Nat.le_refl _) (fun _ => ha.unbroken) (by omega) fun i hi' => ?_
  have hreach := (h.reaches (hres (lo + i) (touches_of_span hspan (by omega) (by omega)))).2
  rw [laneNumber_of_le _ _ _ (Nat.le_add_right lo i), Nat.add_sub_cancel_left] at hreach
  exact ⟨⟨hreach.1, hreach.2.1⟩, hreach.isSome_laneAt s⟩

theorem Operand.not_blocked {op : Operand} {mask : Mask} (h : Good w s)
    (hres : ∀ k : Nat, op.Touches mask k → w.Resolves op.bank op.num (sub + k)) {lo hi : Nat}
    (hspan : op.span? mask = some (lo, hi)) :
    ¬ Blocked w.registers op.bank op.num (sub + lo) (hi - lo + 1) True := by
  have hwidth := span?_width hspan
  have reach : ∀ j : Nat, j < hi - lo + 1 →
      (-0x80000000 ≤ sub + lo + j ∧ sub + lo + j < 0x80000000) ∧
        w.registers.Reaches op.bank (laneNumber op.bank op.num (sub + lo + j)) false := by
    intro j hj
    rw [show sub + lo + j = sub + (lo + j : Nat) by omega]
    exact h.reaches (hres (lo + j) (touches_of_span hspan (by omega) (by omega)))
  intro hblocked
  cases hblocked with
  | range j hj hrange => exact hrange (reach j hj).1
  | first _ unreached =>
    have := (reach 0 (by omega)).2
    rw [Int.natCast_zero, Int.add_zero] at this
    exact unreached this
  | overflow j hj unreached _ => exact unreached (reach j hj).2

/-- Two primary attributes, of two lanes and of one, that follow each other. -/
def twoAttributes : Workspace where
  listing :=
    { target := .machine
      entries := #[.declare ⟨"a", ⟨.f32, 2⟩, .input 0⟩, .declare ⟨"b", Shape.f32, .input 1⟩]
      vars := #[⟨"a", ⟨.f32, 2⟩, .input 0⟩, ⟨"b", Shape.f32, .input 1⟩] }
  registers :=
    { tables := fun bank =>
        if bank = .primaryAttribute then ⟨[(0, .vector ⟨0, []⟩ 2), (2, .vector ⟨1, []⟩ 1)]⟩ else {} }

theorem fresh_twoAttributes : twoAttributes.registers.Fresh twoAttributes.listing where
  shadows := rfl
  predicates := rfl
  disjoint bank := by
    by_cases h : bank = .primaryAttribute <;>
      simp [twoAttributes, h, RegisterFile.Disjoint, Binding.lanes]
  valid bank e he := by
    by_cases h : bank = .primaryAttribute
    · subst h
      have : e = (0, .vector ⟨0, []⟩ 2) ∨ e = (2, .vector ⟨1, []⟩ 1) := by
        simpa [twoAttributes] using he
      rcases this with rfl | rfl
      · exact ⟨⟨show 0 < 2 by decide, rfl, by decide⟩, by decide, by decide⟩
      · exact ⟨⟨show 1 < 2 by decide, rfl, by decide⟩, by decide, by decide⟩
    · simp [twoAttributes, h] at he
  own bank bank' e he e' he' hvar := by
    by_cases h : bank = .primaryAttribute <;> by_cases h' : bank' = .primaryAttribute <;>
      simp only [twoAttributes, h, h', if_true, if_false, mem_cons, not_mem_nil, or_false]
        at he he'
    rcases he with rfl | rfl <;> rcases he' with rfl | rfl <;> simp_all [Binding.place]

theorem ready_twoAttributes : twoAttributes.Ready :=
  ⟨⟨rfl, rfl⟩, rfl, fresh_twoAttributes.wellFormed⟩

theorem aligned_twoAttributes : twoAttributes.registers.Aligned .primaryAttribute := by
  refine RegisterFile.aligned_of_bindings fun e he => ?_
  have : e = (0, .vector ⟨0, []⟩ 2) ∨ e = (2, .vector ⟨1, []⟩ 1) := by
    simpa [twoAttributes] using he
  rcases this with rfl | rfl <;> simp [Binding.Aligned]

/-- Signed halves of two registers, one half as an integer, and nothing. -/
def halvesOperand : Operand :=
  { bank := .primaryAttribute, num := 2, element := .s16, swizzle := ⟨.w, .half, .x, .undefined⟩ }

end Microcode
