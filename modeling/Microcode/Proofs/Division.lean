import Microcode.Proofs.Emission
import Microcode.Proofs.Fields

/-!
The code that divides lanes into elements and joins them again.
-/

namespace Microcode

open Machine Emit Access List Element Machine

variable {xs : List Lane} {α : Type}

variable {start : Nat → Nat → Lanes} {w : Workspace} {s : State} {scalar : Scalar}

theorem emits_mapM_holds {f : α → Emit Value} {E : Error → Workspace → Prop} (scalar : Scalar)
    (xs : List α) (g : α → List Lane)
    (h : ∀ a ∈ xs, ∀ w' s', Quiet start w s w' s' → Computes start (f a) w' s' scalar (g a)) :
    Emits (.quiet start) (xs.mapM f) w s
      (fun vs w' s' => Forall₂ (fun v ys => Holds w' s' v scalar ys) vs (xs.map g)) E := by
  refine (Emits.mapM (R := fun a v w' s' => Holds w' s' v scalar (g a)) xs
    (fun _ _ _ _ _ _ q hv => hv.quiet q) fun a ha w' s' q => h a ha w' s' q E).gives
    fun vs w' s' _ hvs => ?_
  exact forall₂_map_right_iff.2 hvs.flip

theorem flatten_map_singleton (xs : List α) (g : α → Lane) :
    (xs.map fun a => [g a]).flatten = xs.map g := by
  induction xs with
  | nil => rfl
  | cons a xs ih => rw [map_cons, flatten_cons, ih]; rfl

/-- Scalars made one after another and joined. -/
theorem computes_construct_map {β : Type} {f : α → Emit Value} {k : Value → Emit β}
    {Q : β → Workspace → State → Prop} {E : Error → Workspace → Prop} (scalar : Scalar)
    (xs : List α) (g : α → Lane) (hpos : 0 < xs.length) (hwidth : xs.length ≤ 4)
    (h : ∀ a ∈ xs, ∀ w' s', Quiet start w s w' s' → Computes start (f a) w' s' scalar [g a])
    (hk : ∀ v w' s', Quiet start w s w' s' → Holds w' s' v scalar (xs.map g) →
      Emits (.quiet start) (k v) w' s' Q E) :
    Emits (.quiet start) (xs.mapM f >>= fun vs => construct vs >>= k) w s Q E := by
  refine (emits_mapM_holds scalar xs (fun a => [g a]) h).bind fun vs w1 s1 q1 hvs => ?_
  have hlen : vs.length = xs.length := by rw [hvs.length_eq, length_map]
  have hne : vs ≠ [] := by
    rintro rfl
    simp at hlen
    omega
  have hflat := flatten_map_singleton xs g
  refine (computes_construct hvs hne (by rw [hflat, length_map]; exact hwidth) E).bind
    fun v w2 s2 q2 hv => hk v w2 s2 (q1.trans q2) (hflat ▸ hv)

theorem zipWith_map_range {β γ : Type} (f : α → β → γ) (g : Nat → α) (h : Nat → β) (n : Nat) :
    zipWith f ((range n).map g) ((range n).map h) =
      (range n).map fun k => f (g k) (h k) := by
  rw [zipWith_map_left, zipWith_map_right, zipWith_self]

theorem replicate_eq_map_range (n : Nat) (a : α) :
    replicate n a = (range n).map fun _ => a := by
  rw [map_const', length_range]

/-! ## Division -/

/-- A field as a number, with its sign or without. -/
def extended (signed : Bool) (width : Nat) (lane : Lane) (k : Nat) : Lane :=
  if signed then (field width lane k).signExtend 32 else (field width lane k).setWidth 32

theorem computes_splitBits {lane : Value} {x : Lane} (hx : Holds w s lane .f32 [x]) {width : Nat}
    (hlow : 8 ≤ width) (hhigh : width ≤ 32) (signed : Bool) :
    Computes start (splitBits lane width signed) w s (if signed then .i32 else .u32)
      ((range (32 / width)).map (extended signed width x)) := by
  intro E
  rw [splitBits]
  have hpos : 0 < 32 / width := Nat.div_pos hhigh (by omega)
  have hwidth : 32 / width ≤ 4 := Nat.div_le_of_le_mul (by omega)
  have hconstant (n : Nat) (w' : Workspace) (s' : State) :
      Computes start (constant (integer (if signed then .i32 else .u32) n)) w' s'
        (if signed then .i32 else .u32) [BitVec.ofNat 32 n] := by
    cases signed <;> exact computes_constant _
  refine (computes_bitcast _ hx E).bind fun bits w1 s1 q1 hbits => ?_
  refine (computes_splat hbits hpos hwidth E).bind fun spread w2 s2 q2 hspread => ?_
  refine computes_construct_map _ (range (32 / width))
    (fun k => BitVec.ofNat 32 (32 - width * (k + 1))) (by simpa using hpos) (by simpa using hwidth)
    (fun k _ w' s' _ => hconstant _ w' s') fun up w3 s3 q3 hup => ?_
  have hsplat : Computes start (splatConstant (integer (if signed then .i32 else .u32) (32 - width))
      (32 / width)) w3 s3 (if signed then .i32 else .u32)
      (replicate (32 / width) (BitVec.ofNat 32 (32 - width))) :=
    (hconstant _ w3 s3).bind fun _ _ _ _ hv => computes_splat hv hpos hwidth
  refine (hsplat E).bind fun down w4 s4 q4 hdown => ?_
  refine (computes_binary .shl ((hspread.quiet q3).quiet q4) (hup.quiet q4) (by simp) E).bind
    fun raised w5 s5 q5 hraised => ?_
  refine (computes_binary _ hraised (hdown.quiet q5) (by simp) E).gives
    fun v w6 s6 _ hv => ?_
  refine (congrArg (Holds w6 s6 v _) ?_).mp hv
  rw [replicate_eq_map_range, replicate_eq_map_range, zipWith_map_range, zipWith_map_range]
  refine map_congr_left fun k hk => ?_
  have hk' : width * (k + 1) ≤ 32 := Nat.le_trans
    (Nat.mul_le_mul_left width (Nat.succ_le_of_lt (mem_range.1 hk))) (Nat.mul_div_le 32 width)
  have upAmount : (BitVec.ofNat 32 (32 - width * (k + 1))).toNat % 32 = 32 - width * (k + 1) := by
    rw [Nat.mul_succ] at *
    simp only [BitVec.toNat_ofNat]
    omega
  have downAmount : (BitVec.ofNat 32 (32 - width)).toNat % 32 = 32 - width := by
    simp only [BitVec.toNat_ofNat]
    omega
  cases signed with
  | false =>
    show x <<< ((BitVec.ofNat 32 (32 - width * (k + 1))).toNat % 32) >>>
      ((BitVec.ofNat 32 (32 - width)).toNat % 32) = (field width x k).setWidth 32
    rw [upAmount, downAmount]
    exact ushiftRight_shiftLeft_field x hk'
  | true =>
    show (x <<< ((BitVec.ofNat 32 (32 - width * (k + 1))).toNat % 32)).sshiftRight
      ((BitVec.ofNat 32 (32 - width)).toNat % 32) = (field width x k).signExtend 32
    rw [upAmount, downAmount]
    exact sshiftRight_shiftLeft_field x (by omega) hk'

theorem convert_unsigned (a : Lane) :
    Machine.convert .numeric .u32 .f32 a = Binary32.ofUnsigned a := by simp [Machine.convert]

theorem color_eq_decode (encoding : HalfEncoding) (x : Lane) (k : Nat) :
    binary .mul .f32 ((convert .numeric .u32 .f32 ∘ extended false 8 x) k)
      colorStep.lane = c10.decode encoding x k := by
  rw [Function.comp_apply, convert_unsigned, Machine.binary, decode, extended,
    if_neg (by decide)]

theorem computes_unpackLane (ctx : Context) {lane : Value} {x : Lane}
    (hx : Holds w s lane .f32 [x]) (element : Element) :
    Computes start (unpackLane ctx lane element) w s element.scalar
      ((range element.ratio).map (element.decode ctx.halfEncoding x)) := by
  have whole (e : Element) (he : e.scalar ≠ .f32) : Computes start
      (if e.scalar = .f32 then pure lane else convert .bitcast lane e.scalar) w s e.scalar [x] := by
    rw [if_neg he]
    exact computes_bitcast _ hx
  cases element with
  | f32 => exact .pure hx
  | unknown => exact .pure hx
  | s32 => exact whole .s32 (by decide)
  | u32 => exact whole .u32 (by decide)
  | s16 | s8 => exact computes_splitBits hx (by omega) (by omega) true
  | u16 | u8 => exact computes_splitBits hx (by omega) (by omega) false
  | o8 =>
    refine (computes_splitBits hx (by omega) (by omega) false).bind fun bytes w1 s1 _ hbytes => ?_
    refine (computes_bitcast .i32 hbytes).bind fun signed w2 s2 _ hsigned => ?_
    refine (computes_splatConstant byteBias (by omega) (by omega)).bind fun bias w3 s3 q3 hbias => ?_
    refine (computes_binary .sub (hsigned.quiet q3) hbias (by simp)).of_eq ?_
    rw [replicate_eq_map_range, zipWith_map_range]
    rfl
  | c10 =>
    refine (computes_splitBits hx (by omega) (by omega) false).bind fun bytes w1 s1 _ hbytes => ?_
    refine (computes_convert .numeric .f32 hbytes).bind fun floats w2 s2 _ hfloats => ?_
    refine (computes_splatConstant colorStep (by omega) (by omega)).bind fun scale w3 s3 q3 hscale => ?_
    refine (computes_binary .mul (hfloats.quiet q3) hscale (by simp)).of_eq ?_
    rw [replicate_eq_map_range, map_map, zipWith_map_range]
    exact map_congr_left fun k _ => color_eq_decode ctx.halfEncoding x k
  | f16 =>
    have hratio : f16.ratio = 2 := rfl
    rw [hratio]
    refine computes_define ⟨by simpa [Op.values] using hx.defined, by simp [Op.place?]⟩ (by simp)
      (by simp) (fun _ => rfl) fun i hi => ?_
    have hlow : x.setWidth 16 = field 16 x 0 := by
      refine BitVec.eq_of_getLsbD_eq fun j hj => ?_
      simp only [getLsbD_field, BitVec.getLsbD_setWidth, Nat.mul_zero, Nat.zero_add]
    have hhigh : (x >>> 16).setWidth 16 = field 16 x 1 := by
      refine BitVec.eq_of_getLsbD_eq fun j hj => ?_
      simp only [getLsbD_field, BitVec.getLsbD_setWidth, BitVec.getLsbD_ushiftRight, Nat.mul_one]
    simp only [State.eval, hx.lane_single, hlow, hhigh]
    have hi : i < 2 := by simpa using hi
    obtain rfl | rfl : i = 0 ∨ i = 1 := by omega
    · rfl
    · rfl

/-! ## Joining -/

theorem computes_foldl_or {placed : Value} {ps : List Lane} (ks : List Nat) {first : Value}
    {a : Lane} (hp : Holds w s placed .u32 ps) (ha : Holds w s first .u32 [a])
    (hks : ∀ k ∈ ks, k < ps.length) :
    Computes start (ks.foldlM (fun word k => do binary .or word (← extract placed k)) first) w s
      .u32 [ks.foldl (fun a k => a ||| ps.getD k 0#32) a] := by
  induction ks generalizing w s first a with
  | nil => exact .pure ha
  | cons k ks ih =>
    rw [foldlM_cons, foldl_cons]
    refine Computes.bind (?_ : Computes start _ w s .u32 [a ||| ps.getD k 0#32])
      fun v w1 s1 q1 hv =>
        ih (hp.quiet q1) hv fun j hj => hks j (.tail _ hj)
    refine (computes_extract hp (hks k mem_cons_self)).bind fun part w1 s1 q1 hpart => ?_
    exact computes_binary .or (ha.quiet q1) hpart rfl

theorem computes_joinBits {bits : Value} (hx : Holds w s bits .u32 xs) {width : Nat}
    (hlow : 8 ≤ width) (hhigh : width ≤ 16) (hlen : xs.length = 32 / width) :
    Computes start (joinBits bits width) w s .f32 [join width xs] := by
  have hpos : 0 < 32 / width := hlen ▸ hx.pos
  have hcount : 32 / width ≤ 4 := hlen ▸ hx.width
  have hfit : width * (32 / width) ≤ 32 := Nat.mul_div_le 32 width
  intro E
  rw [joinBits]
  refine (computes_splatConstant (.u32 (BitVec.ofNat 32 (1 <<< width - 1))) hpos hcount E).bind
    fun mask w1 s1 q1 hmask => ?_
  refine (computes_binary .and (hx.quiet q1) hmask (by simp [hlen]) E).bind
    fun masked w2 s2 q2 hmasked => ?_
  refine computes_construct_map .u32 (range (32 / width))
    (fun k => BitVec.ofNat 32 (k * width)) (by simpa using hpos) (by simpa using hcount)
    (fun k _ w' s' _ => computes_constant (.u32 (BitVec.ofNat 32 (k * width))))
    fun amounts w3 s3 q3 hamounts => ?_
  refine (computes_binary .shl (hmasked.quiet q3) hamounts (by simp [hlen]) E).bind
    fun placed w4 s4 q4 hplaced => ?_
  -- Every number, cut to the width of its field and moved there.
  have hps : zipWith (binary .shl .u32)
      (zipWith (binary .and .u32) xs
        (replicate (32 / width) (Constant.u32 (BitVec.ofNat 32 (1 <<< width - 1))).lane))
      ((range (32 / width)).map fun k => BitVec.ofNat 32 (k * width)) =
      (range (32 / width)).map fun k =>
        ((xs.getD k 0#32).setWidth width).setWidth 32 <<< (k * width) := by
    have hxs : xs = (range (32 / width)).map (xs.getD · 0#32) := by
      refine ext_getElem (by simp [hlen]) fun i hi _ => ?_
      rw [getElem_map, getElem_range, getD_eq_getElem _ _ hi]
    nth_rewrite 1 [hxs]
    rw [replicate_eq_map_range, zipWith_map_range, zipWith_map_range]
    refine map_congr_left fun k hk => ?_
    have hk' : width * (k + 1) ≤ 32 := Nat.le_trans
      (Nat.mul_le_mul_left width (Nat.succ_le_of_lt (mem_range.1 hk))) hfit
    have amount : (BitVec.ofNat 32 (k * width)).toNat % 32 = k * width := by
      rw [Nat.mul_succ, Nat.mul_comm] at hk'
      simp only [BitVec.toNat_ofNat]
      omega
    have cut : xs.getD k 0#32 &&& BitVec.ofNat 32 (1 <<< width - 1) =
        ((xs.getD k 0#32).setWidth width).setWidth 32 := by
      refine BitVec.eq_of_getLsbD_eq fun i hi => ?_
      simp only [BitVec.getLsbD_and, BitVec.getLsbD_setWidth, BitVec.getLsbD_ofNat,
        Nat.one_shiftLeft, Nat.testBit_two_pow_sub_one, hi, decide_true, Bool.true_and]
      rw [Bool.and_comm]
    show (xs.getD k 0#32 &&& BitVec.ofNat 32 (1 <<< width - 1)) <<<
      ((BitVec.ofNat 32 (k * width)).toNat % 32) = _
    rw [amount, cut]
  rw [hps] at hplaced
  refine (computes_extract hplaced (by simpa using hpos) E).bind fun first w5 s5 q5 hfirst => ?_
  refine (computes_foldl_or (range' 1 (32 / width - 1)) (hplaced.quiet q5) hfirst
    (fun k hk => ?_) E).bind fun word w6 s6 q6 hword => ?_
  · simp only [mem_range'_1] at hk
    simp only [length_map, length_range]
    omega
  refine (computes_bitcast .f32 hword).of_eq ?_ E
  have hrange : range xs.length = 0 :: range' 1 (32 / width - 1) := by
    rw [hlen, range_eq_range', show 32 / width = 1 + (32 / width - 1) by omega,
      ← range'_append_1]
    simp
  have hget (k : Nat) (hk : k < 32 / width) :
      ((range (32 / width)).map fun k =>
        ((xs.getD k 0#32).setWidth width).setWidth 32 <<< (k * width)).getD k 0#32 =
        ((xs.getD k 0#32).setWidth width).setWidth 32 <<< (k * width) := by
    rw [getD_eq_getElem _ _ (by simpa using hk), getElem_map, getElem_range]
  rw [join, hrange, foldl_cons, BitVec.zero_or, hget 0 hpos]
  congr 1
  refine foldl_ext _ _ _ fun a k hk => ?_
  simp only [mem_range'_1] at hk
  rw [hget k (by omega)]

theorem computes_asUnsigned {v : Value} (hx : Holds w s v scalar xs) :
    Computes start (asUnsigned v) w s .u32 xs := by
  intro E
  rw [asUnsigned]
  refine Emits.scalarOf ?_
  rw [hx.scalarOf]
  by_cases h : scalar = .u32
  · rw [if_pos h]
    exact Emits.pure (h ▸ hx)
  · rw [if_neg h]
    exact computes_bitcast _ hx E

/-- Numbers between zero and one as parts of a maximum, rounded. -/
theorem computes_toUnorm {v : Value} (hx : Holds w s v .f32 xs) (maximum : Lane) :
    Computes start (toUnorm v maximum) w s .u32 (xs.map fun x =>
      Binary32.toUnsigned (Binary32.roundAway (Binary32.mul
        (Binary32.min (Binary32.max x 0#32) Binary32.one) maximum))) := by
  intro E
  rw [toUnorm]
  refine Emits.countOf ?_
  rw [hx.countOf]
  refine (computes_splatConstant (.f32 0#32) hx.pos hx.width E).bind fun zero w1 s1 q1 hzero => ?_
  refine (computes_splatConstant (.f32 Binary32.one) hx.pos hx.width E).bind
    fun one w2 s2 q2 hone => ?_
  refine (computes_splatConstant (.f32 maximum) hx.pos hx.width E).bind
    fun scale w3 s3 q3 hscale => ?_
  have arguments : Forall₂ (fun u ys => Holds w3 s3 u .f32 ys) [v, zero, one]
      [xs, replicate xs.length 0#32, replicate xs.length Binary32.one] :=
    .cons (hx.quiet (q1.trans (q2.trans q3)))
      (.cons (hzero.quiet (q2.trans q3)) (.cons (hone.quiet q3) .nil))
  refine (computes_builtin (f := .clamp) (by decide) arguments (by simp) (n := xs.length)
    (by simp) E).bind fun clamped w4 s4 q4 hclamped => ?_
  refine (computes_binary .mul hclamped (hscale.quiet q4) (by simp) E).bind
    fun scaled w5 s5 q5 hscaled => ?_
  refine (computes_builtin_one (by decide) hscaled E).bind fun rounded w6 s6 q6 hrounded => ?_
  refine (computes_convert .numeric .u32 hrounded).of_eq ?_ E
  refine ext_getElem (by simp) fun i hi _ => ?_
  have hi' : i < xs.length := by simpa using hi
  have hconstant (a : Lane) : (replicate xs.length a).getD i 0#32 = a := by
    rw [getD_eq_getElem _ _ (by simpa using hi'), getElem_replicate]
  simp only [getElem_map, getElem_zipWith, getElem_range, getElem_replicate,
    Machine.builtin, Machine.binary, Machine.convert, map_cons, map_nil,
    getD_cons_zero, getD_cons_succ, getD_eq_getElem _ _ hi', hconstant]
  rfl

theorem computes_packLane (ctx : Context) {elements : Value} {element : Element}
    (hx : Holds w s elements element.scalar xs) (hlen : xs.length = element.ratio) :
    Computes start (packLane ctx elements element) w s .f32
      [element.pack ctx.halfEncoding xs] := by
  have single (h1 : element.ratio = 1) : [element.pack ctx.halfEncoding xs] = xs := by
    rw [pack, if_pos h1]
    obtain ⟨x, rfl⟩ := length_eq_one_iff.1 (hlen.trans h1)
    rfl
  have whole (h1 : element.ratio = 1) : Computes start (do
      if (← scalarOf elements) = .f32 then return elements else convert .bitcast elements .f32) w s
      .f32 [element.pack ctx.halfEncoding xs] := by
    intro E
    rw [single h1]
    refine Emits.scalarOf ?_
    rw [hx.scalarOf]
    by_cases hf : element.scalar = .f32
    · rw [if_pos hf]
      exact Emits.pure (hf ▸ hx)
    · rw [if_neg hf]
      exact computes_bitcast _ hx E
  have joined {width : Nat} (hwidth : width = 8 ∨ width = 16) (hratio : element.ratio = 32 / width)
      (hpack : element.pack ctx.halfEncoding xs = join width xs) :
      Computes start (do joinBits (← asUnsigned elements) width) w s .f32 [element.pack ctx.halfEncoding xs] := by
    refine (computes_asUnsigned hx).bind fun bits w1 s1 _ hbits => ?_
    rw [hpack]
    exact computes_joinBits hbits (by omega) (by omega) (hlen.trans hratio)
  cases element with
  | f16 =>
    obtain ⟨a, b, rfl⟩ := length_eq_two.1 (show xs.length = 2 from hlen)
    refine computes_define ⟨by simpa [Op.values] using hx.defined, by simp [Op.place?]⟩ (by simp)
      (by simp) (fun _ => rfl) fun i hi => ?_
    have h0 : i = 0 := by simpa using hi
    subst h0
    have halves : f16.pack ctx.halfEncoding [a, b] =
        packHalf ctx.halfEncoding b ++ packHalf ctx.halfEncoding a := join_halves _ _
    simp only [halves, State.eval, hx.lane (show 0 < [a, b].length by simp),
      hx.lane (show 1 < [a, b].length by simp)]
    rfl
  | c10 =>
    refine (computes_toUnorm hx c10.maximum).bind fun bits w1 s1 _ hbits => ?_
    refine (computes_joinBits hbits (by omega) (by omega) (by rw [length_map]; exact hlen)).of_eq ?_
    have encoded : (xs.map fun x => Binary32.toUnsigned (Binary32.roundAway (Binary32.mul
        (Binary32.min (Binary32.max x 0#32) Binary32.one) c10.maximum))) =
        xs.map (c10.encode ctx.halfEncoding) :=
      map_congr_left fun x _ => by rw [encode]
    exact congrArg (fun ys => [join 8 ys]) encoded
  | f32 => exact whole rfl
  | unknown => exact whole rfl
  | s32 => exact whole rfl
  | u32 => exact whole rfl
  | s16 | u16 => exact joined (.inr rfl) rfl (congrArg (join 16) (map_id _))
  | s8 | u8 => exact joined (.inl rfl) rfl (congrArg (join 8) (map_id _))
  | o8 =>
    have hfour : xs.length = 4 := hlen
    refine (computes_splatConstant byteBias (by omega) (by omega)).bind fun bias w1 s1 q1 hbias => ?_
    refine (computes_binary .add (hx.quiet q1) hbias (by simp [hfour])).bind
      fun biased w2 s2 _ hbiased => ?_
    refine (computes_asUnsigned hbiased).bind fun bits w3 s3 _ hbits => ?_
    refine (computes_joinBits hbits (by omega) (by omega) (by simp [hfour])).of_eq ?_
    have hsum : zipWith (binary .add .i32) xs (replicate 4 byteBias.lane) =
        xs.map (o8.encode ctx.halfEncoding) := by
      refine ext_getElem (by simp [hfour]) fun i hi _ => ?_
      rw [getElem_zipWith, getElem_map, getElem_replicate]
      rfl
    exact congrArg (fun ys => [join 8 ys]) hsum

end Microcode
