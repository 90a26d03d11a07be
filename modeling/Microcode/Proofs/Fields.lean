import Microcode.Access.Division
import Microcode.Machine.Arithmetic

/-!
Elements of a lane, as bit fields.

`decode` gives element `k` of a lane in the scalar it is computed in.  A lane that is joined from
elements has each of them in its field, cut to the width of the field.
-/

namespace Microcode

open Machine List

variable (encoding : HalfEncoding) (lane : Lane) {e : Element} {xs : List Lane} {k : Nat}

/-- Field `k` of a lane that is divided into fields of `width` bits. -/
def field (width : Nat) (lane : Lane) (k : Nat) : BitVec width :=
  lane.extractLsb' (width * k) width

theorem getLsbD_field (width : Nat) (lane : Lane) (k i : Nat) :
    (field width lane k).getLsbD i = (decide (i < width) && lane.getLsbD (width * k + i)) := by
  rw [field, BitVec.getLsbD_extractLsb']

theorem ushiftRight_shiftLeft_field {width : Nat} (hk : width * (k + 1) ≤ 32) :
    (lane <<< (32 - width * (k + 1))) >>> (32 - width) = (field width lane k).setWidth 32 := by
  refine BitVec.eq_of_getLsbD_eq fun i hi => ?_
  rw [Nat.mul_succ] at *
  simp only [BitVec.getLsbD_ushiftRight, BitVec.getLsbD_shiftLeft, BitVec.getLsbD_setWidth,
    getLsbD_field]
  by_cases h : i < width
  · have hlow : 32 - width + i < 32 := by omega
    have hhigh : ¬ 32 - width + i < 32 - (width * k + width) := by omega
    have hbit : 32 - width + i - (32 - (width * k + width)) = width * k + i := by omega
    simp [hlow, hhigh, hbit, hi, h]
  · have hlow : ¬ 32 - width + i < 32 := by omega
    simp [hlow, h]

theorem sshiftRight_shiftLeft_field {width : Nat} (hw : 0 < width) (hk : width * (k + 1) ≤ 32) :
    (lane <<< (32 - width * (k + 1))).sshiftRight (32 - width) =
      (field width lane k).signExtend 32 := by
  refine BitVec.eq_of_getLsbD_eq fun i hi => ?_
  rw [Nat.mul_succ] at *
  simp only [BitVec.getLsbD_sshiftRight, BitVec.getLsbD_signExtend, BitVec.getLsbD_shiftLeft,
    BitVec.msb_eq_getLsbD_last, getLsbD_field]
  by_cases h : i < width
  · have hlow : 32 - width + i < 32 := by omega
    have hhigh : ¬ 32 - width + i < 32 - (width * k + width) := by omega
    have hbit : 32 - width + i - (32 - (width * k + width)) = width * k + i := by omega
    simp [hlow, hhigh, hbit, hi, h, Nat.not_le.2 hi]
  · have hlow : ¬ 32 - width + i < 32 := by omega
    have htop : 31 - (32 - (width * k + width)) = width * k + (width - 1) := by omega
    have hhigh : ¬ 31 < 32 - (width * k + width) := by omega
    have hlast : width - 1 < width := by omega
    simp [hlow, hhigh, htop, hlast, hi, h, Nat.not_le.2 hi]

/-- The numbers, each cut to `width` bits, in the fields of a lane. -/
def join (width : Nat) (xs : List Lane) : Lane :=
  (List.range xs.length).foldl
    (fun lane k => lane ||| ((xs.getD k 0#32).setWidth width).setWidth 32 <<< (k * width)) 0#32

theorem getLsbD_foldl_or (f : Nat → Lane) (ks : List Nat) (lane : Lane) (i : Nat) :
    (ks.foldl (fun lane k => lane ||| f k) lane).getLsbD i =
      (lane.getLsbD i || ks.any fun k => (f k).getLsbD i) := by
  induction ks generalizing lane with
  | nil => simp
  | cons k ks ih => rw [foldl_cons, ih, BitVec.getLsbD_or, any_cons, Bool.or_assoc]

theorem field_join {width : Nat} (hxs : width * xs.length ≤ 32) (hk : k < xs.length) :
    field width (join width xs) k = (xs.getD k 0#32).setWidth width := by
  refine BitVec.eq_of_getLsbD_eq fun i hi => ?_
  have hlt : width * k + i < 32 := by
    have := Nat.mul_le_mul_left width (Nat.succ_le_of_lt hk)
    rw [Nat.mul_succ] at this
    omega
  rw [getLsbD_field, join, getLsbD_foldl_or, BitVec.getLsbD_setWidth]
  simp only [hi, decide_true, Bool.true_and, BitVec.getLsbD_zero, Bool.false_or]
  have hbit (m : Nat) : ((((xs.getD m 0#32).setWidth width).setWidth 32) <<< (m * width)).getLsbD
      (width * k + i) = (decide (m = k) && (xs.getD k 0#32).getLsbD i) := by
    simp only [BitVec.getLsbD_shiftLeft, BitVec.getLsbD_setWidth, hlt, decide_true, Bool.true_and]
    rw [Nat.mul_comm m width]
    rcases Nat.lt_trichotomy m k with hm | rfl | hm
    · -- The number ends below the field.
      have hend := Nat.mul_le_mul_left width (Nat.succ_le_of_lt hm)
      rw [Nat.mul_succ] at hend
      have : ¬ width * k + i - width * m < width := by omega
      simp [this, Nat.ne_of_lt hm]
    · have hsub : width * m + i - width * m = i := by omega
      have : ¬ width * m + i < width * m := by omega
      simp only [hsub, this, decide_false, Bool.not_false, hi, decide_true, Bool.true_and]
      simp only [show i < 32 by omega, decide_true, Bool.true_and]
    · have hbegin := Nat.mul_le_mul_left width (Nat.succ_le_of_lt hm)
      rw [Nat.mul_succ] at hbegin
      have : width * k + i < width * m := by omega
      simp [this, Nat.ne_of_gt hm]
  simp only [hbit]
  cases hx : (xs.getD k 0#32).getLsbD i with
  | false => simp
  | true => simpa using hk

theorem join_halves (a b : BitVec 16) : join 16 [a.setWidth 32, b.setWidth 32] = b ++ a := by
  refine BitVec.eq_of_getLsbD_eq fun i hi => ?_
  rw [join, getLsbD_foldl_or, BitVec.getLsbD_append]
  by_cases h : i < 16
  · simp [range_succ, h, hi]
  · have hsub : i - 16 < 16 := by omega
    simp [range_succ, h, hi, hsub, show i - 16 < 32 by omega]

namespace Element

/-- Bits in one element. -/
def width (e : Element) : Nat := 8 * e.size

/-- Element `k` of a lane, as a number of the element's scalar. -/
def decode (encoding : HalfEncoding) (e : Element) (lane : Lane) (k : Nat) : Lane :=
  match e with
  | .f16 => unpackHalf encoding (field 16 lane k)
  | .s16 => (field 16 lane k).signExtend 32
  | .u16 => (field 16 lane k).setWidth 32
  | .s8 => (field 8 lane k).signExtend 32
  | .u8 => (field 8 lane k).setWidth 32
  | .o8 => (field 8 lane k).setWidth 32 - 128#32
  | .c10 => Binary32.mul (Binary32.ofUnsigned ((field 8 lane k).setWidth 32)) Access.colorStep.lane
  | .f32 | .s32 | .u32 | .unknown => lane

/-- What is put into the field of an element so that it holds the number.  Halves and colours are
rounded to what they can hold. -/
def encode (encoding : HalfEncoding) (e : Element) (x : Lane) : Lane :=
  match e with
  | .f16 => (packHalf encoding x).setWidth 32
  | .c10 => Binary32.toUnsigned (Binary32.roundAway (Binary32.mul
      (Binary32.min (Binary32.max x 0#32) Binary32.one) Element.c10.maximum))
  | .o8 => x + 128#32
  | _ => x

/-- The number that an element holds when `x` was written to it: `x` cut to the width of the
element. -/
def wrap (e : Element) (x : Lane) : Lane :=
  match e with
  | .s16 => (x.setWidth 16).signExtend 32
  | .u16 => (x.setWidth 16).setWidth 32
  | .s8 => (x.setWidth 8).signExtend 32
  | .u8 => (x.setWidth 8).setWidth 32
  | .o8 => ((x + 128#32).setWidth 8).setWidth 32 - 128#32
  | .f16 | .c10 | .f32 | .s32 | .u32 | .unknown => x

/-- The lane that holds the numbers. -/
def pack (encoding : HalfEncoding) (e : Element) (xs : List Lane) : Lane :=
  if e.ratio = 1 then xs.getD 0 0#32 else join e.width (xs.map (e.encode encoding))

/-- Elements that hold bits as they are, or integers. -/
def isExact : Element → Bool
  | .f16 | .c10 => false
  | _ => true

theorem field_whole : field 32 lane 0 = lane := by
  refine BitVec.eq_of_getLsbD_eq fun i hi => ?_
  rw [getLsbD_field, Nat.mul_zero, Nat.zero_add, decide_eq_true hi, Bool.true_and]

theorem field_pack (hxs : xs.length = e.ratio) (hk : k < e.ratio) :
    field e.width (e.pack encoding xs) k =
      (e.encode encoding (xs.getD k 0#32)).setWidth e.width := by
  have hfit : e.width * e.ratio ≤ 32 := by cases e <;> decide
  have joined : field e.width (join e.width (xs.map (e.encode encoding))) k =
      (e.encode encoding (xs.getD k 0#32)).setWidth e.width := by
    rw [field_join (by rw [length_map, hxs]; exact hfit) (by rw [length_map, hxs]; exact hk),
      getD_eq_getElem?_getD, getElem?_map, getElem?_eq_getElem (hxs ▸ hk),
      getD_eq_getElem?_getD, getElem?_eq_getElem (hxs ▸ hk)]
    rfl
  rw [pack]
  by_cases h1 : e.ratio = 1
  · rw [if_pos h1]
    have h0 : k = 0 := by omega
    subst h0
    cases e <;> first | exact absurd h1 (by decide) | skip
    all_goals exact (field_whole _).trans (BitVec.setWidth_eq _).symm
  · rw [if_neg h1]
    exact joined

theorem decode_pack (he : e.isExact = true) (hxs : xs.length = e.ratio) (hk : k < e.ratio) :
    e.decode encoding (e.pack encoding xs) k = e.wrap (xs.getD k 0#32) := by
  have hfield := field_pack encoding hxs hk
  have whole (h1 : e.ratio = 1) : e.pack encoding xs = xs.getD k 0#32 := by
    rw [pack, if_pos h1, show k = 0 by omega]
  cases e with
  | f16 | c10 => cases he
  | s16 | s8 => exact congrArg (BitVec.signExtend 32) hfield
  | u16 | u8 => exact congrArg (BitVec.setWidth 32) hfield
  | o8 => exact congrArg (fun b : BitVec 8 => b.setWidth 32 - 128#32) hfield
  | f32 => exact whole rfl
  | s32 => exact whole rfl
  | u32 => exact whole rfl
  | unknown => exact whole rfl

theorem setWidth_signExtend {n : Nat} (b : BitVec n) (hn : n ≤ 32) :
    (b.signExtend 32).setWidth n = b := by
  refine BitVec.eq_of_getLsbD_eq fun i hi => ?_
  rw [BitVec.getLsbD_setWidth, BitVec.getLsbD_signExtend, if_pos hi, decide_eq_true hi,
    decide_eq_true (show i < 32 by omega), Bool.true_and, Bool.true_and]

theorem encode_decode (he : e.isExact = true) (lane : Lane) (hk : k < e.ratio) :
    (e.encode encoding (e.decode encoding lane k)).setWidth e.width = field e.width lane k := by
  have whole (h : e.encode encoding (e.decode encoding lane k) = lane) (hw : e.width = 32)
      (h0 : k = 0) :
      (e.encode encoding (e.decode encoding lane k)).setWidth e.width = field e.width lane k := by
    rw [h, h0, hw, field_whole, BitVec.setWidth_eq]
  have hzero (h1 : e.ratio = 1) : k = 0 := by omega
  cases e with
  | f16 | c10 => cases he
  | s16 =>
    exact setWidth_signExtend (field 16 lane k) (by omega)
  | u16 =>
    show ((field 16 lane k).setWidth 32).setWidth 16 = field 16 lane k
    rw [BitVec.setWidth_setWidth_of_le _ (by omega), BitVec.setWidth_eq]
  | s8 =>
    exact setWidth_signExtend (field 8 lane k) (by omega)
  | u8 =>
    show ((field 8 lane k).setWidth 32).setWidth 8 = field 8 lane k
    rw [BitVec.setWidth_setWidth_of_le _ (by omega), BitVec.setWidth_eq]
  | o8 =>
    show ((field 8 lane k).setWidth 32 - 128#32 + 128#32).setWidth 8 = field 8 lane k
    rw [BitVec.sub_add_cancel, BitVec.setWidth_setWidth_of_le _ (by omega), BitVec.setWidth_eq]
  | f32 | s32 | u32 | unknown => exact whole rfl rfl (hzero rfl)

end Element
end Microcode
