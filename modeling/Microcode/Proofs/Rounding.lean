import Mathlib.Algebra.Ring.Nat
import Mathlib.Data.Nat.Log
import Microcode.Numeric.Binary16

/-!
Numbers that are rounded to themselves.

A magnitude is an exponent and a significand, and counts as many units as the significand shifted
by the exponent.  Rounding gives back what was counted, so a half survives its way through binary32
unless it is a signalling NaN.
-/

namespace Microcode
namespace Numeric

theorem nearestEven_mul (q : Nat) {d : Nat} (hd : 0 < d) : nearestEven (q * d) d = q := by
  simp only [nearestEven, Nat.mul_div_cancel _ hd, Nat.mul_mod_left]
  rw [if_pos (by omega)]

namespace Format

variable (f : Format) {e c d m n : Nat}

/-- A significand has its leading bit, unless the exponent is the least one. -/
def Normal (e c : Nat) : Prop := c < 2 ^ (f.fractionBits + 1) ∧ (e = 0 ∨ 2 ^ f.fractionBits ≤ c)

theorem units_normal (h : f.Normal e c) : f.units (e * 2 ^ f.fractionBits + c) = c * 2 ^ e := by
  have hpos := Nat.two_pow_pos f.fractionBits
  obtain ⟨hc, he⟩ := h
  rw [Nat.pow_succ] at hc
  simp only [units, Nat.shiftRight_eq_div_pow, Nat.shiftLeft_eq, Nat.one_mul]
  by_cases hlead : 2 ^ f.fractionBits ≤ c
  · obtain ⟨r, rfl⟩ := Nat.exists_eq_add_of_le hlead
    have hsum : e * 2 ^ f.fractionBits + (2 ^ f.fractionBits + r) =
        r + (e + 1) * 2 ^ f.fractionBits := by rw [Nat.succ_mul]; omega
    have hr : r < 2 ^ f.fractionBits := by omega
    rw [hsum, Nat.add_mul_div_right _ _ hpos, Nat.add_mul_mod_self_right, Nat.div_eq_of_lt hr,
      Nat.mod_eq_of_lt hr, Nat.zero_add, if_neg (Nat.succ_ne_zero e), Nat.add_sub_cancel]
  · have hlt : c < 2 ^ f.fractionBits := by omega
    obtain rfl : e = 0 := by omega
    rw [Nat.zero_mul, Nat.zero_add, Nat.div_eq_of_lt hlt, if_pos rfl, Nat.mod_eq_of_lt hlt,
      Nat.pow_zero, Nat.mul_one]

theorem log2_normal (h : f.Normal e c) : (c * 2 ^ e).log2 - f.fractionBits = e := by
  obtain ⟨hc, he⟩ := h
  rcases Nat.eq_zero_or_pos c with rfl | hpos
  · have := Nat.two_pow_pos f.fractionBits
    simp only [Nat.zero_mul, Nat.log2_zero]
    omega
  have hne : c * 2 ^ e ≠ 0 := (Nat.mul_pos hpos (Nat.two_pow_pos e)).ne'
  have hlt : (c * 2 ^ e).log2 < f.fractionBits + 1 + e := by
    rw [Nat.log2_lt hne, Nat.pow_add]
    exact (Nat.mul_lt_mul_right (Nat.two_pow_pos e)).2 hc
  rcases he with rfl | hlead
  · omega
  have hle : f.fractionBits + e ≤ (c * 2 ^ e).log2 := by
    rw [Nat.le_log2 hne, Nat.pow_add]
    exact Nat.mul_le_mul_right _ hlead
  omega

theorem round_normal (h : f.Normal e c) (hd : 0 < d) :
    f.round (c * 2 ^ e * d) d = min f.infinity (e * 2 ^ f.fractionBits + c) := by
  have hcancel : nearestEven (c * 2 ^ e * d) (d * 2 ^ e) = c := by
    rw [Nat.mul_assoc, Nat.mul_comm (2 ^ e) d]
    exact nearestEven_mul c (Nat.mul_pos hd (Nat.two_pow_pos e))
  simp only [round, Nat.mul_div_cancel _ hd, f.log2_normal h, Nat.shiftLeft_eq, hcancel]

/-- Every magnitude has an exponent and a significand. -/
theorem exists_normal (m : Nat) : ∃ e c, f.Normal e c ∧ m = e * 2 ^ f.fractionBits + c := by
  have hpos := Nat.two_pow_pos f.fractionBits
  have hdiv := Nat.div_add_mod' m (2 ^ f.fractionBits)
  have hmod := Nat.mod_lt m hpos
  have hpow := Nat.pow_succ (n := 2) (m := f.fractionBits)
  cases hq : m / 2 ^ f.fractionBits with
  | zero => exact ⟨0, m, ⟨by rw [hq] at hdiv; omega, .inl rfl⟩, by omega⟩
  | succ e =>
    rw [hq, Nat.succ_mul] at hdiv
    exact ⟨e, 2 ^ f.fractionBits + m % 2 ^ f.fractionBits, ⟨by omega, .inr (by omega)⟩, by omega⟩

/-- A finite number is rounded to itself. -/
theorem round_units (hm : m < f.infinity) (hd : 0 < d) : f.round (f.units m * d) d = m := by
  obtain ⟨e, c, h, rfl⟩ := f.exists_normal m
  rw [f.units_normal h, f.round_normal h hd]
  omega

/-- A short significand, however far it is shifted, is a number of the format. -/
theorem exists_normal_shift (hc : c < 2 ^ (f.fractionBits + 1)) (j : Nat) :
    ∃ e c', f.Normal e c' ∧ c * 2 ^ j = c' * 2 ^ e := by
  induction j generalizing c with
  | zero => exact ⟨0, c, ⟨hc, .inl rfl⟩, rfl⟩
  | succ j ih =>
    by_cases hlead : 2 ^ f.fractionBits ≤ c
    · exact ⟨j + 1, c, ⟨hc, .inr hlead⟩, rfl⟩
    · obtain ⟨e, c', h, hsame⟩ := ih (c := c * 2) (by rw [Nat.pow_succ]; omega)
      exact ⟨e, c', h, by rw [← hsame, Nat.pow_succ', Nat.mul_assoc]⟩

end Format
end Numeric

namespace Binary32

open Numeric

variable {a b : Lane} {m n : Nat} {s : Bool}

theorem magnitude_pack (hm : m < 0x80000000) (s : Bool) : magnitude (pack s m) = m := by
  cases s <;> simp only [magnitude, pack, BitVec.toNat_ofNat] <;> split <;> omega

theorem isNegative_pack (hm : m < 0x80000000) (s : Bool) : isNegative (pack s m) = s := by
  cases s <;> simp only [isNegative, pack, BitVec.msb_eq_decide, BitVec.toNat_ofNat] <;>
    simp <;> omega

theorem datum_of_isFinite (h : isFinite a = true) :
    datum a = .finite (isNegative a) (Format.binary32.units (magnitude a)) := by
  rw [datum, if_pos (of_decide_eq_true h)]

end Binary32

namespace Binary16

open Numeric

/-- A half as it comes out of a conversion: a NaN is made quiet. -/
def quieted (h : BitVec 16) : BitVec 16 :=
  if Format.binary16.infinity < magnitude h then h ||| 0x0200#16 else h

theorem pack_magnitude (h : BitVec 16) :
    BitVec.ofNat 16 (magnitude h + if h.msb then 0x8000 else 0) = h := by
  have := h.isLt
  refine BitVec.eq_of_toNat_eq ?_
  rw [BitVec.toNat_ofNat, BitVec.msb_eq_decide, magnitude]
  by_cases h' : 2 ^ (16 - 1) ≤ h.toNat
  · rw [decide_eq_true h', if_pos rfl]
    omega
  · rw [decide_eq_false h', if_neg Bool.false_ne_true]
    omega

/-- Every finite half is a binary32 number. -/
theorem exists_widened {m : Nat} (hm : m < Format.binary16.infinity) :
    ∃ n, n < Format.binary32.infinity ∧
      Format.binary32.round (Format.binary16.units m <<< (149 - 24)) 1 = n ∧
      Format.binary32.units n = Format.binary16.units m <<< (149 - 24) := by
  obtain ⟨e, c, h, rfl⟩ := Format.binary16.exists_normal m
  obtain ⟨e', c', h', hsame⟩ := Format.binary32.exists_normal_shift
    (Nat.lt_of_lt_of_le h.1 (by decide)) (e + 125)
  have hunits : Format.binary16.units (e * 2 ^ Format.binary16.fractionBits + c) <<< (149 - 24) =
      c' * 2 ^ e' := by
    rw [Format.binary16.units_normal h, Nat.shiftLeft_eq, Nat.mul_assoc, ← Nat.pow_add, hsame]
  have hfinite : e' * 2 ^ Format.binary32.fractionBits + c' < Format.binary32.infinity := by
    have hc' : c' < 2 ^ 24 := h'.1
    have he : e < 30 := by
      have hlead := h.2
      simp only [Format.binary16] at hm hlead
      omega
    have hlt : e' < 142 := by
      rcases h'.2 with rfl | hlead
      · omega
      have hbound : 2 ^ (23 + e') < 2 ^ (11 + 154) := by
        calc 2 ^ (23 + e') = 2 ^ 23 * 2 ^ e' := Nat.pow_add ..
          _ ≤ c' * 2 ^ e' := Nat.mul_le_mul_right _ hlead
          _ = c * 2 ^ (e + 125) := hsame.symm
          _ < 2 ^ 11 * 2 ^ (e + 125) := (Nat.mul_lt_mul_right (Nat.two_pow_pos _)).2 h.1
          _ ≤ 2 ^ 11 * 2 ^ 154 := Nat.mul_le_mul_left _ (Nat.pow_le_pow_right (by decide) (by omega))
          _ = 2 ^ (11 + 154) := (Nat.pow_add ..).symm
      have := (Nat.pow_lt_pow_iff_right (a := 2) (by decide)).1 hbound
      omega
    simp only [Format.binary32]
    omega
  refine ⟨_, hfinite, ?_, ?_⟩
  · have := Format.binary32.round_normal h' Nat.one_pos
    rw [Nat.mul_one] at this
    rw [hunits, this]
    exact Nat.min_eq_right (Nat.le_of_lt hfinite)
  · rw [Format.binary32.units_normal h', hunits]

/-- The payload of a NaN survives, with the bit that makes it quiet. -/
theorem payload_quieted {p : Nat} (hp : p < 0x400) :
    0x7e00 ||| (((0x7fc00000 ||| (p <<< 13)) % 0x800000) >>> 13) = (0x7c00 + p) ||| 0x200 := by
  have hshift : 0x7fc00000 ||| p <<< 13 = (0x3fe00 ||| p) <<< 13 :=
    (Nat.shiftLeft_or_distrib (a := 0x3fe00) (b := p) (i := 13)).symm
  have hcut : (0x3fe00 ||| p) <<< 13 % 0x800000 = (0x200 ||| p) <<< 13 := by
    have hlow : (0x3fe00 ||| p) % 2 ^ 10 = 0x200 ||| p := by
      rw [Nat.or_mod_two_pow, Nat.mod_eq_of_lt hp]
    rw [← hlow, Nat.shiftLeft_eq, Nat.shiftLeft_eq]
    omega
  have hsum : 0x7c00 + p = 0x7c00 ||| p := Nat.shiftLeft_add_eq_or_of_lt (a := 31) (i := 10) hp
  rw [hshift, hcut, Nat.shiftLeft_shiftRight, hsum, ← Nat.or_assoc, Nat.or_assoc 0x7c00,
    Nat.or_comm p, ← Nat.or_assoc]
  rfl

theorem or_quiet (h : BitVec 16) :
    BitVec.ofNat 16 ((magnitude h ||| 0x200) + if h.msb then 0x8000 else 0) = h ||| 0x200#16 := by
  have hm : magnitude h < 2 ^ 15 := Nat.mod_lt _ (by decide)
  have hor : magnitude h ||| 0x200 < 2 ^ 15 := Nat.or_lt_two_pow hm (by decide)
  have hpack := congrArg BitVec.toNat (pack_magnitude h)
  refine BitVec.eq_of_toNat_eq ?_
  rw [BitVec.toNat_ofNat] at hpack ⊢
  rw [BitVec.toNat_or, ← hpack]
  cases h.msb with
  | false =>
    simp only [Bool.false_eq_true, if_false, Nat.add_zero]
    rw [Nat.mod_eq_of_lt (by omega), Nat.mod_eq_of_lt (by omega)]
    rfl
  | true =>
    simp only [if_true]
    have htop {n : Nat} (hn : n < 2 ^ 15) : (n + 0x8000) % 2 ^ 16 = 0x8000 ||| n := by
      rw [Nat.mod_eq_of_lt (by omega), Nat.add_comm]
      exact Nat.shiftLeft_add_eq_or_of_lt (a := 1) hn
    rw [htop hm, htop hor, Nat.or_assoc]
    rfl

/-- A half that goes through binary32 comes back as it was, but for the quiet bit of a NaN. -/
theorem ofBinary32_toBinary32 (h : BitVec 16) : ofBinary32 (toBinary32 h) = quieted h := by
  have hm : magnitude h < 0x8000 := Nat.mod_lt _ (by decide)
  have hrange : Format.binary32.infinity < 0x80000000 := by decide
  rw [toBinary32, quieted]
  by_cases hfinite : magnitude h < Format.binary16.infinity
  · obtain ⟨n, hn, hround, hunits⟩ := exists_widened hfinite
    have hpacked := Binary32.magnitude_pack (Nat.lt_trans hn hrange) h.msb
    simp only [if_pos hfinite, if_neg (Nat.lt_asymm hfinite), Binary32.round, hround]
    have hdatum := Binary32.datum_of_isFinite (a := Binary32.pack h.msb n)
      (by rw [Binary32.isFinite, hpacked]; exact decide_eq_true hn)
    simp only [ofBinary32, hdatum, hpacked, hunits,
      Binary32.isNegative_pack (Nat.lt_trans hn hrange)]
    rw [Nat.shiftLeft_eq, Nat.one_shiftLeft, Format.binary16.round_units hfinite (by decide),
      pack_magnitude]
  by_cases hinfinite : magnitude h = Format.binary16.infinity
  · simp only [hinfinite, Nat.lt_irrefl, if_true, if_false]
    rw [← pack_magnitude h]
    cases h.msb <;> rw [hinfinite] <;> decide
  · have hnan : Format.binary16.infinity < magnitude h := by omega
    have hpayload : magnitude h % 0x400 < 0x400 := Nat.mod_lt _ (by decide)
    have hsplit : magnitude h = 0x7c00 + magnitude h % 0x400 := by
      simp only [Format.binary16] at hnan
      omega
    obtain ⟨n, hn⟩ : ∃ n, 0x7fc00000 ||| (magnitude h % 0x400) <<< 13 = n := ⟨_, rfl⟩
    have hlow : 0x7fc00000 ≤ n := hn ▸ Nat.left_le_or
    have hhigh : n < 0x80000000 := by
      rw [← hn]
      refine Nat.or_lt_two_pow (n := 31) (by decide) ?_
      rw [Nat.shiftLeft_eq]
      omega
    have hpacked := Binary32.magnitude_pack hhigh h.msb
    have hdatum : Binary32.datum (Binary32.pack h.msb n) = .nan := by
      rw [Binary32.datum, hpacked, if_neg (by simp only [Format.binary32]; omega),
        if_neg (by simp only [Format.binary32]; omega)]
    simp only [if_neg hfinite, if_neg hinfinite, if_pos hnan, hn, ofBinary32, hdatum, hpacked,
      Binary32.isNegative_pack hhigh]
    rw [← hn, payload_quieted hpayload, ← hsplit, or_quiet]

end Binary16
end Microcode
