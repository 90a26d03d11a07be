import Microcode.Numeric.Binary32

/-!
Shortest decimal text of a binary32 number.

`Binary32.decimal` gives the fewest digits that read back as the same number, and of those the
digits nearest to it.  `Binary32.text` writes them: plainly when the number is zero or lies from
one ten-thousandth up to ten to the sixteenth, always with a fraction, and with an exponent
otherwise.
-/

namespace Microcode
namespace Binary32

open Numeric

/-- The number `digits * 10 ^ exponent`. -/
structure Decimal where
  digits : Nat
  exponent : Int
  deriving DecidableEq, Repr

namespace Decimal

/-- A fraction equal to the decimal measured in half units, `2 ^ (-150)`. -/
def halfUnits (d : Decimal) : Nat × Nat :=
  ((d.digits * Nat.pow 10 d.exponent.toNat) <<< 150, Nat.pow 10 (-d.exponent).toNat)

/-- Drops trailing zeros; the fuel is the greatest number of them. -/
def trim : Nat → Decimal → Decimal
  | 0, d => d
  | fuel + 1, d =>
    if d.digits % 10 = 0 then trim fuel ⟨d.digits / 10, d.exponent + 1⟩ else d

end Decimal

/-- The numbers that round to a given one: they lie between the midpoints to its neighbours, the
midpoints included when its significand is even.  All are counted in half units. -/
structure RoundingInterval where
  low : Nat
  value : Nat
  high : Nat
  closed : Bool

def roundingInterval (magnitude : Nat) : RoundingInterval :=
  let below := Format.binary32.units (magnitude - 1)
  let here := Format.binary32.units magnitude
  let above := Format.binary32.units (magnitude + 1)
  ⟨below + here, 2 * here, here + above, magnitude % 2 = 0⟩

def RoundingInterval.contains (i : RoundingInterval) (d : Decimal) : Bool :=
  let (n, q) := d.halfUnits
  if i.closed then i.low * q ≤ n && n ≤ i.high * q else i.low * q < n && n < i.high * q

/-- The greatest power of ten that is not above `value` half units; no number reaches `10 ^ 39`. -/
def RoundingInterval.leadingExponent (i : RoundingInterval) : Int :=
  let below (k : Nat) : Bool :=
    let (n, q) := (Decimal.mk 1 ((k : Int) - 46)).halfUnits
    n ≤ i.value * q
  ((List.range 85).foldl (fun best k => if below k then k else best) 0 : Nat) - 46

/-- The decimal with `count` digits that reads back, if one does: of the two next to the number the
nearer, and the upper one when both are equally near. -/
def RoundingInterval.withDigits (i : RoundingInterval) (count : Nat) : Option Decimal :=
  let exponent := i.leadingExponent - (count : Int) + 1
  let (scale, q) := (Decimal.mk 1 exponent).halfUnits
  let lower : Decimal := ⟨i.value * q / scale, exponent⟩
  let upper : Decimal := ⟨i.value * q / scale + 1, exponent⟩
  match i.contains lower, i.contains upper with
  | false, false => none
  | true, false => some lower
  | false, true => some upper
  | true, true => if 2 * (i.value * q % scale) < scale then some lower else some upper

/-- Shortest decimal of a positive finite magnitude.  Nine digits always suffice. -/
def decimal (magnitude : Nat) : Decimal :=
  let i := roundingInterval magnitude
  let found := (List.range 9).findSome? fun k => i.withDigits (k + 1)
  (found.getD ⟨0, 0⟩).trim 10

/-- Digits of `d` written plainly, with at least one digit after the point. -/
def Decimal.plain (d : Decimal) : String :=
  let digits := (toString d.digits).toList
  if 0 ≤ d.exponent then
    String.ofList (digits ++ List.replicate d.exponent.toNat '0') ++ ".0"
  else
    let fraction := (-d.exponent).toNat
    let padded := List.replicate (fraction + 1 - digits.length) '0' ++ digits
    String.ofList (padded.take (padded.length - fraction)) ++ "." ++
      String.ofList (padded.drop (padded.length - fraction))

/-- One digit, the others behind the point, and the exponent. -/
def Decimal.scientific (d : Decimal) : String :=
  let digits := (toString d.digits).toList
  let exponent := d.exponent + digits.length - 1
  let fraction := digits.drop 1
  String.ofList (digits.take 1) ++
    (if fraction.isEmpty then "" else "." ++ String.ofList fraction) ++ "e" ++ toString exponent

/-- Text of a finite number. -/
def text (a : Lane) : String :=
  let sign := if isNegative a then "-" else ""
  if magnitude a = 0 then sign ++ "0.0"
  else
    let d := decimal (magnitude a)
    let leading := d.exponent + (toString d.digits).length - 1
    sign ++ if -4 ≤ leading && leading < 16 then d.plain else d.scientific

end Binary32
end Microcode
