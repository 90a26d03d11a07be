import Microcode.Numeric.Binary32

/-!
Powers of two and logarithms to base two, rounded to binary32.

Both are summed as series in fixed point with 192 binary places.  They are irrational except where
the argument is a whole number, or a power of two, so half a place added to a truncated sum stands
on the right side of every rounding boundary, unless the true value is closer to the boundary than
the error of the sum.
-/

namespace Microcode
namespace Binary32

open Numeric

/-- Binary places of the fixed-point sums. -/
def places : Nat := 192

def fixedOne : Nat := 1 <<< places

/-- `ln 2` in fixed point: the sum of `1 / (k * 2 ^ k)`. -/
def naturalLogOfTwo : Nat :=
  (List.range 200).foldl (fun sum k => sum + fixedOne / ((k + 1) <<< (k + 1))) 0

/-- `e ^ y` in fixed point, for `y` below one. -/
def exponentialSum (y : Nat) : Nat :=
  ((List.range 60).foldl
    (fun (acc : Nat × Nat) k => (acc.1 + acc.2, acc.2 * y / ((k + 1) * fixedOne)))
    (0, fixedOne)).1

/-- `ln ((1 + z) / (1 - z))` in fixed point, for `z` up to one third. -/
def logarithmSum (z : Nat) : Nat :=
  2 * ((List.range 80).foldl
    (fun (acc : Nat × Nat) k => (acc.1 + acc.2 / (2 * k + 1), acc.2 * z / fixedOne * z / fixedOne))
    (0, z)).1

/-- `2 ^ x`. -/
def exp2 (a : Lane) : Lane :=
  match datum a with
  | .nan => nan
  | .infinite s => if s then zero false else infinity false
  | .finite s m =>
    let x := signedUnits s m
    let whole := x.fdiv Format.binary32.one
    let fraction := (x - whole * Format.binary32.one).toNat
    if 128 ≤ whole then infinity false
    else if whole < -151 then zero false
    else
      let scale := (whole + 151).toNat
      if fraction = 0 then round false (1 <<< scale) 4
      else
        let y := fraction * naturalLogOfTwo / Format.binary32.one
        round false ((2 * exponentialSum y + 1) <<< scale) (4 * 2 * fixedOne)

/-- The logarithm to base two. -/
def log2 (a : Lane) : Lane :=
  match datum a with
  | .nan => nan
  | .infinite s => if s then nan else infinity false
  | .finite s m =>
    if m = 0 then infinity true
    else if s then nan
    else
      let exponent : Int := (m.log2 : Int) - 149
      let power := 1 <<< m.log2
      if m = power then ofInt exponent
      else
        let z := (m - power) * fixedOne / (m + power)
        let fraction := logarithmSum z * fixedOne / naturalLogOfTwo
        let total := exponent * fixedOne + fraction
        let doubled := 2 * total + 1
        round (doubled < 0) (doubled.natAbs * Format.binary32.one) (2 * fixedOne)

end Binary32
end Microcode
