/-!
Binary floating-point formats and rounding to nearest.

Every finite number of such a format is a whole multiple of its least positive number, the
*unit*.  Arithmetic is then exact arithmetic on multiples of the unit followed by one rounding,
and the rounding is a division.  The magnitudes of a format are ordered like their bit patterns,
and consecutive patterns are consecutive numbers, so a significand that rounds up into the next
binade carries into the exponent by plain addition.
-/

namespace Microcode
namespace Numeric

/-- The integer nearest to `n / d`; a half goes to the even neighbour. -/
def nearestEven (n d : Nat) : Nat :=
  let q := n / d
  let r := n % d
  if 2 * r < d then q else if d < 2 * r then q + 1 else q + q % 2

/-- The largest number whose square is at most `n`, one binary digit for each unit of fuel. -/
def squareRootDigits : Nat → Nat → Nat
  | 0, _ => 0
  | fuel + 1, n =>
    let r := 2 * squareRootDigits fuel (n / 4)
    if (r + 1) * (r + 1) ≤ n then r + 1 else r

/-- The integer square root. -/
def squareRoot (n : Nat) : Nat := squareRootDigits (n.log2 / 2 + 1) n

/-- A format is fixed by the width of its stored fraction, by the exponent of its unit
`2 ^ (-unitExponent)`, and by the magnitude pattern of its infinity. -/
structure Format where
  fractionBits : Nat
  unitExponent : Nat
  infinity : Nat
  deriving DecidableEq, Repr

namespace Format

def binary32 : Format := ⟨23, 149, 0x7f800000⟩

def binary16 : Format := ⟨10, 24, 0x7c00⟩

/-- Number of units in the finite magnitude with pattern `m`. -/
def units (f : Format) (m : Nat) : Nat :=
  let exponent := m >>> f.fractionBits
  let fraction := m % 1 <<< f.fractionBits
  if exponent = 0 then fraction else (1 <<< f.fractionBits + fraction) <<< (exponent - 1)

/-- Pattern of the magnitude nearest to `n / d` units, a half going to the even pattern; what lies
beyond the finite range is infinite. -/
def round (f : Format) (n d : Nat) : Nat :=
  let shift := (n / d).log2 - f.fractionBits
  min f.infinity (shift <<< f.fractionBits + nearestEven n (d <<< shift))

/-- Units in the number one. -/
def one (f : Format) : Nat := 1 <<< f.unitExponent

end Format
end Numeric
end Microcode
