import Microcode.Numeric.Format

/-!
Binary32 arithmetic on 32-bit lanes.

Each operation reads its operands exactly, computes exactly and rounds once.  A result that is not
a number is the positive quiet pattern without payload.
-/

namespace Microcode

/-- One 32-bit register cell. -/
abbrev Lane := BitVec 32

namespace Binary32

open Numeric

/-- What a lane means as a number: finite numbers count units of the least subnormal. -/
inductive Datum where
  | nan
  | infinite (negative : Bool)
  | finite (negative : Bool) (units : Nat)
  deriving DecidableEq, Repr

def magnitude (a : Lane) : Nat := a.toNat % 0x80000000

def isNegative (a : Lane) : Bool := a.msb

def datum (a : Lane) : Datum :=
  let m := magnitude a
  if m < Format.binary32.infinity then .finite (isNegative a) (Format.binary32.units m)
  else if m = Format.binary32.infinity then .infinite (isNegative a)
  else .nan

def pack (negative : Bool) (magnitude : Nat) : Lane :=
  BitVec.ofNat 32 (magnitude + if negative then 0x80000000 else 0)

/-- The number nearest to `n / d` units, with the given sign. -/
def round (negative : Bool) (n d : Nat) : Lane := pack negative (Format.binary32.round n d)

def nan : Lane := 0x7fc00000#32

def infinity (negative : Bool) : Lane := pack negative Format.binary32.infinity

def zero (negative : Bool) : Lane := pack negative 0

def one : Lane := 0x3f800000#32

def isNaN (a : Lane) : Bool := Format.binary32.infinity < magnitude a

def isFinite (a : Lane) : Bool := magnitude a < Format.binary32.infinity

/-- Negation flips the sign bit, of every pattern. -/
def neg (a : Lane) : Lane := a ^^^ 0x80000000#32

/-- The absolute value clears the sign bit, of every pattern. -/
def abs (a : Lane) : Lane := a &&& 0x7fffffff#32

/-- Position in the order of the numbers; both zeros stand at 0, and a NaN has no position. -/
def position (a : Lane) : Option Int :=
  if isNaN a then none
  else some (if isNegative a then -(magnitude a : Int) else magnitude a)

def lt (a b : Lane) : Bool :=
  match position a, position b with
  | some p, some q => p < q
  | _, _ => false

def signedUnits (negative : Bool) (units : Nat) : Int := if negative then -(units : Int) else units

/-- Rounds a whole number of units; an exact zero takes the sign given for it. -/
def ofUnits (units : Int) (zeroNegative : Bool) : Lane :=
  if units = 0 then zero zeroNegative else round (units < 0) units.natAbs 1

def add (a b : Lane) : Lane :=
  match datum a, datum b with
  | .finite s m, .finite t n => ofUnits (signedUnits s m + signedUnits t n) (s && t)
  | .infinite s, .infinite t => if s = t then infinity s else nan
  | .infinite s, .finite _ _ => infinity s
  | .finite _ _, .infinite t => infinity t
  | .nan, _ => nan
  | _, .nan => nan

def sub (a b : Lane) : Lane := add a (neg b)

def mul (a b : Lane) : Lane :=
  match datum a, datum b with
  | .finite s m, .finite t n => round (s != t) (m * n) Format.binary32.one
  | .infinite s, .infinite t => infinity (s != t)
  | .infinite s, .finite t n => if n = 0 then nan else infinity (s != t)
  | .finite s m, .infinite t => if m = 0 then nan else infinity (s != t)
  | .nan, _ => nan
  | _, .nan => nan

def div (a b : Lane) : Lane :=
  match datum a, datum b with
  | .finite s m, .finite t n =>
    if n = 0 then if m = 0 then nan else infinity (s != t)
    else round (s != t) (m * Format.binary32.one) n
  | .infinite _, .infinite _ => nan
  | .infinite s, .finite t _ => infinity (s != t)
  | .finite s _, .infinite t => zero (s != t)
  | .nan, _ => nan
  | _, .nan => nan

/-- The lesser operand; a NaN yields to the other operand. -/
def min (a b : Lane) : Lane :=
  if isNaN a then b else if isNaN b then a else if lt b a then b else a

/-- The greater operand; a NaN yields to the other operand. -/
def max (a b : Lane) : Lane :=
  if isNaN a then b else if isNaN b then a else if lt a b then b else a

/-- The square root is irrational or whole in units of the least subnormal, and a root of a unit
already has far more digits than a significand, so one sticky half decides the rounding. -/
def sqrt (a : Lane) : Lane :=
  match datum a with
  | .finite s m =>
    if m = 0 then a
    else if s then nan
    else
      let square := m * Format.binary32.one
      let root := squareRoot square
      round false (2 * root + if root * root = square then 0 else 1) 2
  | .infinite s => if s then nan else a
  | .nan => nan

/-- The greatest whole number that is not above the operand. -/
def floor (a : Lane) : Lane :=
  match datum a with
  | .finite s m =>
    let whole := (signedUnits s m).fdiv Format.binary32.one
    ofUnits (whole * Format.binary32.one) s
  | _ => a

/-- The nearest whole number; a half goes away from zero. -/
def roundAway (a : Lane) : Lane :=
  match datum a with
  | .finite s m =>
    let whole := (2 * m + Format.binary32.one) / (2 * Format.binary32.one)
    round s (whole * Format.binary32.one) 1
  | _ => a

/-- The whole part, cut off toward zero; NaN counts as zero, and an infinity is beyond every
bound. -/
def truncate (a : Lane) : Int :=
  match datum a with
  | .finite s m => signedUnits s (m / Format.binary32.one)
  | .infinite s => if s then -0x10000000000000000 else 0x10000000000000000
  | .nan => 0

/-- Whole part as a signed word, saturating. -/
def toSigned (a : Lane) : Lane :=
  BitVec.ofInt 32 (Max.max (-0x80000000) (Min.min 0x7fffffff (truncate a)))

/-- Whole part as an unsigned word, saturating. -/
def toUnsigned (a : Lane) : Lane :=
  BitVec.ofInt 32 (Max.max 0 (Min.min 0xffffffff (truncate a)))

/-- The number nearest to a whole number. -/
def ofInt (n : Int) : Lane := ofUnits (n * Format.binary32.one) false

def ofSigned (a : Lane) : Lane := ofInt a.toInt

def ofUnsigned (a : Lane) : Lane := ofInt a.toNat

end Binary32
end Microcode
