/-!
Predicates of instructions and the small enumerations read from two- and three-bit fields.
-/

namespace Microcode

/-- The condition under which an instruction takes effect. -/
inductive Predicate where
  | none
  | p0
  | p1
  | p2
  | p3
  | notP0
  | notP1
  | perLane
  deriving DecidableEq, Repr, Inhabited

namespace Predicate

/-- Predicate of a three-bit field. -/
def ofCode (n : Nat) : Predicate :=
  match n % 8 with
  | 0 => none
  | 1 => p0
  | 2 => p1
  | 3 => p2
  | 4 => p3
  | 5 => notP0
  | 6 => notP1
  | _ => perLane

/-- Predicate of a two-bit field. -/
def ofShortCode (n : Nat) : Predicate :=
  match n % 4 with
  | 0 => none
  | 1 => p0
  | 2 => p1
  | _ => notP0

/-- The predicate register that is tested, and whether the test is negated. -/
def register? : Predicate → Option (Nat × Bool)
  | p0 => some (0, false)
  | p1 => some (1, false)
  | p2 => some (2, false)
  | p3 => some (3, false)
  | notP0 => some (0, true)
  | notP1 => some (1, true)
  | none | perLane => Option.none

end Predicate

/-- Which of the three move instructions a move word holds. -/
inductive MoveKind where
  | unconditional
  | conditional
  | conditionalByte
  deriving DecidableEq, Repr, Inhabited

/-- Test of a conditional move on its first source. -/
inductive ZeroTest where
  | notEqual
  | equal
  | less
  | lessOrEqual
  deriving DecidableEq, Repr, Inhabited

def ZeroTest.ofCode (n : Nat) : ZeroTest :=
  match n % 4 with
  | 0 => .notEqual
  | 1 => .equal
  | 2 => .less
  | _ => .lessOrEqual

/-- Which operands a repeated instruction advances.  Under `table` the increments come from the
increment table. -/
inductive RepeatMode where
  | table
  | internal
  | external
  | both
  deriving DecidableEq, Repr, Inhabited

def RepeatMode.ofCode (n : Nat) : RepeatMode :=
  match n % 4 with
  | 0 => .table
  | 1 => .internal
  | 2 => .external
  | _ => .both

end Microcode
