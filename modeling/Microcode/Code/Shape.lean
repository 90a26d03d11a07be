import Microcode.Element

/-!
Shapes of values, and constants.
-/

namespace Microcode

/-- A scalar when `count` is one, and otherwise a vector of `count` components. -/
structure Shape where
  scalar : Scalar
  count : Nat
  deriving DecidableEq, Repr, Inhabited

namespace Shape

def f32 : Shape := ⟨.f32, 1⟩

def i32 : Shape := ⟨.i32, 1⟩

def u32 : Shape := ⟨.u32, 1⟩

def bool : Shape := ⟨.bool, 1⟩

/-- One register group. -/
def group : Shape := ⟨.f32, 4⟩

def isScalar (s : Shape) : Bool := s.count = 1

def text (s : Shape) : String :=
  if s.count = 1 then s.scalar.name else s.scalar.name ++ "x" ++ toString s.count

end Shape

/-- A scalar constant; a truth value is kept as such and every other one as its bits. -/
inductive Constant where
  | f32 (bits : Lane)
  | i32 (bits : Lane)
  | u32 (bits : Lane)
  | bool (value : Bool)
  deriving DecidableEq, Repr, Inhabited

namespace Constant

def scalar : Constant → Scalar
  | f32 _ => .f32
  | i32 _ => .i32
  | u32 _ => .u32
  | bool _ => .bool

/-- The lane that holds the constant. -/
def lane : Constant → Lane
  | f32 bits | i32 bits | u32 bits => bits
  | bool value => if value then 1#32 else 0#32

/-- The number with pattern `bits` expressed in `scalar`; integers are cut off toward zero and
saturate. -/
def ofNumber (scalar : Scalar) (bits : Lane) : Constant :=
  match scalar with
  | .f32 => f32 bits
  | .i32 => i32 (Binary32.toSigned bits)
  | .u32 => u32 (Binary32.toUnsigned bits)
  | .bool => bool (Binary32.position bits ≠ some 0)

def zero (scalar : Scalar) : Constant := ofNumber scalar 0#32

end Constant
end Microcode
