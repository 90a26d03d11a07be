import Microcode.Numeric.Binary32

/-!
Element types of operands, and the scalar types in which they are computed.
-/

namespace Microcode

/-- Scalar types of computed values. -/
inductive Scalar where
  | f32
  | i32
  | u32
  | bool
  deriving DecidableEq, Repr, Inhabited

namespace Scalar

def name : Scalar → String
  | f32 => "f32"
  | i32 => "i32"
  | u32 => "u32"
  | bool => "bool"

def isInteger : Scalar → Bool
  | i32 | u32 => true
  | f32 | bool => false

end Scalar

/-- How the bits of a register are divided and read.  `c10` is a fixed-point colour component and
`o8` a byte biased by 128. -/
inductive Element where
  | s8
  | s16
  | s32
  | c10
  | f16
  | f32
  | u8
  | u16
  | u32
  | o8
  | unknown
  deriving DecidableEq, Repr, Inhabited

namespace Element

def name : Element → String
  | s8 => "S8"
  | s16 => "S16"
  | s32 => "S32"
  | c10 => "C10"
  | f16 => "F16"
  | f32 => "F32"
  | u8 => "U8"
  | u16 => "U16"
  | u32 => "U32"
  | o8 => "O8"
  | unknown => "UNK"

/-- Bytes in one element. -/
def size : Element → Nat
  | s8 | u8 | o8 | c10 => 1
  | s16 | u16 | f16 => 2
  | s32 | u32 | f32 | unknown => 4

/-- Elements in one lane. -/
def ratio (e : Element) : Nat := 4 / e.size

def isFloat : Element → Bool
  | c10 | f16 | f32 => true
  | _ => false

def isSigned : Element → Bool
  | s8 | s16 | s32 | o8 => true
  | _ => false

def isUnsigned : Element → Bool
  | u8 | u16 | u32 => true
  | _ => false

/-- Element an internal register holds in place of this one: its lanes are never divided. -/
def promoted : Element → Element
  | f16 | c10 => f32
  | s8 | s16 | o8 => s32
  | u8 | u16 => u32
  | e => e

/-- Scalar in which the elements are computed. -/
def scalar (e : Element) : Scalar :=
  if e.isFloat || e = unknown then .f32 else if e.isSigned then .i32 else .u32

/-- The number, in binary32, onto which a normalized conversion maps one. -/
def maximum : Element → Lane
  | u8 | c10 => 0x437f0000#32
  | s8 | o8 => 0x42fe0000#32
  | u16 => 0x477fff00#32
  | s16 => 0x46fffe00#32
  | u32 => 0x4f800000#32
  | s32 => 0x4f000000#32
  | f16 | f32 | unknown => Binary32.one

end Element
end Microcode
