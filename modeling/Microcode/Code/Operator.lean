import Microcode.Code.Shape

/-!
Operators on values, and the kinds of storage.
-/

namespace Microcode

/-- Operations on two values, component by component. -/
inductive BinaryOp where
  | add
  | sub
  | mul
  | div
  | min
  | max
  | and
  | or
  | xor
  | shl
  /-- Shift right, filling with zeros. -/
  | shr
  /-- Shift right, filling with the sign. -/
  | asr
  deriving DecidableEq, Repr, Inhabited

inductive UnaryOp where
  | neg
  | abs
  /-- Complement of the bits, or of a truth value. -/
  | not
  deriving DecidableEq, Repr, Inhabited

inductive CompareOp where
  | eq
  | ne
  | lt
  | le
  | gt
  | ge
  deriving DecidableEq, Repr, Inhabited

inductive Builtin where
  | floor
  | fract
  | round
  | sign
  | inverseSqrt
  | exp2
  | log2
  | step
  | mix
  | clamp
  | dot
  | dfdx
  | dfdy
  deriving DecidableEq, Repr, Inhabited

/-- A bit cast keeps the bits, a numeric conversion the number. -/
inductive Conversion where
  | bitcast
  | numeric
  deriving DecidableEq, Repr, Inhabited

/-- How two halves share a lane: as normalized 16-bit numbers or as binary16. -/
inductive HalfEncoding where
  | unorm16
  | ieee
  deriving DecidableEq, Repr, Inhabited

/-- Helper functions between a lane and the pair of numbers it holds. -/
inductive Helper where
  | unpack (encoding : HalfEncoding)
  | pack (encoding : HalfEncoding)
  deriving DecidableEq, Repr, Inhabited

def Helper.shape : Helper → Shape
  | unpack _ => ⟨.f32, 2⟩
  | pack _ => Shape.f32

def Helper.name : Helper → String
  | unpack .unorm16 => "unpack_unorm16x2"
  | unpack .ieee => "unpack_half2"
  | pack .unorm16 => "pack_unorm16x2"
  | pack .ieee => "pack_half2"

/-- Byte-addressed memories. -/
inductive MemorySpace where
  | global
  | literal
  | textureIndex
  | scratch
  deriving DecidableEq, Repr, Inhabited

namespace MemorySpace

def all : List MemorySpace := [global, literal, textureIndex, scratch]

def name : MemorySpace → String
  | global => "memory"
  | literal => "literals"
  | textureIndex => "texture_indices"
  | scratch => "scratch"

def binding : MemorySpace → Nat
  | global => 0
  | literal => 1
  | textureIndex => 2
  | scratch => 3

end MemorySpace

/-- Variables the host gives a meaning of their own. -/
inductive BuiltinVariable where
  | vertexIndex
  | instanceIndex
  | position
  | fragCoord
  deriving DecidableEq, Repr, Inhabited

inductive Storage where
  | hidden
  | input (location : Nat)
  | output (location : Nat)
  | builtinInput (builtin : BuiltinVariable)
  | builtinOutput (builtin : BuiltinVariable)
  | uniformArray (binding length : Nat)
  deriving DecidableEq, Repr, Inhabited

/-- A declared variable; an array holds `length` elements of the shape. -/
structure Variable where
  name : String
  shape : Shape
  storage : Storage
  deriving DecidableEq, Repr, Inhabited

/-- Elements of the variable: an array has at least one. -/
def Variable.length (v : Variable) : Nat :=
  match v.storage with
  | .uniformArray _ length => max 1 length
  | _ => 1

/-- Shader stages. -/
inductive Stage where
  | vertex
  | fragment
  deriving DecidableEq, Repr, Inhabited

end Microcode
