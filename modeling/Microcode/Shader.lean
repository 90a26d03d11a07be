import Microcode.Code.Operator
import Microcode.Error
import Microcode.Numeric.Binary16

/-!
What a recompilation is given: a shader with its metadata, the constant tables, the features of the
host and the options.
-/

namespace Microcode

/-- A buffer of `size` bytes seen through the secondary attributes from register `start` on. -/
structure UniformBuffer where
  index : Nat := 0
  size : Nat := 0
  start : Nat := 0
  /-- Secondary attribute that holds the address of the buffer. -/
  baseRegister? : Option Nat := none
  baseAddress : Lane := 0#32
  deriving DecidableEq, Repr, Inhabited

structure Sampler where
  index : Nat := 0
  name : String := ""
  cube : Bool := false
  register : Nat := 0
  deriving DecidableEq, Repr, Inhabited

inductive InputMeaning where
  | generic
  | vertexIndex
  | instanceIndex
  deriving DecidableEq, Repr, Inhabited

/-- A host input and the primary attributes it is found in. -/
structure Input where
  location : Nat := 0
  register : Nat := 0
  components : Nat := 4
  meaning : InputMeaning := .generic
  deriving DecidableEq, Repr, Inhabited

/-- A word of the literal buffer and the secondary attribute that receives it. -/
structure Literal where
  register : Nat := 0
  offset : Nat := 0
  deriving DecidableEq, Repr, Inhabited

/-- Secondary attributes that stand for the base of a memory. -/
structure MemoryAliases where
  literal? : Option Nat := none
  textureIndex? : Option Nat := none
  scratch? : Option Nat := none
  deriving DecidableEq, Repr, Inhabited

/-- Where the colour of a fragment is: in the outputs, or else in the primary attributes. -/
structure FragmentOutput where
  native : Bool := false
  element : Element := .f32
  start : Nat := 0
  deriving DecidableEq, Repr, Inhabited

/-- The varyings a vertex shader writes: position, two colours, fog and ten texture coordinates.  A
texture coordinate with no components has four. -/
structure VertexOutputs where
  enabled : BitVec 14 := 0
  texcoordComponents : List Nat := []
  deriving DecidableEq, Repr, Inhabited

/-- A shader; register counts are in lanes. -/
structure Shader where
  stage : Stage := .fragment
  primary : List Word := []
  secondary : List Word := []
  temporaries : Nat := 32
  primaryAttributes : Nat := 32
  secondaryAttributes : Nat := 32
  outputs : Nat := 16
  uniformBuffers : List UniformBuffer := []
  samplers : List Sampler := []
  inputs : List Input := []
  literals : List Literal := []
  literalBuffer : Array (BitVec 8) := #[]
  aliases : MemoryAliases := {}
  fragment : FragmentOutput := {}
  vertexOutputs : VertexOutputs := {}
  deriving DecidableEq, Repr, Inhabited

/-- The little-endian word at a byte offset of the literal buffer. -/
def Shader.literal (s : Shader) (offset : Nat) : Except Error Lane :=
  let bytes := s.literalBuffer
  if offset + 4 ≤ bytes.size then
    .ok (bytes.getD (offset + 3) 0 ++ bytes.getD (offset + 2) 0 ++ bytes.getD (offset + 1) 0 ++
      bytes.getD offset 0)
  else .error (.metadata (.literalOffset offset))

/-- Constants by bank and index. -/
structure ConstantTables where
  f32 : List (Array Lane) := []
  f16 : List (Array (BitVec 16)) := []
  deriving DecidableEq, Repr, Inhabited

namespace ConstantTables

def f32? (t : ConstantTables) (bank index : Nat) : Option Lane := (t.f32.getD bank #[])[index]?

def f16? (t : ConstantTables) (bank index : Nat) : Option Lane :=
  ((t.f16.getD bank #[])[index]?).map Binary16.toBinary32

end ConstantTables

/-- What the host can do: show the colour a fragment is drawn over, keep the bits of halves, and
take integer colours. -/
structure Features where
  directColor : Bool := false
  rawHalves : Bool := false
  nativeColor : Bool := false
  deriving DecidableEq, Repr, Inhabited

/-- How a conditional move of floats is done: by arithmetic or by a selection. -/
inductive MoveLowering where
  | blend
  | select
  deriving DecidableEq, Repr, Inhabited

structure Options where
  move : MoveLowering := .blend
  half : HalfEncoding := .unorm16
  viewportFlip : Bool := false
  deriving DecidableEq, Repr, Inhabited

structure Context where
  shader : Shader := {}
  constants : ConstantTables := {}
  features : Features := {}
  options : Options := {}
  deriving DecidableEq, Repr, Inhabited

/-- A host that must keep the bits of halves has binary16 halves. -/
def Context.halfEncoding (c : Context) : HalfEncoding :=
  if c.features.rawHalves then .ieee else c.options.half

end Microcode
