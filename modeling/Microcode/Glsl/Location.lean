import Microcode.Code.Listing

/-!
How places are written in GLSL.
-/

namespace Microcode
namespace Glsl

/-- A place as it is written.  An array is a block, named here so that its elements can be. -/
structure Location where
  text : String
  shape : Shape
  block? : Option String := none
  deriving DecidableEq, Repr, Inhabited

def builtinName : BuiltinVariable → String
  | .vertexIndex => "gl_VertexIndex"
  | .instanceIndex => "gl_InstanceIndex"
  | .position => "gl_Position"
  | .fragCoord => "gl_FragCoord"

namespace Location

def ofVariable (v : Variable) : Location :=
  match v.storage with
  | .builtinInput b | .builtinOutput b => ⟨builtinName b, v.shape, none⟩
  | .uniformArray _ _ => ⟨v.name ++ ".data[0]", v.shape, some v.name⟩
  | .hidden | .input _ | .output _ => ⟨v.name, v.shape, none⟩

def element (l : Location) (index : Nat) : Location :=
  { l with text := l.block?.getD l.text ++ ".data[" ++ toString index ++ "]" }

def ofPlace (v : Variable) (p : Place) : Location := p.path.foldl element (ofVariable v)

end Location
end Glsl

/-- Whether two places are the same to the target of a listing.  In GLSL places are what they are
written as; elsewhere they are variables and indices. -/
def Listing.samePlace (l : Listing) (a b : Place) : Bool :=
  match l.target with
  | .glsl => Glsl.Location.ofPlace (l.variableAt a) a = Glsl.Location.ofPlace (l.variableAt b) b
  | .machine | .spirv =>
    a.variableIndex = b.variableIndex && a.path.getLast? = b.path.getLast?

end Microcode
