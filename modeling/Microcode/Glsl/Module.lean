import Microcode.Glsl.Expr

/-!
Statements, declarations and modules of GLSL, and their text.
-/

namespace Microcode
namespace Glsl

inductive Statement where
  /-- Declares a temporary with its value. -/
  | temporary (shape : Shape) (index : Nat) (value : Expr)
  | assign (target value : Expr)
  | call (name : String)
  deriving Repr, Inhabited

def Statement.text : Statement → String
  | .temporary shape index value =>
    typeName shape ++ " " ++ (Expr.temporary index).text ++ " = " ++ value.text ++ ";"
  | .assign target value => target.text ++ " = " ++ value.text ++ ";"
  | .call name => name ++ "();"

/-- The zero of a shape. -/
def zeroText (s : Shape) : String :=
  let one := literalText (.zero s.scalar)
  if s.count = 1 then one else typeName s ++ "(" ++ one ++ ")"

inductive Declaration where
  | hidden (shape : Shape) (name : String)
  | input (location : Nat) (flat : Bool) (shape : Shape) (name : String)
  | output (location : Nat) (shape : Shape) (name : String)
  | uniformBlock (binding length : Nat) (shape : Shape) (name : String)
  | memoryBlock (space : MemorySpace)
  deriving DecidableEq, Repr, Inhabited

def layoutText (s : String) : String := "layout(" ++ s ++ ") "

def blockText (kind name member : String) : String :=
  kind ++ " " ++ name ++ "_block \x7b\n    " ++ member ++ ";\n\x7d " ++ name ++ ";"

def Declaration.text : Declaration → String
  | .hidden shape name => typeName shape ++ " " ++ name ++ " = " ++ zeroText shape ++ ";"
  | .input location flat shape name =>
    layoutText ("location = " ++ toString location) ++ (if flat then "flat " else "") ++ "in " ++
      typeName shape ++ " " ++ name ++ ";"
  | .output location shape name =>
    layoutText ("location = " ++ toString location) ++ "out " ++ typeName shape ++ " " ++ name ++
      ";"
  | .uniformBlock binding length shape name =>
    layoutText ("std140, set = 0, binding = " ++ toString binding) ++
      blockText "uniform" name (typeName shape ++ " data[" ++ toString length ++ "]")
  | .memoryBlock space =>
    layoutText ("std430, set = 1, binding = " ++ toString space.binding) ++
      blockText "buffer" space.name "uint words[]"

/-- Definition of a helper function. -/
def helperText (h : Helper) : String :=
  let body := match h with
    | .unpack .unorm16 => "unpackUnorm2x16(floatBitsToUint(v))"
    | .unpack .ieee => "unpackHalf2x16(floatBitsToUint(v))"
    | .pack .unorm16 => "uintBitsToFloat(packUnorm2x16(v))"
    | .pack .ieee => "uintBitsToFloat(packHalf2x16(v))"
  let argument := match h with
    | .unpack _ => "float v"
    | .pack _ => "vec2 v"
  typeName h.shape ++ " " ++ h.name ++ "(" ++ argument ++ ") \x7b\n    return " ++ body ++ ";\n\x7d\n"

structure Function where
  name : String
  body : Array Statement := #[]
  deriving Repr, Inhabited

def Function.text (f : Function) : String :=
  "void " ++ f.name ++ "() \x7b\n" ++
    String.join (f.body.toList.map fun s => "    " ++ s.text ++ "\n") ++ "\x7d\n"

structure Module where
  declarations : Array Declaration := #[]
  helpers : Array Helper := #[]
  functions : Array Function := #[]
  entry : Function := { name := "main" }
  deriving Repr, Inhabited

def Module.text (m : Module) : String :=
  "#version 450\n\n" ++
    String.join (m.declarations.toList.map fun d => d.text ++ "\n") ++ "\n" ++
    String.join (m.helpers.toList.map helperText) ++ (if m.helpers.isEmpty then "" else "\n") ++
    String.join (m.functions.toList.map fun f => f.text ++ "\n") ++ m.entry.text

end Glsl
end Microcode
