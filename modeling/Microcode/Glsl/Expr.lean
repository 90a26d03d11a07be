import Microcode.Glsl.Location
import Microcode.Hex
import Microcode.Numeric.Decimal

/-!
Expressions of GLSL and their text.
-/

namespace Microcode
namespace Glsl

/-- Name of a type. -/
def typeName (s : Shape) : String :=
  if s.count = 1 then
    match s.scalar with
    | .f32 => "float"
    | .i32 => "int"
    | .u32 => "uint"
    | .bool => "bool"
  else
    let kind := match s.scalar with
      | .f32 => ""
      | .i32 => "i"
      | .u32 => "u"
      | .bool => "b"
    kind ++ "vec" ++ toString s.count

/-- A constant as a literal.  What no literal denotes is made from its bits. -/
def literalText : Constant → String
  | .f32 bits =>
    if Binary32.isFinite bits then Binary32.text bits
    else "uintBitsToFloat(0x" ++ hexText 1 bits.toNat ++ "u)"
  | .i32 bits =>
    if bits = BitVec.intMin 32 then "int(0x80000000u)" else toString bits.toInt
  | .u32 bits => toString bits.toNat ++ "u"
  | .bool value => if value then "true" else "false"

/-- Letter of a component; components past the fourth start again. -/
def laneLetter (lane : Nat) : String :=
  match lane % 4 with
  | 0 => "x"
  | 1 => "y"
  | 2 => "z"
  | _ => "w"

inductive UnarySymbol where
  | minus
  | not
  | complement
  deriving DecidableEq, Repr

def UnarySymbol.text : UnarySymbol → String
  | minus => "-"
  | not => "!"
  | complement => "~"

inductive BinarySymbol where
  | plus
  | minus
  | times
  | divide
  | and
  | or
  | xor
  | shiftLeft
  | shiftRight
  | equal
  | notEqual
  | less
  | lessOrEqual
  | greater
  | greaterOrEqual
  deriving DecidableEq, Repr

def BinarySymbol.text : BinarySymbol → String
  | plus => "+"
  | minus => "-"
  | times => "*"
  | divide => "/"
  | and => "&"
  | or => "|"
  | xor => "^"
  | shiftLeft => "<<"
  | shiftRight => ">>"
  | equal => "=="
  | notEqual => "!="
  | less => "<"
  | lessOrEqual => "<="
  | greater => ">"
  | greaterOrEqual => ">="

/-- Expressions.  The operands of an operator are never operators themselves, so the text needs no
parentheses. -/
inductive Expr where
  | literal (value : Constant)
  | temporary (index : Nat)
  | location (declared : Variable) (place : Place)
  | component (vector : Expr) (lane : Nat)
  | swizzle (vector : Expr) (lanes : List Nat)
  | call (name : String) (args : List Expr)
  | unary (symbol : UnarySymbol) (a : Expr)
  | binary (symbol : BinarySymbol) (a b : Expr)
  | conditional (condition a b : Expr)
  /-- The word of a memory at a byte offset. -/
  | word (space : MemorySpace) (offset : Expr)
  deriving Repr, Inhabited

mutual

def Expr.text : Expr → String
  | .literal value => literalText value
  | .temporary index => "_v" ++ toString index
  | .location declared place => (Location.ofPlace declared place).text
  | .component vector lane => vector.text ++ "." ++ laneLetter lane
  | .swizzle vector lanes => vector.text ++ "." ++ String.join (lanes.map laneLetter)
  | .call name args => name ++ "(" ++ argumentsText args ++ ")"
  | .unary symbol a => symbol.text ++ a.text
  | .binary symbol a b => a.text ++ " " ++ symbol.text ++ " " ++ b.text
  | .conditional condition a b => condition.text ++ " ? " ++ a.text ++ " : " ++ b.text
  | .word space offset => space.name ++ ".words[" ++ offset.text ++ " >> 2u]"

def argumentsText : List Expr → String
  | [] => ""
  | [e] => e.text
  | e :: rest => e.text ++ ", " ++ argumentsText rest

end

end Glsl
end Microcode
