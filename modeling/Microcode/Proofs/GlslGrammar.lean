import Microcode.Glsl.Module
import Microcode.Proofs.Names

/-!
How GLSL text is read.

Text is cut into tokens from left to right, each as long as it can be, so that two minus signs side
by side are a decrement.  The tokens of an expression are grouped by the precedence of the
operators.  Assignments and sequences are left out: no initializer is one.
-/

namespace Microcode
namespace Glsl

/-! ## Tokens -/

inductive Token where
  | name (text : List Char)
  | number (text : List Char)
  | symbol (text : List Char)
  deriving DecidableEq, Repr

def isHexDigit (c : Char) : Bool :=
  c.isDigit || ('a' ≤ c && c ≤ 'f') || ('A' ≤ c && c ≤ 'F')

def digitsLength (cs : List Char) : Nat := (cs.takeWhile Char.isDigit).length

/-- A point and the digits after it. -/
def fractionLength : List Char → Nat
  | '.' :: rest => 1 + digitsLength rest
  | _ => 0

/-- The mark of an exponent, its sign and its digits; without digits there is no exponent. -/
def exponentLength : List Char → Nat
  | mark :: sign :: rest =>
    if mark = 'e' || mark = 'E' then
      if sign = '-' || sign = '+' then
        if digitsLength rest = 0 then 0 else 2 + digitsLength rest
      else if digitsLength (sign :: rest) = 0 then 0 else 1 + digitsLength (sign :: rest)
    else 0
  | _ => 0

def suffixLength : List Char → Nat
  | 'u' :: _ | 'U' :: _ | 'f' :: _ | 'F' :: _ => 1
  | 'l' :: 'f' :: _ | 'L' :: 'F' :: _ => 2
  | _ => 0

def decimalLength (cs : List Char) : Nat :=
  let whole := digitsLength cs
  let fraction := fractionLength (cs.drop whole)
  let exponent := exponentLength (cs.drop (whole + fraction))
  whole + fraction + exponent + suffixLength (cs.drop (whole + fraction + exponent))

def hexLength (cs : List Char) : Nat :=
  let digits := (cs.takeWhile isHexDigit).length
  digits + suffixLength (cs.drop digits)

def numberLength : List Char → Nat
  | '0' :: 'x' :: rest | '0' :: 'X' :: rest => 2 + hexLength rest
  | cs => decimalLength cs

/-- Operators and brackets, the longer ones first. -/
def symbols : List (List Char) :=
  [['<', '<', '='], ['>', '>', '='],
   ['+', '+'], ['-', '-'], ['<', '<'], ['>', '>'], ['<', '='], ['>', '='], ['=', '='], ['!', '='],
   ['&', '&'], ['|', '|'], ['^', '^'], ['+', '='], ['-', '='], ['*', '='], ['/', '='], ['%', '='],
   ['&', '='], ['|', '='], ['^', '='],
   ['('], [')'], ['['], [']'], ['\x7b'], ['\x7d'], ['.'], [','], [';'], ['+'], ['-'], ['*'], ['/'],
   ['%'], ['<'], ['>'], ['='], ['!'], ['~'], ['&'], ['|'], ['^'], ['?'], [':']]

/-- The longest token at the start of a text, and what follows it. -/
def nextToken : List Char → Option (Token × List Char)
  | [] => none
  | c :: rest =>
    if isNameStart c then
      some (.name (c :: rest.takeWhile isNamePart), rest.dropWhile isNamePart)
    else if c.isDigit || (c = '.' && rest.head?.any Char.isDigit) then
      let n := numberLength (c :: rest)
      some (.number ((c :: rest).take n), (c :: rest).drop n)
    else
      (symbols.find? fun s => s.isPrefixOf (c :: rest)).map fun s =>
        (.symbol s, (c :: rest).drop s.length)

/-- At most `fuel` tokens and blanks. -/
def tokens : (fuel : Nat) → List Char → Option (List Token)
  | _, [] => some []
  | 0, _ => none
  | fuel + 1, c :: rest =>
    if c = ' ' then tokens fuel rest
    else
      match nextToken (c :: rest) with
      | none => none
      | some (t, rest) => (tokens fuel rest).map (t :: ·)

/-! ## Trees -/

inductive Tree where
  | name (text : List Char)
  | number (text : List Char)
  | field (tree : Tree) (name : List Char)
  | element (tree index : Tree)
  | call (name : List Char) (args : List Tree)
  /-- An operator before its operand. -/
  | before (symbol : List Char) (tree : Tree)
  /-- An operator after its operand. -/
  | after (tree : Tree) (symbol : List Char)
  | binary (symbol : List Char) (a b : Tree)
  | conditional (condition a b : Tree)
  deriving Repr, Inhabited

/-- Operators bind the tighter the greater their precedence. -/
def precedence? : List Char → Option Nat
  | ['*'] | ['/'] | ['%'] => some 10
  | ['+'] | ['-'] => some 9
  | ['<', '<'] | ['>', '>'] => some 8
  | ['<'] | ['>'] | ['<', '='] | ['>', '='] => some 7
  | ['=', '='] | ['!', '='] => some 6
  | ['&'] => some 5
  | ['^'] => some 4
  | ['|'] => some 3
  | ['&', '&'] => some 2
  | ['^', '^'] => some 1
  | ['|', '|'] => some 0
  | _ => none

/-- Operators that stand before their operand. -/
def isLeading (s : List Char) : Bool :=
  [['+'], ['-'], ['!'], ['~'], ['+', '+'], ['-', '-']].contains s

mutual

/-- A condition with its two branches, or what binds tighter. -/
def parseExpr : (fuel : Nat) → List Token → Option (Tree × List Token)
  | 0, _ => none
  | fuel + 1, ts => do
    let (c, ts) ← parseBinary fuel 0 ts
    match ts with
    | .symbol ['?'] :: ts =>
      let (a, ts) ← parseExpr fuel ts
      match ts with
      | .symbol [':'] :: ts =>
        let (b, ts) ← parseExpr fuel ts
        return (.conditional c a b, ts)
      | _ => none
    | _ => return (c, ts)

/-- Operators of at least the given precedence. -/
def parseBinary : (fuel level : Nat) → List Token → Option (Tree × List Token)
  | 0, _, _ => none
  | fuel + 1, level, ts => do
    let (a, ts) ← parseUnary fuel ts
    parseOperators fuel level a ts

/-- What follows a left operand. -/
def parseOperators : (fuel level : Nat) → Tree → List Token → Option (Tree × List Token)
  | 0, _, _, _ => none
  | fuel + 1, level, a, ts =>
    match ts with
    | .symbol s :: rest =>
      match precedence? s with
      | some p =>
        if level ≤ p then do
          let (b, ts) ← parseBinary fuel (p + 1) rest
          parseOperators fuel level (.binary s a b) ts
        else some (a, ts)
      | none => some (a, ts)
    | _ => some (a, ts)

def parseUnary : (fuel : Nat) → List Token → Option (Tree × List Token)
  | 0, _ => none
  | fuel + 1, ts =>
    match ts with
    | .symbol s :: rest =>
      if isLeading s then do
        let (a, ts) ← parseUnary fuel rest
        return (.before s a, ts)
      else do
        let (a, ts) ← parsePrimary fuel ts
        parseSuffixes fuel a ts
    | _ => do
      let (a, ts) ← parsePrimary fuel ts
      parseSuffixes fuel a ts

def parsePrimary : (fuel : Nat) → List Token → Option (Tree × List Token)
  | 0, _ => none
  | fuel + 1, ts =>
    match ts with
    | .number s :: rest => some (.number s, rest)
    | .name s :: .symbol ['('] :: .symbol [')'] :: rest => some (.call s [], rest)
    | .name s :: .symbol ['('] :: rest => do
      let (args, ts) ← parseArguments fuel rest
      return (.call s args, ts)
    | .name s :: rest => some (.name s, rest)
    | .symbol ['('] :: rest => do
      let (a, ts) ← parseExpr fuel rest
      match ts with
      | .symbol [')'] :: ts => return (a, ts)
      | _ => none
    | _ => none

/-- Arguments up to the closing bracket. -/
def parseArguments : (fuel : Nat) → List Token → Option (List Tree × List Token)
  | 0, _ => none
  | fuel + 1, ts => do
    let (a, ts) ← parseExpr fuel ts
    match ts with
    | .symbol [','] :: ts =>
      let (args, ts) ← parseArguments fuel ts
      return (a :: args, ts)
    | .symbol [')'] :: ts => return ([a], ts)
    | _ => none

def parseSuffixes : (fuel : Nat) → Tree → List Token → Option (Tree × List Token)
  | 0, _, _ => none
  | fuel + 1, a, ts =>
    match ts with
    | .symbol ['.'] :: .name s :: rest => parseSuffixes fuel (.field a s) rest
    | .symbol ['['] :: rest => do
      let (i, ts) ← parseExpr fuel rest
      match ts with
      | .symbol [']'] :: ts => parseSuffixes fuel (.element a i) ts
      | _ => none
    | .symbol ['+', '+'] :: rest => parseSuffixes fuel (.after a ['+', '+']) rest
    | .symbol ['-', '-'] :: rest => parseSuffixes fuel (.after a ['-', '-']) rest
    | _ => some (a, ts)

end

/-- The expression that a text is. -/
def read (text : String) : Option Tree := do
  let ts ← tokens text.length text.toList
  match parseExpr (8 * ts.length + 8) ts with
  | some (t, []) => some t
  | _ => none

/-! ## Trees of expressions -/

/-- A number with its sign. -/
def signedTree (negative : Bool) (text : List Char) : Tree :=
  if negative then .before ['-'] (.number text) else .number text

def literalTree : Constant → Tree
  | .f32 bits =>
    if Binary32.isFinite bits then
      signedTree (Binary32.isNegative bits) (Binary32.text (Binary32.abs bits)).toList
    else .call "uintBitsToFloat".toList [.number ("0x" ++ hexText 1 bits.toNat ++ "u").toList]
  | .i32 bits =>
    if bits = BitVec.intMin 32 then .call "int".toList [.number "0x80000000u".toList]
    else signedTree (bits.toInt < 0) (toString bits.toInt.natAbs).toList
  | .u32 bits => .number (toString bits.toNat ++ "u").toList
  | .bool value => .name (if value then "true" else "false").toList

/-- A literal with a minus sign. -/
def isNegativeLiteral : Constant → Bool
  | .f32 bits => Binary32.isFinite bits && Binary32.isNegative bits
  | .i32 bits => bits ≠ BitVec.intMin 32 && bits.toInt < 0
  | .u32 _ | .bool _ => false

/-- The element of an array, or of what stands for one. -/
def elementTree (array : Tree) (i : Nat) : Tree :=
  .element (.field array "data".toList) (.number (toString i).toList)

def placeTree (v : Variable) (p : Place) : Tree :=
  match v.storage with
  | .builtinInput b | .builtinOutput b => p.path.foldl elementTree (.name (builtinName b).toList)
  | .uniformArray _ _ => elementTree (.name v.name.toList) (p.path.getLast?.getD 0)
  | .hidden | .input _ | .output _ => p.path.foldl elementTree (.name v.name.toList)

def letters (lanes : List Nat) : List Char := lanes.flatMap fun k => (laneLetter k).toList

mutual

def Expr.tree : Expr → Tree
  | .literal value => literalTree value
  | .temporary index => .name ("_v" ++ toString index).toList
  | .location declared place => placeTree declared place
  | .component vector lane => .field vector.tree (laneLetter lane).toList
  | .swizzle vector lanes => .field vector.tree (letters lanes)
  | .call name args => .call name.toList (argumentTrees args)
  | .unary symbol a => .before symbol.text.toList a.tree
  | .binary symbol a b => .binary symbol.text.toList a.tree b.tree
  | .conditional condition a b => .conditional condition.tree a.tree b.tree
  | .word space offset =>
    .element (.field (.name space.name.toList) "words".toList)
      (.binary ['>', '>'] offset.tree (.number "2u".toList))

def argumentTrees : List Expr → List Tree
  | [] => []
  | e :: rest => e.tree :: argumentTrees rest

end

end Glsl
end Microcode
