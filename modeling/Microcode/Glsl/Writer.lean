import Microcode.Glsl.Module

/-!
GLSL modules of listings.

A value is a literal, a component of a temporary or a temporary of its own, so that the text is a
sequence of assignments.  Vectors that are too short for an operation are first widened.
-/

namespace Microcode
namespace Glsl

/-- A value as it is written where it is used. -/
structure Term where
  expr : Expr
  shape : Shape
  deriving Repr, Inhabited

/-- A module in the making.  Statements go to the open function, or to the entry point when none is
open. -/
structure Draft where
  stage : Stage
  module : Module := {}
  opened : Option Function := none
  temporaries : Nat := 0
  terms : Array Term := #[]
  vars : Array Variable := #[]
  names : Array String := #[]
  deriving Inhabited

abbrev Draw := StateM Draft

def emit (s : Statement) : Draw Unit := modify fun d =>
  match d.opened with
  | some f => { d with opened := some { f with body := f.body.push s } }
  | none =>
    let entry := { d.module.entry with body := d.module.entry.body.push s }
    { d with module := { d.module with entry := entry } }

/-- Declares the next temporary. -/
def bind (shape : Shape) (value : Expr) : Draw Term := do
  let index := (← get).temporaries
  modify fun d => { d with temporaries := index + 1 }
  emit (.temporary shape index value)
  return ⟨.temporary index, shape⟩

def declare (declaration : Declaration) : Draw Unit := modify fun d =>
  { d with module := { d.module with declarations := d.module.declarations.push declaration } }

def term (v : Value) : Draw Term := do return (← get).terms.getD v.index default

def setTerm (t : Term) : Draw Unit := modify fun d => { d with terms := d.terms.push t }

def declaredAt (p : Place) : Draw Variable := do
  return (← get).vars.getD p.variableIndex default

/-- A term with at least `count` components. -/
def widen (t : Term) (count : Nat) : Draw Term := do
  if count ≤ t.shape.count then return t
  let shape : Shape := ⟨t.shape.scalar, count⟩
  if t.shape.isScalar then bind shape (.call (typeName shape) [t.expr])
  else bind shape (.swizzle t.expr ((List.range count).map (min · (t.shape.count - 1))))

def widenPair (a b : Term) : Draw (Term × Term) := do
  let count := max a.shape.count b.shape.count
  let a ← widen a count
  let b ← widen b count
  return (a, b)

def Term.component (t : Term) (lane : Nat) : Expr :=
  if t.shape.isScalar then t.expr else .component t.expr lane

def withScalar (s : Shape) (scalar : Scalar) : Shape := ⟨scalar, s.count⟩

/-- Integer and float operators, and all bitwise ones. -/
def symbolOf : BinaryOp → BinarySymbol
  | .add => .plus
  | .sub => .minus
  | .mul => .times
  | .div => .divide
  | .and => .and
  | .or => .or
  | .xor => .xor
  | .shl => .shiftLeft
  | .shr | .asr | .min | .max => .shiftRight

/-- Truth values are combined as numbers. -/
def truthSymbol : BinaryOp → BinarySymbol
  | .and | .mul => .and
  | .or | .add => .or
  | _ => .xor

/-- A shift to the right of numbers that have the other signedness. -/
def shiftAs (shape : Shape) (scalar : Scalar) (x y : Expr) : Expr :=
  .call (typeName shape)
    [.binary .shiftRight (.call (typeName (withScalar shape scalar)) [x]) y]

/-- A binary operation on terms of one shape, other than the bitwise ones on floats. -/
def binaryExpr (op : BinaryOp) (shape : Shape) (x y : Expr) : Expr :=
  let number (e : Expr) := Expr.call (typeName (withScalar shape .u32)) [e]
  match op, shape.scalar with
  | .min, _ => .call "min" [x, y]
  | .max, _ => .call "max" [x, y]
  | op, .bool =>
    .call (typeName shape) [.binary (truthSymbol op) (number x) (number y)]
  | .shr, .i32 => shiftAs shape .u32 x y
  | .asr, .u32 => shiftAs shape .i32 x y
  | op, _ => .binary (symbolOf op) x y

def isBitwise : BinaryOp → Bool
  | .and | .or | .xor | .shl | .shr | .asr => true
  | _ => false

/-- Bitwise operations on floats are done on their bits. -/
def binary (op : BinaryOp) (a b : Term) : Draw Term := do
  let (a, b) ← widenPair a b
  let shape := a.shape
  if shape.scalar = .f32 && isBitwise op then
    let bits (e : Expr) := Expr.call "floatBitsToUint" [e]
    let word := withScalar shape .u32
    let t ← bind word (binaryExpr op word (bits a.expr) (bits b.expr))
    bind shape (.call "uintBitsToFloat" [t.expr])
  else bind shape (binaryExpr op shape a.expr b.expr)

/-- Negation of a truth value and the absolute value of what has no sign leave it as it is. -/
def unary (op : UnaryOp) (a : Term) : Draw Term := do
  match op, a.shape.scalar with
  | .neg, .bool | .abs, .u32 | .abs, .bool => return a
  | .neg, _ => bind a.shape (.unary .minus a.expr)
  | .abs, _ => bind a.shape (.call "abs" [a.expr])
  | .not, .bool =>
    bind a.shape (if a.shape.isScalar then .unary .not a.expr else .call "not" [a.expr])
  | .not, .f32 =>
    bind a.shape (.call "uintBitsToFloat"
      [.unary .complement (.call "floatBitsToUint" [a.expr])])
  | .not, _ => bind a.shape (.unary .complement a.expr)

def compareSymbol : CompareOp → BinarySymbol
  | .eq => .equal
  | .ne => .notEqual
  | .lt => .less
  | .le => .lessOrEqual
  | .gt => .greater
  | .ge => .greaterOrEqual

def compareName : CompareOp → String
  | .eq => "equal"
  | .ne => "notEqual"
  | .lt => "lessThan"
  | .le => "lessThanEqual"
  | .gt => "greaterThan"
  | .ge => "greaterThanEqual"

def compare (op : CompareOp) (a b : Term) : Draw Term := do
  let (a, b) ← widenPair a b
  bind (withScalar a.shape .bool)
    (if a.shape.isScalar then .binary (compareSymbol op) a.expr b.expr
      else .call (compareName op) [a.expr, b.expr])

/-- A scalar condition decides for all components. -/
def select (condition a b : Term) : Draw Term := do
  let count := max (max a.shape.count b.shape.count) condition.shape.count
  let a ← widen a count
  let b ← widen b count
  bind a.shape
    (if condition.shape.isScalar then .conditional condition.expr a.expr b.expr
      else .call "mix" [b.expr, a.expr, condition.expr])

def builtinFunction : Builtin → String
  | .floor => "floor"
  | .fract => "fract"
  | .round => "round"
  | .sign => "sign"
  | .inverseSqrt => "inversesqrt"
  | .exp2 => "exp2"
  | .log2 => "log2"
  | .step => "step"
  | .mix => "mix"
  | .clamp => "clamp"
  | .dot => "dot"
  | .dfdx => "dFdx"
  | .dfdy => "dFdy"

def builtin (f : Builtin) (args : List Term) : Draw Term := do
  let count := ((args.map fun a => a.shape.count).max?).getD 1
  let wide ← args.mapM (widen · count)
  let call := Expr.call (builtinFunction f) (wide.map Term.expr)
  match f, wide with
  | .dot, a :: b :: _ =>
    bind Shape.f32 (if count = 1 then .binary .times a.expr b.expr else call)
  | .dot, _ => bind Shape.f32 call
  | _, _ => bind ((wide.head?.map Term.shape).getD Shape.f32) call

/-- Function that keeps the bits of a number. -/
def bitcastName (source target : Scalar) (shape : Shape) : String :=
  match source, target with
  | .f32, .i32 => "floatBitsToInt"
  | .f32, .u32 => "floatBitsToUint"
  | .i32, .f32 => "intBitsToFloat"
  | .u32, .f32 => "uintBitsToFloat"
  | _, _ => typeName shape

def convert (conversion : Conversion) (t : Term) (scalar : Scalar) : Draw Term := do
  let source := t.shape.scalar
  if source = scalar then return t
  let shape := withScalar t.shape scalar
  let name :=
    if conversion = .bitcast && source ≠ .bool && scalar ≠ .bool then
      bitcastName source scalar shape
    else typeName shape
  bind shape (.call name [t.expr])

/-- Picks from one vector are a swizzle. -/
def shuffle (a b : Term) (indices : List Nat) : Draw Term := do
  let left := a.shape.count
  let pick (i : Nat) := if i < left then a.component i else b.component (i - left)
  let shape : Shape := ⟨a.shape.scalar, indices.length⟩
  match indices with
  | [i] => return ⟨pick i, shape⟩
  | _ =>
    if !a.shape.isScalar && indices.all (· < left) then bind shape (.swizzle a.expr indices)
    else bind shape (.call (typeName shape) (indices.map pick))

/-- Calls a helper, which is defined when it is first called. -/
def callHelper (h : Helper) (t : Term) : Draw Term := do
  modify fun d =>
    if d.module.helpers.contains h then d
    else { d with module := { d.module with helpers := d.module.helpers.push h } }
  bind h.shape (.call h.name [t.expr])

/-- A word of a memory, whose block is declared when it is first used. -/
def memoryWord (space : MemorySpace) (offset : Term) : Draw Expr := do
  if !(← get).module.declarations.contains (.memoryBlock space) then declare (.memoryBlock space)
  return .word space
    (if offset.shape.scalar = .u32 then offset.expr else .call "uint" [offset.expr])

def define (shape : Shape) (op : Op) : Draw Term := do
  match op with
  | .constant c => return ⟨.literal c, shape⟩
  | .construct parts =>
    let parts ← parts.mapM term
    bind shape (.call (typeName shape) (parts.map Term.expr))
  | .load place =>
    let v ← declaredAt place
    bind v.shape (.location v place)
  | .extract v index => return ⟨(← term v).component index, shape⟩
  | .insert v part index =>
    let copy ← bind shape (← term v).expr
    emit (.assign (copy.component index) (← term part).expr)
    return copy
  | .shuffle a b indices => shuffle (← term a) (← term b) indices
  | .binary op a b => binary op (← term a) (← term b)
  | .unary op a => unary op (← term a)
  | .compare op a b => compare op (← term a) (← term b)
  | .select c a b => select (← term c) (← term a) (← term b)
  | .builtin f args => builtin f (← args.mapM term)
  | .convert conversion v scalar => convert conversion (← term v) scalar
  | .helper h v => callHelper h (← term v)
  | .fetch space offset =>
    let word ← memoryWord space (← term offset)
    bind Shape.f32 (.call "uintBitsToFloat" [word])

/-- Inputs that are no floats are not interpolated. -/
def declareVariable (stage : Stage) (v : Variable) : Draw Unit :=
  match v.storage with
  | .hidden => declare (.hidden v.shape v.name)
  | .input location =>
    declare (.input location (v.shape.scalar ≠ .f32 && stage = .fragment) v.shape v.name)
  | .output location => declare (.output location v.shape v.name)
  | .builtinInput _ | .builtinOutput _ => pure ()
  | .uniformArray binding _ => declare (.uniformBlock binding v.length v.shape v.name)

def closeFunction : Draw Unit := modify fun d =>
  match d.opened with
  | some f =>
    { d with opened := none, module := { d.module with functions := d.module.functions.push f } }
  | none => d

def write : Entry → Draw Unit
  | .define shape op => do setTerm (← define shape op)
  | .declare v => do
    declareVariable (← get).stage v
    modify fun d => { d with vars := d.vars.push v }
  | .element _ _ | .reuse _ _ => pure ()
  | .store place v => do
    emit (.assign (.location (← declaredAt place) place) (← term v).expr)
  | .storeMemory space offset v => do
    let word ← memoryWord space (← term offset)
    let t ← term v
    let bits := if t.shape.scalar = .f32 then "floatBitsToUint" else "uint"
    emit (.assign word (.call bits [t.expr]))
  | .beginFunction name => do
    closeFunction
    modify fun d => { d with opened := some { name := name }, names := d.names.push name }
  | .endFunction | .beginEntry => closeFunction
  | .call f => do emit (.call ((← get).names.getD f.index ""))

/-- The module of a listing. -/
def Module.ofListing (stage : Stage) (l : Listing) : Module :=
  let draw : Draw Unit := do
    l.entries.forM write
    closeFunction
  (draw.run { stage := stage }).2.module

end Glsl

/-- A listing as GLSL text. -/
def Listing.glsl (l : Listing) (stage : Stage) : String := (Glsl.Module.ofListing stage l).text

end Microcode
