import Microcode.Code.Operator

/-!
Listings of emitted code.

A listing records every request of the front end in order.  It is what the machine executes and
what the writers turn into text or words: a value is known by the number of values defined before
it, a variable by the number of variables declared before it, and a function by the number of
functions begun before it.

Targets agree on the shape of every well-formed operation.  They differ on three ill-formed ones,
and a listing is made for one target so that the front end sees the shape its target will see.
-/

namespace Microcode

structure Value where
  index : Nat
  deriving DecidableEq, Repr, Inhabited

/-- A variable, or an element of it: the last index of the path counts from the start of the
array, whatever indices come before it. -/
structure Place where
  variableIndex : Nat
  path : List Nat := []
  deriving DecidableEq, Repr, Inhabited

structure Function where
  index : Nat
  deriving DecidableEq, Repr, Inhabited

/-- Operations that define a value. -/
inductive Op where
  | constant (value : Constant)
  | construct (parts : List Value)
  | load (place : Place)
  | extract (value : Value) (index : Nat)
  | insert (value part : Value) (index : Nat)
  | shuffle (a b : Value) (indices : List Nat)
  | binary (op : BinaryOp) (a b : Value)
  | unary (op : UnaryOp) (a : Value)
  | compare (op : CompareOp) (a b : Value)
  | select (condition a b : Value)
  | builtin (function : Builtin) (args : List Value)
  | convert (conversion : Conversion) (value : Value) (scalar : Scalar)
  | helper (helper : Helper) (arg : Value)
  | fetch (space : MemorySpace) (offset : Value)
  deriving DecidableEq, Repr, Inhabited

inductive Entry where
  | define (shape : Shape) (op : Op)
  /-- An operation whose result is there already: a component of a scalar, or a single part. -/
  | reuse (op : Op) (value : Value)
  | declare (declared : Variable)
  | element (place : Place) (index : Nat)
  | store (place : Place) (value : Value)
  | storeMemory (space : MemorySpace) (offset value : Value)
  | beginFunction (name : String)
  | endFunction
  | beginEntry
  | call (function : Function)
  deriving DecidableEq, Repr, Inhabited

/-- Who reads the listing. -/
inductive Target where
  | machine
  | glsl
  | spirv
  deriving DecidableEq, Repr, Inhabited

structure Listing where
  target : Target
  entries : Array Entry := #[]
  shapes : Array Shape := #[]
  vars : Array Variable := #[]
  functions : Array String := #[]
  deriving DecidableEq, Repr, Inhabited

namespace Listing

def shapeOf (l : Listing) (v : Value) : Shape := l.shapes.getD v.index Shape.f32

def countOf (l : Listing) (v : Value) : Nat := (l.shapeOf v).count

def scalarOf (l : Listing) (v : Value) : Scalar := (l.shapeOf v).scalar

def variableAt (l : Listing) (p : Place) : Variable := l.vars.getD p.variableIndex default

/-- Scalar of the first value, with as many components as the widest one has. -/
def widest (l : Listing) (values : List Value) : Shape :=
  let counts := values.map l.countOf
  ⟨(values.head?.map l.scalarOf).getD .f32, (counts.max?).getD 1⟩

/-- Components of a value joined from `total` components: the machine keeps four. -/
def constructCount (target : Target) (total : Nat) : Nat :=
  match target with
  | .machine => min 4 total
  | .glsl | .spirv => total

/-- A shuffle has the scalar of its first operand; a single component picked from the second
operand keeps its own scalar in SPIR-V, where it is an extraction. -/
def shuffleShape (l : Listing) (a b : Value) (indices : List Nat) : Shape :=
  match l.target, indices with
  | .spirv, [i] => ⟨if i < l.countOf a then l.scalarOf a else l.scalarOf b, 1⟩
  | _, _ => ⟨l.scalarOf a, indices.length⟩

/-- In GLSL the condition of a selection takes part in its width. -/
def selectShape (l : Listing) (condition a b : Value) : Shape :=
  match l.target with
  | .glsl => ⟨l.scalarOf a, max (max (l.countOf a) (l.countOf b)) (l.countOf condition)⟩
  | .machine | .spirv => l.widest [a, b]

def opShape (l : Listing) : Op → Shape
  | .constant c => ⟨c.scalar, 1⟩
  | .construct parts =>
    ⟨(parts.head?.map l.scalarOf).getD .f32,
      constructCount l.target (parts.foldr (fun v n => l.countOf v + n) 0)⟩
  | .load place => (l.variableAt place).shape
  | .extract v _ => ⟨l.scalarOf v, 1⟩
  | .insert v _ _ => l.shapeOf v
  | .shuffle a b indices => l.shuffleShape a b indices
  | .binary _ a b => l.widest [a, b]
  | .unary _ a => l.shapeOf a
  | .compare _ a b => ⟨.bool, (l.widest [a, b]).count⟩
  | .select condition a b => l.selectShape condition a b
  | .builtin .dot _ => Shape.f32
  | .builtin _ args => l.widest args
  | .convert _ v scalar => ⟨scalar, l.countOf v⟩
  | .helper h _ => h.shape
  | .fetch _ _ => Shape.f32

def push (l : Listing) (e : Entry) : Listing := { l with entries := l.entries.push e }

/-- Defines the next value. -/
def define (l : Listing) (op : Op) : Value × Listing :=
  let shape := l.opShape op
  (⟨l.shapes.size⟩,
    { l with entries := l.entries.push (.define shape op), shapes := l.shapes.push shape })

def declare (l : Listing) (v : Variable) : Place × Listing :=
  ({ variableIndex := l.vars.size },
    { l with entries := l.entries.push (.declare v), vars := l.vars.push v })

/-- Element of an array. -/
def element (l : Listing) (p : Place) (index : Nat) : Place × Listing :=
  ({ p with path := p.path ++ [index] }, l.push (.element p index))

def beginFunction (l : Listing) (name : String) : Function × Listing :=
  (⟨l.functions.size⟩,
    { l with entries := l.entries.push (.beginFunction name), functions := l.functions.push name })

end Listing
end Microcode
