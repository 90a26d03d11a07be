import Microcode.Error
import Microcode.RegisterFile

/-!
Emission of code.

The front end works on a workspace: the listing made so far, the register file and the increment
table.  An error ends a computation and leaves the workspace as it was when the error arose.
-/

namespace Microcode

/-- How an operand slot advances from one repeat to the next. -/
inductive Increment where
  | identity
  | stride (step : BitVec 8)
  | codes (packed : BitVec 8)
  deriving DecidableEq, Repr, Inhabited

/-- Lanes advanced at a repeat.  The rules reach sixteen repeats; past them the increment is the
number of the repeat.  Packed codes give the first four increments. -/
def Increment.amount (i : Increment) (iteration : Nat) : Int :=
  match i with
  | .identity => iteration
  | .stride step => if iteration < 17 then iteration * step.toInt else iteration
  | .codes packed =>
    if iteration < 4 then (packed.toNat >>> (2 * iteration) % 4 : Nat) else iteration

/-- A register file, and the number of entries that the listing had when it came to be. -/
structure Moment where
  position : Nat
  registers : RegisterFile

structure Workspace where
  listing : Listing
  registers : RegisterFile := {}
  /-- Increments of the three sources and of the destination. -/
  increments : Quad Increment := .replicate .identity
  /-- The register files so far, the latest first. -/
  history : List Moment := []

/-- The workspace with another register file. -/
def Workspace.setRegisters (w : Workspace) (r : RegisterFile) : Workspace :=
  { w with registers := r, history := ⟨w.listing.entries.size, r⟩ :: w.history }

abbrev Emit := EStateM Error Workspace

namespace Emit

/-- A register number or lane count of 32 bits. -/
def word (n : Nat) : Emit Nat := if n < 0x100000000 then pure n else throw .overflow

/-- A signed offset of 32 bits. -/
def offset (n : Int) : Emit Int :=
  if -0x80000000 ≤ n ∧ n < 0x80000000 then pure n else throw .overflow

/-- The outcome of a computation, with the workspace it leaves. -/
def attempt {α : Type} (x : Emit α) : Emit (Except Error α) := fun w =>
  match x w with
  | .ok a w => .ok (.ok a) w
  | .error e w => .ok (.error e) w

def unsupported {α : Type} (what : Unsupported) : Emit α := throw (.unsupported what)

def onListing {α : Type} (f : Listing → α × Listing) : Emit α := fun w =>
  let (a, listing) := f w.listing
  .ok a { w with listing := listing }

def push (e : Entry) : Emit Unit := onListing fun l => ((), l.push e)

def shapeOf (v : Value) : Emit Shape := do return (← get).listing.shapeOf v

def countOf (v : Value) : Emit Nat := do return (← get).listing.countOf v

def scalarOf (v : Value) : Emit Scalar := do return (← get).listing.scalarOf v

def define (op : Op) : Emit Value := onListing (·.define op)

def constant (c : Constant) : Emit Value := define (.constant c)

/-- Answers an operation with a value that is there already. -/
def reuse (op : Op) (v : Value) : Emit Value := do
  push (.reuse op v)
  return v

/-- Joins the parts into one value; a single part is that value. -/
def construct (parts : List Value) : Emit Value :=
  match parts with
  | [only] => reuse (.construct [only]) only
  | _ => define (.construct parts)

/-- A value repeated `count` times. -/
def splat (v : Value) (count : Nat) : Emit Value :=
  if count ≤ 1 then pure v else construct (List.replicate count v)

def splatConstant (c : Constant) (count : Nat) : Emit Value := do splat (← constant c) count

def declare (v : Variable) : Emit Place := onListing (·.declare v)

def element (place : Place) (index : Nat) : Emit Place := onListing (·.element place index)

def load (place : Place) : Emit Value := define (.load place)

def store (place : Place) (v : Value) : Emit Unit := push (.store place v)

/-- A component; a scalar is its own component. -/
def extract (v : Value) (index : Nat) : Emit Value := do
  if (← shapeOf v).isScalar then reuse (.extract v index) v else define (.extract v index)

/-- Replaces a component; a scalar is replaced as a whole. -/
def insert (v part : Value) (index : Nat) : Emit Value := do
  if (← shapeOf v).isScalar then reuse (.insert v part index) part
  else define (.insert v part index)

/-- Picks components from the two values, the second continuing the first. -/
def shuffle (a b : Value) (indices : List Nat) : Emit Value := define (.shuffle a b indices)

def binary (op : BinaryOp) (a b : Value) : Emit Value := define (.binary op a b)

def unary (op : UnaryOp) (a : Value) : Emit Value := define (.unary op a)

def compare (op : CompareOp) (a b : Value) : Emit Value := define (.compare op a b)

def select (condition a b : Value) : Emit Value := define (.select condition a b)

def builtin (f : Builtin) (args : List Value) : Emit Value := define (.builtin f args)

def convert (conversion : Conversion) (v : Value) (scalar : Scalar) : Emit Value :=
  define (.convert conversion v scalar)

def helper (h : Helper) (v : Value) : Emit Value := define (.helper h v)

def fetchMemory (space : MemorySpace) (offset : Value) : Emit Value := define (.fetch space offset)

def storeMemory (space : MemorySpace) (offset v : Value) : Emit Unit :=
  push (.storeMemory space offset v)

def beginFunction (name : String) : Emit Function := onListing (·.beginFunction name)

def endFunction : Emit Unit := push .endFunction

def beginEntry : Emit Unit := push .beginEntry

def call (f : Function) : Emit Unit := push (.call f)

def getRegisters : Emit RegisterFile := do return (← get).registers

def setRegisters (r : RegisterFile) : Emit Unit := modify fun w => w.setRegisters r

end Emit
end Microcode
