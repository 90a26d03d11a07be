import Microcode.Code.Listing

/-!
Executable programs.

A program is a listing sorted by function.  Function 0 is the entry point and takes everything that
is emitted outside a function.  Constants are no instructions: their values are there from the
start, whichever function mentions them.
-/

namespace Microcode
namespace Machine

inductive Instr where
  | define (value : Value) (shape : Shape) (op : Op)
  | store (place : Place) (value : Value)
  | storeMemory (space : MemorySpace) (offset value : Value)
  | call (function : Nat)
  deriving DecidableEq, Repr

structure Program where
  shapes : Array Shape := #[]
  constants : Array (Value × Lane) := #[]
  vars : Array Variable := #[]
  functions : Array (Array Instr) := #[#[]]
  current : Nat := 0
  deriving DecidableEq, Repr

namespace Program

def emit (p : Program) (i : Instr) : Program :=
  { p with functions := p.functions.modify p.current (·.push i) }

def add (p : Program) : Entry → Program
  | .define shape (.constant c) =>
    { p with
      shapes := p.shapes.push shape
      constants := p.constants.push (⟨p.shapes.size⟩, c.lane) }
  | .define shape op =>
    { p.emit (.define ⟨p.shapes.size⟩ shape op) with shapes := p.shapes.push shape }
  | .declare v => { p with vars := p.vars.push v }
  | .element _ _ | .reuse _ _ => p
  | .store place value => p.emit (.store place value)
  | .storeMemory space offset value => p.emit (.storeMemory space offset value)
  | .beginFunction _ => { p with functions := p.functions.push #[], current := p.functions.size }
  | .endFunction | .beginEntry => { p with current := 0 }
  | .call f => p.emit (.call (f.index + 1))

def ofListing (l : Listing) : Program := l.entries.foldl add {}

def shapeOf (p : Program) (v : Value) : Shape := p.shapes.getD v.index Shape.f32

def countOf (p : Program) (v : Value) : Nat := (p.shapeOf v).count

/-- The first variable of a name. -/
def variableIndex? (p : Program) (name : String) : Option Nat :=
  p.vars.findIdx? fun v => v.name = name

def findVariable? (p : Program) (name : String) : Option Variable :=
  p.vars.find? fun v => v.name = name

end Program
end Machine
end Microcode
