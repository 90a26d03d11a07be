import Microcode.Bank
import Microcode.Code.Listing
import Microcode.OrderedMap
import Microcode.Quad

/-!
The register file: where each lane of each bank is stored.

Variables are bound to runs of lanes before any code is emitted.  After that only shadows are
added, the writable copies of attribute groups, and predicate registers, which are declared when
they are first used.
-/

namespace Microcode

/-- What is bound to a run of lanes: one vector, or an array of groups of four lanes. -/
inductive Binding where
  | vector (place : Place) (lanes : Nat)
  | array (place : Place) (length : Nat)
  deriving DecidableEq, Repr, Inhabited

def Binding.lanes : Binding → Nat
  | vector _ lanes => lanes
  | array _ length => length * 4

/-- A run of lanes held by one place, starting at lane `base` of its bank. -/
structure Register where
  place : Place
  lanes : Nat
  base : Nat
  deriving DecidableEq, Repr, Inhabited

/-- A lane of a register. -/
structure Resolved where
  register : Register
  offset : Nat
  deriving DecidableEq, Repr, Inhabited

structure RegisterFile where
  tables : Bank → OrderedMap Binding := fun _ => {}
  /-- Shadows by bank and first lane, the latest first. -/
  shadows : List ((Bank × Nat) × Register) := []
  predicates : Quad (Option Place) := .replicate none

namespace RegisterFile

def bind (r : RegisterFile) (bank : Bank) (base : Nat) (binding : Binding) : RegisterFile :=
  let table := (r.tables bank).insert base binding
  { r with tables := fun b => if b = bank then table else r.tables b }

/-- The binding that starts last at or before a lane. -/
def candidate? (r : RegisterFile) (bank : Bank) (lane : Nat) : Option (Nat × Binding) :=
  (r.tables bank).floor? lane

/-- The binding that covers a lane. -/
def find? (r : RegisterFile) (bank : Bank) (lane : Nat) : Option (Nat × Binding) :=
  (r.candidate? bank lane).filter fun (base, binding) => lane < base + binding.lanes

def isBound (r : RegisterFile) (bank : Bank) (lane : Nat) : Bool := (r.find? bank lane).isSome

def shadow? (r : RegisterFile) (bank : Bank) (group : Nat) : Option Register :=
  r.shadows.lookup (bank, group)

def addShadow (r : RegisterFile) (bank : Bank) (group : Nat) (place : Place) : RegisterFile :=
  { r with shadows := ((bank, group), ⟨place, 4, group⟩) :: r.shadows }

end RegisterFile
end Microcode
