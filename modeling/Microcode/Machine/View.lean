import Microcode.Machine.State

/-!
What a state shows by name.

A name stands for the first variable that was declared with it, and a name that starts with `@` for
a memory.
-/

namespace Microcode
namespace Machine

inductive Content where
  | lanes (lanes : List Lane)
  | bytes (bytes : List (BitVec 8))
  deriving DecidableEq, Repr, Inhabited

def Content.isZero : Content → Bool
  | lanes l => l.all (· = 0#32)
  | bytes b => b.all (· = 0#8)

/-- Indices of the variables that are the first of their name. -/
def Program.namedVariables (p : Program) : List Nat :=
  (List.range p.vars.size).filter fun i =>
    p.variableIndex? (p.vars.getD i default).name = some i

/-- Memories that are not empty. -/
def State.memories (s : State) : List (MemorySpace × List (BitVec 8)) :=
  (MemorySpace.all.map fun space => (space, (s.memory.bytes space).toList)).filter fun (_, b) =>
    !b.isEmpty

/-- Everything that has a name. -/
def State.contents (p : Program) (s : State) : List (String × Content) :=
  (p.namedVariables.map fun i =>
    ((p.vars.getD i default).name, .lanes (s.variableLanes p i))) ++
  s.memories.map fun (space, b) => ("@" ++ space.name, .bytes b)

/-- What differs after from what was before; what was not there before counts as zero. -/
def changes (before after : List (String × Content)) : List (String × Content) :=
  after.filter fun (name, content) =>
    match before.lookup name with
    | some old => old ≠ content
    | none => !content.isZero

/-- A fresh machine with its memories and variables filled; seeds that do not fit are left out and
reported. -/
def State.prepare (p : Program) (memory : List (MemorySpace × Array (BitVec 8)))
    (seeds : List (String × List Lane)) : State × List SeedError :=
  let start := State.initial p
  let filled := { start with
    memory := memory.foldl (fun m (space, bytes) => m.setBytes space bytes) {} }
  let (s, errors) := seeds.foldl
    (fun (s, errors) (name, lanes) =>
      match s.seed p name lanes with
      | .ok s => (s, errors)
      | .error e => (s, e :: errors))
    (filled, [])
  (s, errors.reverse)

end Machine
end Microcode
