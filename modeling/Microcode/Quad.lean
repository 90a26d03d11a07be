/-!
Four-component tuples.

A register group has four lanes, an operand selects four channels and a machine value holds four
words.  Reading past the last component gives the last component, which is what a vector access
with a clamped index does.
-/

namespace Microcode

structure Quad (α : Type) where
  x : α
  y : α
  z : α
  w : α
  deriving DecidableEq, Repr, Inhabited

namespace Quad

variable {α β : Type}

def replicate (a : α) : Quad α := ⟨a, a, a, a⟩

def ofFn (f : Nat → α) : Quad α := ⟨f 0, f 1, f 2, f 3⟩

/-- Component `i`; an index past the end reads the last component. -/
def get (q : Quad α) : Nat → α
  | 0 => q.x
  | 1 => q.y
  | 2 => q.z
  | _ => q.w

/-- Replaces component `i`; an index past the end replaces the last component. -/
def set (q : Quad α) (i : Nat) (a : α) : Quad α :=
  match i with
  | 0 => { q with x := a }
  | 1 => { q with y := a }
  | 2 => { q with z := a }
  | _ => { q with w := a }

def map (f : α → β) (q : Quad α) : Quad β := ⟨f q.x, f q.y, f q.z, f q.w⟩

def toList (q : Quad α) : List α := [q.x, q.y, q.z, q.w]

theorem get_ofFn (f : Nat → α) {i : Nat} (h : i < 4) : (ofFn f).get i = f i := by
  match i, h with
  | 0, _ | 1, _ | 2, _ | 3, _ => rfl

theorem get_replicate (a : α) (i : Nat) : (replicate a).get i = a := by
  match i with
  | 0 | 1 | 2 | _ + 3 => rfl

theorem get_map (f : α → β) (q : Quad α) (i : Nat) : (q.map f).get i = f (q.get i) := by
  match i with
  | 0 | 1 | 2 | _ + 3 => rfl

theorem get_set_self (q : Quad α) (i : Nat) (a : α) : (q.set i a).get i = a := by
  match i with
  | 0 | 1 | 2 | _ + 3 => rfl

theorem get_set_ne (q : Quad α) (a : α) {i j : Nat} (hi : i < 4) (hj : j < 4) (h : i ≠ j) :
    (q.set i a).get j = q.get j := by
  have hi' : i = 0 ∨ i = 1 ∨ i = 2 ∨ i = 3 := by omega
  have hj' : j = 0 ∨ j = 1 ∨ j = 2 ∨ j = 3 := by omega
  rcases hi' with rfl | rfl | rfl | rfl <;> rcases hj' with rfl | rfl | rfl | rfl <;>
    simp_all [set, get]

end Quad
end Microcode
