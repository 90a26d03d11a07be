/-!
Maps with number keys, in ascending order of the keys.
-/

namespace Microcode

/-- Entries in ascending order of their keys, one for each key. -/
structure OrderedMap (α : Type) where
  entries : List (Nat × α) := []
  deriving Repr, Inhabited

namespace OrderedMap

variable {α : Type}

/-- Puts an entry into its place; an entry with the same key is replaced. -/
def insertList (key : Nat) (a : α) : List (Nat × α) → List (Nat × α)
  | [] => [(key, a)]
  | (k, b) :: rest =>
    if key < k then (key, a) :: (k, b) :: rest
    else if key = k then (key, a) :: rest
    else (k, b) :: insertList key a rest

def insert (m : OrderedMap α) (key : Nat) (a : α) : OrderedMap α := ⟨insertList key a m.entries⟩

/-- The last entry of a list whose key is at most `key`. -/
def floorList (key : Nat) : List (Nat × α) → Option (Nat × α)
  | [] => none
  | (k, a) :: rest => if k ≤ key then (floorList key rest).or (some (k, a)) else none

/-- The entry with the greatest key that is at most `key`. -/
def floor? (m : OrderedMap α) (key : Nat) : Option (Nat × α) := floorList key m.entries

def ofList (entries : List (Nat × α)) : OrderedMap α :=
  entries.foldl (fun m (k, a) => m.insert k a) {}

end OrderedMap
end Microcode
