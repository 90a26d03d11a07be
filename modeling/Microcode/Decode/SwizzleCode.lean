import Microcode.Swizzle

/-!
Swizzle codes.

Four-bit codes index tables of useful selections, which differ between scalar, three-component and
four-component operands and between single- and dual-issue words.
-/

namespace Microcode
namespace Swizzle

open Channel

def undefined4 : Swizzle := .replicate undefined

/-- Selection of one channel code for each component. -/
def ofCodes (a b c d : Nat) : Swizzle := ⟨.ofCode a, .ofCode b, .ofCode c, .ofCode d⟩

/-- Four three-bit channel codes, the first in the lowest bits. -/
def ofPacked (n : Nat) : Swizzle := .ofFn fun i => .ofCode (n >>> (3 * i) % 8)

def scalarTable : List Swizzle :=
  [.replicate x, .replicate y, .replicate z, .replicate w,
    .replicate zero, .replicate one, .replicate two, .replicate half]

def vector3Table : List Swizzle :=
  [ofThree x x x, ofThree y y y, ofThree z z z, ofThree w w w,
    ofThree x y z, ofThree y z w, ofThree x x y, ofThree x y x,
    ofThree y y x, ofThree y y z, ofThree z x y, ofThree x z y,
    ofThree y z x, ofThree z y x, ofThree z z y, ofThree x y one]

def extendedVector3Table : List Swizzle :=
  [ofThree x y y, ofThree y x y, ofThree x x z, ofThree y x x,
    ofThree x y zero, ofThree x one zero, ofThree zero zero zero, ofThree one one one,
    ofThree half half half, ofThree two two two, ofThree x zero zero]

def vector4Table : List Swizzle :=
  [⟨x, x, x, x⟩, ⟨y, y, y, y⟩, ⟨z, z, z, z⟩, ⟨w, w, w, w⟩,
    ⟨x, y, z, w⟩, ⟨y, z, w, w⟩, ⟨x, y, z, z⟩, ⟨x, x, y, z⟩,
    ⟨x, y, x, y⟩, ⟨x, y, w, z⟩, ⟨z, x, y, w⟩, ⟨z, w, z, w⟩,
    ⟨y, z, x, z⟩, ⟨x, x, y, y⟩, ⟨x, z, w, w⟩, ⟨x, y, z, one⟩]

def extendedVector4Table : List Swizzle :=
  [⟨y, z, x, w⟩, ⟨z, w, x, y⟩, ⟨x, z, w, y⟩, ⟨y, y, w, w⟩,
    ⟨w, y, z, w⟩, ⟨w, z, w, z⟩, ⟨x, y, z, x⟩, ⟨z, z, w, w⟩,
    ⟨x, w, z, x⟩, ⟨y, y, y, x⟩, ⟨y, y, y, z⟩, ⟨x, z, y, w⟩,
    ⟨x, x, x, y⟩, ⟨z, y, x, w⟩, ⟨y, y, z, z⟩, ⟨z, z, z, y⟩]

/-- The width of an operand decides which tables its codes index. -/
inductive Width where
  | scalar
  | vector3
  | vector4
  deriving DecidableEq, Repr

def undefined3 : Swizzle := ofThree undefined undefined undefined

/-- Selection of a four-bit code in a single-issue word. -/
def ofTable (code : Nat) (extended : Bool) (width : Width) : Swizzle :=
  match width, extended with
  | .scalar, false => scalarTable.getD (code % 16) undefined4
  | .scalar, true => undefined4
  | .vector3, false => vector3Table.getD (code % 16) undefined3
  | .vector3, true => extendedVector3Table.getD (code % 16) undefined3
  | .vector4, false => vector4Table.getD (code % 16) undefined4
  | .vector4, true => extendedVector4Table.getD (code % 16) undefined4

def dualVector3Table : List Swizzle :=
  [ofThree x x x, ofThree y y y, ofThree z z z, ofThree w w w,
    ofThree x y z, ofThree y z w, ofThree x x y, ofThree x y x,
    ofThree y y x, ofThree y y z, ofThree z x y, ofThree x z y,
    ofThree zero zero zero, ofThree half half half, ofThree one one one, ofThree two two two]

def extendedDualVector3Table : List Swizzle :=
  [ofThree x y y, ofThree y x y, ofThree x x z, ofThree y x x,
    ofThree x y zero, ofThree x one zero, ofThree x z y, ofThree y z x,
    ofThree z y x, ofThree z z y, ofThree x y one]

def dualVector4Table : List Swizzle :=
  [⟨x, x, x, x⟩, ⟨y, y, y, y⟩, ⟨z, z, z, z⟩, ⟨w, w, w, w⟩,
    ⟨x, y, z, w⟩, ⟨y, z, w, w⟩, ⟨x, y, z, z⟩, ⟨x, x, y, z⟩,
    ⟨x, y, x, y⟩, ⟨x, y, w, z⟩, ⟨z, x, y, w⟩, ⟨z, w, z, w⟩,
    .replicate zero, .replicate half, .replicate one, .replicate two]

def extendedDualVector4Table : List Swizzle :=
  [⟨y, z, x, w⟩, ⟨z, w, x, y⟩, ⟨x, z, w, y⟩, ⟨y, y, w, w⟩,
    ⟨w, y, z, w⟩, ⟨w, z, w, z⟩, ⟨x, y, z, x⟩, ⟨z, z, w, w⟩,
    ⟨x, w, z, x⟩, ⟨y, y, y, x⟩, ⟨y, y, y, z⟩, ⟨z, w, z, w⟩,
    ⟨y, z, x, z⟩, ⟨x, x, y, y⟩, ⟨x, z, w, w⟩, ⟨x, y, z, one⟩]

/-- Selection of a four-bit code in a dual-issue word. -/
def ofDualTable (code : Nat) (extended : Bool) (fourWide : Bool) : Swizzle :=
  match fourWide, extended with
  | true, false => dualVector4Table.getD (code % 16) undefined4
  | true, true => extendedDualVector4Table.getD (code % 16) undefined4
  | false, false => dualVector3Table.getD (code % 16) undefined3
  | false, true => extendedDualVector3Table.getD (code % 16) undefined3

/-- Selections of the first source of a multiply-add on three registers. -/
def multiplyTable0 : List Swizzle :=
  [⟨x, x, x, x⟩, ⟨y, y, y, y⟩, ⟨z, z, z, z⟩, ⟨w, w, w, w⟩,
    ⟨x, y, z, w⟩, ⟨y, z, x, w⟩, ⟨x, y, w, w⟩, ⟨z, w, x, y⟩]

/-- Selections of its second source. -/
def multiplyTable1 : List Swizzle :=
  [⟨x, x, x, x⟩, ⟨y, y, y, y⟩, ⟨z, z, z, z⟩, ⟨w, w, w, w⟩,
    ⟨x, y, z, w⟩, ⟨x, y, y, z⟩, ⟨y, y, w, w⟩, ⟨w, y, z, w⟩]

/-- Selections of its third source. -/
def multiplyTable2 : List Swizzle :=
  [⟨x, x, x, x⟩, ⟨y, y, y, y⟩, ⟨z, z, z, z⟩, ⟨w, w, w, w⟩,
    ⟨x, y, z, w⟩, ⟨x, z, w, w⟩, ⟨x, x, y, z⟩, ⟨x, y, z, z⟩]

end Swizzle
end Microcode
