import Microcode.Operand

/-!
Register fields: how a bank code and a register number name a register.
-/

namespace Microcode

/-- Bank of a destination field. -/
def Bank.ofDest (code : Nat) (extended : Bool) : Bank :=
  match code, extended with
  | 3, _ => .indexed1
  | 0, true => .secondaryAttribute
  | 1, true => .special
  | _, true => .index
  | 0, false => .temporary
  | 1, false => .output
  | _, false => .primaryAttribute

/-- Bank of a first-source field. -/
def Bank.ofFirstSource (code : Nat) (extended : Bool) : Bank :=
  match code, extended with
  | 0, true => .output
  | 1, true => .secondaryAttribute
  | 0, false => .temporary
  | 1, false => .primaryAttribute
  | _, _ => .invalid

/-- Bank of a second- or third-source field. -/
def Bank.ofSource (code : Nat) (extended : Bool) : Bank :=
  match code % 4, extended with
  | 0, true => .indexed1
  | 1, true => .special
  | 2, true => .immediate
  | _, true => .indexed2
  | 0, false => .temporary
  | 1, false => .output
  | 2, false => .primaryAttribute
  | _, false => .secondaryAttribute

/-- Rules for register numbers.  A doubled field counts pairs of lanes; `bits` is the width of the
number after doubling; the secondary program sees its own attribute file only. -/
structure RegisterField where
  doubled : Bool
  bits : Nat
  secondary : Bool
  deriving DecidableEq, Repr

namespace RegisterField

/-- Doubled fields count pairs, in eight bits, except where the number is no lane number. -/
def scale (f : RegisterField) (bank : Bank) (num : Nat) : Nat :=
  if f.doubled && bank ≠ .special && bank ≠ .immediate then 2 * num % 256 else num

/-- First number of the temporaries that stands for an internal register. -/
def internalStart (f : RegisterField) : Nat := 1 <<< f.bits - if f.doubled then 8 else 4

/-- The four registers at the top of the temporaries are the internal registers. -/
def aliasInternal (f : RegisterField) (bank : Bank) (num : Nat) : Bank × Nat :=
  if bank = .temporary && f.internalStart ≤ num then
    let n := num - f.internalStart
    (.internal, if f.doubled then n / 2 else n)
  else (bank, num)

/-- The special bank holds the constants, and the global registers from number 64 on. -/
def splitSpecial (bank : Bank) (num : Nat) : Bank × Nat :=
  if bank = .special then
    if num.testBit 6 then (.globalConstant, num ^^^ 64) else (.constant, num)
  else (bank, num)

/-- Every bank but internal registers, constants and immediates is the secondary attribute file to
a secondary program. -/
def restrict (f : RegisterField) (bank : Bank) : Bank :=
  if f.secondary && bank ≠ .internal && bank ≠ .constant && bank ≠ .immediate then
    .secondaryAttribute
  else bank

def operand (f : RegisterField) (bank : Bank) (num slot : Nat) : Operand :=
  let (bank, num) := f.aliasInternal bank (f.scale bank num)
  let (bank, num) := splitSpecial bank num
  { bank := f.restrict bank, num := num, slot := slot }

def dest (f : RegisterField) (num code : Nat) (extended : Bool) : Operand :=
  f.operand (.ofDest code extended) num 3

def src0 (f : RegisterField) (num code : Nat) (extended : Bool) : Operand :=
  f.operand (.ofFirstSource code extended) num 0

def source (f : RegisterField) (num code : Nat) (extended : Bool) (slot : Nat) : Operand :=
  f.operand (.ofSource code extended) num slot

end RegisterField

/-- An internal register named directly by a field. -/
def Operand.ofInternal (num slot : Nat) (element : Element) : Operand :=
  { bank := .internal, num := num, modifiers := { pinned := true }, element := element,
    slot := slot }

/-- Components written by a multiply-add.  Lanes hold two halves, so a half-precision write to a
register covers both halves of each selected lane; a full-precision write has two lanes. -/
def writeMask (bank : Bank) (mask : Mask) (half : Bool) : Mask :=
  if bank = .internal || (half && !bank.isRegister) then mask
  else if half then
    (if mask.testBit 0 then 0b0011 else 0) ||| (if mask.testBit 2 then 0b1100 else 0)
  else mask &&& 0b11

/-- Modifiers of a two-bit field. -/
def Modifiers.ofCode (n : Nat) : Modifiers := { negative := n.testBit 0, absolute := n.testBit 1 }

end Microcode
