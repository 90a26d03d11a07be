import Microcode.Bank
import Microcode.Element
import Microcode.Swizzle

/-!
Operands of instructions.
-/

namespace Microcode

/-- What is done to a value after it is read.  A pinned operand is an internal register named by
the encoding itself, and repeats do not advance it. -/
structure Modifiers where
  absolute : Bool := false
  negative : Bool := false
  pinned : Bool := false
  deriving DecidableEq, Repr, Inhabited

/-- A register, constant or immediate with the way it is read.  `slot` is the place the operand has
in the encoding: 0 to 2 for sources and 3 for the destination. -/
structure Operand where
  bank : Bank := .invalid
  num : Nat := 0
  modifiers : Modifiers := {}
  swizzle : Swizzle := Swizzle.identity
  element : Element := .f32
  slot : Nat := 0
  deriving DecidableEq, Repr, Inhabited

namespace Operand

def ofRegister (bank : Bank) (num : Nat) (element : Element) : Operand :=
  { bank := bank, num := num, element := element }

/-- Whether both operands read the same components of the same register under `mask`. -/
def readsSame (a b : Operand) (mask : Mask) : Bool :=
  a.bank = b.bank && a.num = b.num && a.modifiers = b.modifiers &&
    (Mask.components mask).all fun i => a.swizzle.get i = b.swizzle.get i

def text (a : Operand) (mask : Mask) : String :=
  let letters := (Mask.components mask).map fun i => (a.swizzle.get i).letter
  let register := a.bank.name ++ toString a.num ++
    if mask = 0 then "" else "." ++ String.ofList letters
  (if a.modifiers.negative then "-" else "") ++
    if a.modifiers.absolute then "abs(" ++ register ++ ")" else register

/-- Element in which the operand's register stores its data. -/
def storage (a : Operand) : Element :=
  if a.bank = .internal then a.element.promoted else a.element

end Operand
end Microcode
