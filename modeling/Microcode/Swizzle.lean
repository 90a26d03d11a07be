import Microcode.Numeric.Binary32
import Microcode.Quad

/-!
Swizzles and write masks.
-/

namespace Microcode

/-- What one position of a swizzle selects: a storage component, a literal, or nothing. -/
inductive Channel where
  | x
  | y
  | z
  | w
  | zero
  | one
  | two
  | half
  | undefined
  deriving DecidableEq, Repr, Inhabited

namespace Channel

/-- Index of the storage component the channel reads. -/
def storage? : Channel → Option Nat
  | x => some 0
  | y => some 1
  | z => some 2
  | w => some 3
  | _ => none

/-- The literal the channel stands for, in binary32. -/
def literal? : Channel → Option Lane
  | zero => some 0#32
  | one => some 0x3f800000#32
  | two => some 0x40000000#32
  | half => some 0x3f000000#32
  | _ => none

/-- The literal, where what is undefined counts as zero. -/
def literal (c : Channel) : Lane := c.literal?.getD 0#32

/-- Channel with a given code; codes past the literals are undefined. -/
def ofCode : Nat → Channel
  | 0 => x
  | 1 => y
  | 2 => z
  | 3 => w
  | 4 => zero
  | 5 => one
  | 6 => two
  | 7 => half
  | _ => undefined

def letter : Channel → Char
  | x => 'x'
  | y => 'y'
  | z => 'z'
  | w => 'w'
  | zero => '0'
  | one => '1'
  | two => '2'
  | half => 'h'
  | undefined => '?'

end Channel

/-- Selection of four channels. -/
abbrev Swizzle := Quad Channel

namespace Swizzle

def identity : Swizzle := ⟨.x, .y, .z, .w⟩

/-- Whether the first `count` channels select the components in their places. -/
def isIdentity (s : Swizzle) (count : Nat) : Bool :=
  (s.toList.take count) == (identity.toList.take count)

/-- A selection of three channels; the fourth reads the first component. -/
def ofThree (a b c : Channel) : Swizzle := ⟨a, b, c, .x⟩

def text (s : Swizzle) : String := String.ofList (s.toList.map Channel.letter)

end Swizzle

/-- A set of components, bit `i` standing for component `i`.  Bits past the fourth select
nothing. -/
abbrev Mask := Nat

namespace Mask

/-- The selected components in ascending order. -/
def components (m : Mask) : List Nat := (List.range 4).filter fun i => m.testBit i

def count (m : Mask) : Nat := (components m).length

/-- The mask with its four bits moved one place up, the last bit coming round to the first. -/
def rotate (m : Mask) : Mask := ((m <<< 1) ||| (m >>> 3)) &&& 0b1111

end Mask
end Microcode
