/-!
Bit layouts of instruction words.

A layout names the bits of a word from the highest down, one character for each bit: `0` and `1`
are fixed, every other character labels a field.  A field is read by joining the bits with its
label, the highest first, wherever they stand in the word.
-/

namespace Microcode

/-- An instruction word. -/
abbrev Word := BitVec 64

namespace Word

/-- The word with the bits at the given positions set and all others clear. -/
def ofBits (positions : List Nat) : Word :=
  positions.foldl (fun w p => w ||| BitVec.twoPow 64 p) 0#64

/-- The number whose binary digits are the bits at the given positions, the highest digit first. -/
def gather (w : Word) (positions : List Nat) : Nat :=
  positions.foldl (fun n p => 2 * n + (w.getLsbD p).toNat) 0

/-- Puts the low digits of `value` at the given positions, the highest digit first. -/
def scatter (positions : List Nat) (value : Nat) : Word :=
  ofBits ((positions.reverse.zipIdx.filter fun (_, k) => value.testBit k).map Prod.fst)

end Word

/-- Fixed bits of a layout: which they are, and what they have to be. -/
structure Pattern where
  mask : Word
  expected : Word
  deriving DecidableEq, Repr

def Pattern.admits (p : Pattern) (w : Word) : Bool := w &&& p.mask = p.expected

/-- A layout as it is written, the label of bit 63 first. -/
structure Layout where
  text : String
  deriving DecidableEq, Repr, Inhabited

namespace Layout

/-- Bits carrying a label, the highest first. -/
def positions (l : Layout) (label : Char) : List Nat :=
  (l.text.toList.zipIdx.filter fun (c, _) => c = label).map fun (_, i) => 63 - i

/-- Fixed bits, found among the first 64 bytes of the text.  Only plain text has one byte for each
character; for any other the labels of the fixed bits are counted in bytes. -/
def pattern (l : Layout) : Pattern :=
  let bytes := (l.text.toUTF8.toList.take 64).zipIdx
  let located (byte : UInt8) := (bytes.filter fun (b, _) => b = byte).map fun (_, i) => 63 - i
  let ones := Word.ofBits (located 0x31)
  ⟨Word.ofBits (located 0x30) ||| ones, ones⟩

/-- The field with a given label. -/
def field (l : Layout) (label : Char) (w : Word) : Nat := w.gather (l.positions label)

/-- The word with the fixed bits of the layout and the given fields. -/
def encode (l : Layout) (fields : List (Char × Nat)) : Word :=
  fields.foldl (fun w (label, value) => w ||| Word.scatter (l.positions label) value)
    l.pattern.expected

end Layout

/-- A word together with the layout through which it is read. -/
structure Fields where
  word : Word
  layout : Layout

namespace Fields

def get (f : Fields) (label : Char) : Nat := f.layout.field label f.word

def flag (f : Fields) (label : Char) : Bool := f.get label ≠ 0

end Fields
end Microcode
