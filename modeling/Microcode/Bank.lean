/-!
Register banks.
-/

namespace Microcode

/-- The banks an operand can name.  Only the first five hold lanes; constants, immediates and
predicates are read in their own way and the rest cannot be addressed. -/
inductive Bank where
  | temporary
  | primaryAttribute
  | output
  | secondaryAttribute
  | internal
  | special
  | globalConstant
  | constant
  | immediate
  | index
  | indexed1
  | indexed2
  | predicate
  | invalid
  deriving DecidableEq, Repr, Inhabited

namespace Bank

/-- Short name, as in a disassembly and in the names of variables. -/
def name : Bank → String
  | temporary => "r"
  | primaryAttribute => "pa"
  | output => "o"
  | secondaryAttribute => "sa"
  | internal => "i"
  | special => "spec"
  | globalConstant => "g"
  | constant => "c"
  | immediate => "#"
  | index => "idx"
  | indexed1 => "idx1"
  | indexed2 => "idx2"
  | predicate => "p"
  | invalid => "invalid"

/-- Banks that repeats advance through in steps of the lane multiplier. -/
def isRepeatable : Bank → Bool
  | temporary | primaryAttribute | output | secondaryAttribute | predicate => true
  | _ => false

/-- Banks made of 32-bit lanes. -/
def isRegister : Bank → Bool
  | temporary | primaryAttribute | output | secondaryAttribute | internal => true
  | _ => false

/-- Banks whose groups are copied to a shadow before they are written. -/
def isShadowed : Bank → Bool
  | primaryAttribute | secondaryAttribute => true
  | _ => false

end Bank
end Microcode
