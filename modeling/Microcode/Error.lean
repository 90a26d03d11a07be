import Microcode.Decode.Error
import Microcode.Instruction

/-!
Why a program cannot be recompiled.
-/

namespace Microcode

/-- Why an operand cannot be read. -/
inductive LoadFault where
  | emptyMask
  | constantIndex
  deriving DecidableEq, Repr

def LoadFault.message : LoadFault → String
  | emptyMask => "empty component mask"
  | constantIndex => "constant table index out of range"

/-- What the recompiler has no code for. -/
inductive Unsupported where
  | loadBank (bank : Bank)
  | storeBank (bank : Bank)
  | perLanePredicate
  | opcode (opcode : Opcode)
  | outsideDual (opcode : Opcode)
  | missingSource (opcode : Opcode) (index : Nat)
  | noArithmetic (opcode : Opcode)
  | incrementsMissing
  | notPack (opcode : Opcode)
  | literalMissing
  | memoryLayoutMissing
  | predicatedStore
  | testMissing (opcode : Opcode)
  | conditionalDual (opcode : Opcode)
  | rotation (opcode : Opcode) (amount : Nat)
  | blendMissing
  | colorSelector (selector : Nat)
  | alphaSelector (selector : Nat)
  | maskedBlendMissing
  | maskedSelector (selector : Nat)
  | threeSourceBlend
  deriving DecidableEq, Repr

def Unsupported.message : Unsupported → String
  | loadBank bank => "load from " ++ bank.name ++ " bank"
  | storeBank bank => "store to " ++ bank.name ++ " bank"
  | perLanePredicate => "Pn predicate"
  | opcode op => op.name
  | outsideDual op => op.name ++ " outside a dual-issue word"
  | missingSource op index => op.name ++ " is missing source " ++ toString index
  | noArithmetic op => op.name ++ " has no arithmetic lowering"
  | incrementsMissing => "SMLSI without increments"
  | notPack op => op.name ++ " is not a pack"
  | literalMissing => "LIMM without a value"
  | memoryLayoutMissing => "load/store without a layout"
  | predicatedStore => "predicated STR"
  | testMissing op => op.name ++ " without a test"
  | conditionalDual op => "predicated or repeated " ++ op.name ++ " in a dual-issue word"
  | rotation op amount => op.name ++ " with src2 rotation " ++ toString amount
  | blendMissing => "SOP2 without blend state"
  | colorSelector selector => "SOP2 color selector " ++ toString selector
  | alphaSelector selector => "SOP2 alpha selector " ++ toString selector
  | maskedBlendMissing => "SOP2M without blend state"
  | maskedSelector selector => "SOP2M selector " ++ toString selector
  | threeSourceBlend => "SOP3"

/-- What is wrong with the description of a program. -/
inductive MetadataFault where
  | inputComponents (location components : Nat)
  | literalOffset (offset : Nat)
  deriving DecidableEq, Repr

def MetadataFault.message : MetadataFault → String
  | inputComponents location components =>
    "input at location " ++ toString location ++ " has " ++ toString components ++ " components"
  | literalOffset offset => "literal offset " ++ toString offset ++ " is out of range"

/-- `overflow` says that register arithmetic left the 32-bit range in which it is done. -/
inductive Error where
  | decode (error : DecodeError)
  | unresolved (bank : Bank) (index : Nat)
  | load (operand : String) (fault : LoadFault)
  | unsupported (what : Unsupported)
  | metadata (fault : MetadataFault)
  | overflow
  deriving DecidableEq, Repr

def Error.message : Error → String
  | decode e => e.message
  | unresolved bank index =>
    "register " ++ bank.name ++ toString index ++ " has no backing storage"
  | load operand fault => "failed to load " ++ operand ++ ": " ++ fault.message
  | unsupported what => "unsupported: " ++ what.message
  | metadata fault => "invalid program metadata: " ++ fault.message
  | overflow => "register arithmetic out of range"

end Microcode
