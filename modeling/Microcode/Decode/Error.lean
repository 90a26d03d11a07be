import Microcode.Element
import Microcode.Hex
import Microcode.Word.Layout

/-!
Why a word cannot be decoded.
-/

namespace Microcode

inductive DecodeFault where
  | unmatched
  | moveKind
  | pack (dest source : Element)
  | complexElement
  | testOperation
  | signTest
  | testChannel (channel : Nat)
  | maskElement
  | maskWriteDisabled
  | bitwiseOperation (code : Nat)
  | memoryOperation (code : Nat)
  | memoryElement
  | firstOperation
  | secondOperation
  | firstSources
  | secondSources
  | specialRegister
  deriving DecidableEq, Repr

def DecodeFault.message : DecodeFault → String
  | unmatched => "instruction unmatched"
  | moveKind => "invalid move type"
  | pack dest source => "invalid pack VPCK" ++ dest.name ++ source.name
  | complexElement => "unknown complex-op data type"
  | testOperation => "unsupported test operation"
  | signTest => "invalid sign test"
  | testChannel channel => "unsupported test channel " ++ toString channel
  | maskElement => "invalid test mask type"
  | maskWriteDisabled => "write-disabled mask tests are unsupported"
  | bitwiseOperation code => "invalid bitwise op 0b" ++ paddedDigits 2 3 code
  | memoryOperation code => "unsupported load/store op " ++ toString code
  | memoryElement => "invalid load/store data type"
  | firstOperation => "invalid dual op1"
  | secondOperation => "invalid dual op2"
  | firstSources => "missing dual op1 source layout"
  | secondSources => "missing dual op2 source layout"
  | specialRegister => "special registers are unsupported"

/-- A fault with the word that has it. -/
structure DecodeError where
  word : Word
  fault : DecodeFault
  deriving DecidableEq, Repr

def DecodeError.message (e : DecodeError) : String :=
  "USSE decode error for word 0x" ++ hexText 16 e.word.toNat ++ ": " ++ e.fault.message

end Microcode
