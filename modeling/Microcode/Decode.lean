import Microcode.Decode.Blend
import Microcode.Decode.Dual
import Microcode.Decode.Pack
import Microcode.Decode.Scalar
import Microcode.Decode.Test

/-!
Decoding of instruction words.
-/

namespace Microcode

namespace Decode

/-- Branches, kills and samples: only their predicate is read. -/
def control (opcode : Opcode) (predicate : Predicate) : Instruction :=
  { opcode := opcode, predicate := predicate }

def ofFamily (family : Family) (f : Fields) (secondary : Bool) : Except DecodeFault Instruction :=
  match family with
  | .vmov => move f secondary
  | .vmad => multiplyAddInternal f secondary
  | .vmad2 => multiplyAdd f secondary
  | .vnmad32 => twoSource f false secondary
  | .vnmad16 => twoSource f true secondary
  | .vpck => pack f secondary
  | .vcomp => complex f secondary
  | .vdp => dotProduct f secondary
  | .vdual => dual f secondary
  | .sop2 => .ok (blend f secondary)
  | .sop2m => .ok (maskedBlend f secondary)
  | .sop3 => .ok (control .sop3 (.ofShortCode (f.get 'p')))
  | .vtst => testPredicate f secondary
  | .vtstmsk => testMask f secondary
  | .vbw => bitwise f secondary
  | .limm => literal f secondary
  | .vldst => memory f secondary
  | .smlsi => .ok (increments f)
  | .phas => .ok { opcode := .phas }
  | .nop => .ok { opcode := .nop }
  | .spec => .ok { opcode := .spec }
  | .br => .ok (control .br (.ofCode (f.get 'p')))
  | .smp => .ok (control .smp (.ofCode (f.get 'p')))
  | .kill => .ok (control .kill (.ofShortCode (f.get 'p')))

end Decode

/-- Decodes a word of a primary or a secondary program. -/
def decode (w : Word) (secondary : Bool) : Except DecodeError Instruction :=
  match Family.ofWord? w with
  | none => .error ⟨w, .unmatched⟩
  | some family => (Decode.ofFamily family ⟨w, family.layout⟩ secondary).mapError (⟨w, ·⟩)

end Microcode
