import Microcode.Lowering.Arithmetic

/-!
Dual-issue words.
-/

namespace Microcode
namespace Lowering

open Emit

def sourceCount : Opcode → Nat
  | .vmad | .fmad => 3
  | .vdp | .vmul | .vadd | .fadd | .fmul | .fsubflr => 2
  | _ => 1

/-- Sources of one of the two operations, and whether the first two are the same. -/
def loadDual (ctx : Context) (o : Operation) : Emit (List Value × Bool) := do
  let sources := [o.src0, o.src1, o.src2].take (sourceCount o.opcode)
  let values ← loadSources ctx sources o.sourceMask (.replicate 0)
  return (values, firstTwoSame sources o.sourceMask (.replicate 0))

/-- The two operations of a word read their sources before either writes. -/
def dual (ctx : Context) (first second : Operation) : Emit Unit := do
  [first, second].forM fun o => do
    if o.predicate ≠ .none || o.repeatCount ≠ 0 then unsupported (.conditionalDual o.opcode)
  let sources1 ← loadDual ctx first
  let sources2 ← loadDual ctx second
  let v1 ← compute ctx first.opcode sources1.1 sources1.2
  let v2 ← compute ctx second.opcode sources2.1 sources2.2
  Access.store ctx first.dest v1 first.destMask 0 none
  Access.store ctx second.dest v2 second.destMask 0 none

end Lowering
end Microcode
