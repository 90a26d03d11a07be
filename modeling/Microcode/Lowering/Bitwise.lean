import Microcode.Lowering.Arithmetic

/-!
Bitwise instructions and shifts, on single lanes.
-/

namespace Microcode
namespace Lowering

open Emit

/-- The second operand: an immediate, or a register that may be complemented. -/
def bitwiseOperand (ctx : Context) (o : Operation) (invert : Bool) (immediate? : Option Lane)
    (advance : Int) : Emit Value := do
  match immediate? with
  | some bits => constant (.u32 bits)
  | none =>
    let v ← Access.load ctx o.src2 0b0001 advance
    if invert then unary .not v else return v

def bitwise (ctx : Context) (i : Instruction) : Emit Unit := do
  let (invert, rotation, immediate?) := match i.detail with
    | .bitwise invert rotation immediate? => (invert, rotation, immediate?)
    | _ => (false, 0, none)
  if rotation ≠ 0 then unsupported (.rotation i.opcode rotation)
  let condition ← Access.condition i.predicate
  repeated i.toOperation fun _ advances => do
    let a ← Access.load ctx i.src1 0b0001 advances.y
    let b ← bitwiseOperand ctx i.toOperation invert immediate? advances.z
    let v ← compute ctx i.opcode [a, b] false
    Access.store ctx i.dest v 0b0001 advances.w condition

end Lowering
end Microcode
