import Microcode.Lowering.Arithmetic

/-!
Packs: conversions between element formats.
-/

namespace Microcode
namespace Lowering

open Emit

/-- A pack of four integers from narrow sources reads the first two selected elements in turn. -/
def packSource (dest source : Element) (mask : Mask) (op : Operand) : Operand :=
  if !dest.isFloat && mask = 0b1111 && source ≠ .f32 then
    { op with swizzle := ⟨op.swizzle.x, op.swizzle.y, op.swizzle.x, op.swizzle.y⟩ }
  else op

/-- Converts elements of `source` to elements of `dest`. -/
def convertElements (dest source : Element) (scale : Bool) (v : Value) : Emit Value := do
  match dest.isFloat, source.isFloat with
  | true, false => Access.toFloat v source scale
  | false, true => Access.ofFloat v dest scale
  | true, true => return v
  | false, false =>
    if (← scalarOf v) = dest.scalar then return v else convert .bitcast v dest.scalar

/-- The components that a pack converts: those of its first source, and then those of its second. -/
def packComponents (ctx : Context) (o : Operation) (src1 : Operand) (secondMask : Mask)
    (advances : Quad Int) : Emit Value := do
  let first ← Access.load ctx src1 o.sourceMask advances.y
  if secondMask = 0 then return first
  else construct [first, ← Access.load ctx o.src2 secondMask advances.z]

def pack (ctx : Context) (i : Instruction) (dest source : Element) : Emit Unit := do
  let (scale, secondMask) := match i.detail with
    | .pack scale secondMask => (scale, secondMask)
    | _ => (false, 0)
  let condition ← Access.condition i.predicate
  let src1 := packSource dest source i.destMask i.src1
  repeated i.toOperation fun _ advances => do
    let v ← packComponents ctx i.toOperation src1 secondMask advances
    let v ← convertElements dest source scale v
    Access.store ctx i.dest v i.destMask advances.w condition

end Lowering
end Microcode
