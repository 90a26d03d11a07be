import Microcode.Decode
import Microcode.Lowering.Bitwise
import Microcode.Lowering.Blend
import Microcode.Lowering.Dual
import Microcode.Lowering.Memory
import Microcode.Lowering.Move
import Microcode.Lowering.Pack
import Microcode.Lowering.Test

/-!
Code for instructions and for streams of words.
-/

namespace Microcode

open Lowering Emit

/-- Emits the code of one instruction. -/
def lower (ctx : Context) (i : Instruction) : Emit Unit :=
  match i.detail with
  | .dual second => dual ctx i.toOperation second
  | _ =>
    match i.opcode with
    | .vmov | .vrcp | .vrsq | .vlog | .vexp => arithmetic ctx i [i.src1]
    | .vmad | .vf16mad => arithmetic ctx i [i.src0, i.src1, i.src2]
    | .vmul | .vadd | .vfrc | .vdsx | .vdsy | .vmin | .vmax | .vdp
    | .vf16mul | .vf16add | .vf16frc | .vf16dsx | .vf16dsy | .vf16min | .vf16max | .vf16dp =>
      arithmetic ctx i [i.src1, i.src2]
    | .vssq | .fmad | .fadd | .fmul | .fsubflr | .frsq | .frcp | .fexp | .flog =>
      unsupported (.outsideDual i.opcode)
    | .vmovc | .vmovcu8 => conditionalMove ctx i
    | .vpck dest source => pack ctx i dest source
    | .and | .or | .xor | .shl | .rol | .shr | .asr => bitwise ctx i
    | .sop2 => blend ctx i
    | .sop2m => maskedBlend ctx i
    | .sop3 => unsupported .threeSourceBlend
    | .vtst => test ctx i
    | .vtstmsk => testMask ctx i
    | .ldr | .str => transfer ctx i
    | .limm => literal ctx i
    | .smlsi =>
      match i.detail with
      | .increments modes steps _ => setIncrements modes steps
      | _ => unsupported .incrementsMissing
    | .nop | .phas | .spec => pure ()
    | .smp | .kill | .br => unsupported (.opcode i.opcode)

/-- Decodes and lowers words up to the one that ends the stream. -/
def lowerWords (ctx : Context) (secondary : Bool) : List Word → Emit Unit
  | [] => pure ()
  | w :: rest => do
    match decode w secondary with
    | .error e => throw (.decode e)
    | .ok i =>
      lower ctx i
      if i.isLast then pure () else lowerWords ctx secondary rest

/-- A stream starts with the increment table in its first state. -/
def lowerStream (ctx : Context) (words : List Word) (secondary : Bool) : Emit Unit := do
  modify fun w => { w with increments := .replicate .identity }
  lowerWords ctx secondary words

end Microcode
