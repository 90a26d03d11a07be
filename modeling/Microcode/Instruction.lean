import Microcode.Operand
import Microcode.Predicate

/-!
Decoded instructions.

An `Operation` is what every instruction has: an opcode, four operands, masks, predicate and
repetition.  An `Instruction` adds the details of its family; a dual-issue word carries its second
operation there.
-/

namespace Microcode

inductive Opcode where
  | vmov
  | vmovc
  | vmovcu8
  | vmad
  | vf16mad
  | vmul
  | vadd
  | vfrc
  | vdsx
  | vdsy
  | vmin
  | vmax
  | vdp
  | vf16mul
  | vf16add
  | vf16frc
  | vf16dsx
  | vf16dsy
  | vf16min
  | vf16max
  | vf16dp
  | vrcp
  | vrsq
  | vlog
  | vexp
  | vssq
  | fmad
  | fadd
  | fmul
  | fsubflr
  | frsq
  | frcp
  | fexp
  | flog
  | vpck (dest source : Element)
  | and
  | or
  | xor
  | shl
  | rol
  | shr
  | asr
  | sop2
  | sop2m
  | sop3
  | vtst
  | vtstmsk
  | ldr
  | str
  | limm
  | smlsi
  | nop
  | phas
  | spec
  | smp
  | kill
  | br
  deriving DecidableEq, Repr, Inhabited

/-- Mnemonic in a disassembly. -/
def Opcode.name : Opcode → String
  | vmov => "VMOV"
  | vmovc => "VMOVC"
  | vmovcu8 => "VMOVCU8"
  | vmad => "VMAD"
  | vf16mad => "VF16MAD"
  | vmul => "VMUL"
  | vadd => "VADD"
  | vfrc => "VFRC"
  | vdsx => "VDSX"
  | vdsy => "VDSY"
  | vmin => "VMIN"
  | vmax => "VMAX"
  | vdp => "VDP"
  | vf16mul => "VF16MUL"
  | vf16add => "VF16ADD"
  | vf16frc => "VF16FRC"
  | vf16dsx => "VF16DSX"
  | vf16dsy => "VF16DSY"
  | vf16min => "VF16MIN"
  | vf16max => "VF16MAX"
  | vf16dp => "VF16DP"
  | vrcp => "VRCP"
  | vrsq => "VRSQ"
  | vlog => "VLOG"
  | vexp => "VEXP"
  | vssq => "VSSQ"
  | fmad => "FMAD"
  | fadd => "FADD"
  | fmul => "FMUL"
  | fsubflr => "FSUBFLR"
  | frsq => "FRSQ"
  | frcp => "FRCP"
  | fexp => "FEXP"
  | flog => "FLOG"
  | vpck dest source => "VPCK" ++ dest.name ++ source.name
  | and => "AND"
  | or => "OR"
  | xor => "XOR"
  | shl => "SHL"
  | rol => "ROL"
  | shr => "SHR"
  | asr => "ASR"
  | sop2 => "SOP2"
  | sop2m => "SOP2M"
  | sop3 => "SOP3"
  | vtst => "VTST"
  | vtstmsk => "VTSTMSK"
  | ldr => "LDR"
  | str => "STR"
  | limm => "LIMM"
  | smlsi => "SMLSI"
  | nop => "NOP"
  | phas => "PHAS"
  | spec => "SPEC"
  | smp => "SMP"
  | kill => "KILL"
  | br => "BR"

/-- How a blend combines its two products. -/
inductive BlendOp where
  | add
  | sub
  | min
  | max
  deriving DecidableEq, Repr, Inhabited

def BlendOp.ofCode (n : Nat) : BlendOp :=
  match n % 4 with
  | 0 => .add
  | 1 => .sub
  | 2 => .min
  | _ => .max

/-- Arithmetic a test does before it compares. -/
inductive TestOp where
  | add
  | sub
  | mul
  | min
  | max
  | frc
  | rcp
  | rsq
  | log
  | exp
  | dp
  | dsx
  | dsy
  | and
  | or
  | xor
  | shl
  | shr
  | rol
  | asr
  deriving DecidableEq, Repr, Inhabited

/-- Comparison of a test. -/
inductive Comparison where
  | notEqual
  | equal
  | less
  | lessOrEqual
  | greater
  | greaterOrEqual
  deriving DecidableEq, Repr, Inhabited

/-- Blend of two byte colours, colour and alpha apart.  A factor is picked by its selector and
complemented when its flag is set. -/
structure Blend where
  colorOp : BlendOp := .add
  alphaOp : BlendOp := .add
  colorSelect1 : Nat := 0
  colorSelect2 : Nat := 0
  alphaSelect1 : Nat := 0
  alphaSelect2 : Nat := 0
  colorComplement1 : Bool := false
  colorComplement2 : Bool := false
  alphaComplement1 : Bool := false
  alphaComplement2 : Bool := false
  sourceComplement : Bool := false
  deriving DecidableEq, Repr, Inhabited

/-- Blend of two byte vectors under a write mask. -/
structure MaskedBlend where
  colorOp : BlendOp := .add
  alphaOp : BlendOp := .add
  select1 : Nat := 0
  select2 : Nat := 0
  complement1 : Bool := false
  complement2 : Bool := false
  deriving DecidableEq, Repr, Inhabited

/-- Opcode, operands, masks, predicate and repetition. -/
structure Operation where
  opcode : Opcode
  dest : Operand := { slot := 3 }
  src0 : Operand := { slot := 0 }
  src1 : Operand := { slot := 1 }
  src2 : Operand := { slot := 2 }
  destMask : Mask := 0b1111
  sourceMask : Mask := 0b1111
  predicate : Predicate := .none
  repeatCount : Nat := 0
  repeatMode : RepeatMode := .table
  /-- Lanes per increment of the table, by operand slot. -/
  repeatMultiplier : Quad Nat := .replicate 2
  skipInvalid : Bool := false
  isLast : Bool := false
  deriving DecidableEq, Repr, Inhabited

/-- What only some families have. -/
inductive Detail where
  | none
  | move (kind : MoveKind) (test : ZeroTest)
  /-- `secondMask` selects the components read from the second source when a wide pack is split
  between two registers. -/
  | pack (scale : Bool) (secondMask : Mask)
  /-- A dot product may rotate its write mask at each repeat. -/
  | dot (rotateMask : Bool)
  | blend (state : Blend)
  | maskedBlend (state : MaskedBlend)
  /-- `mask?` is the element of a mask written for each component; without it the outcome goes to a
  predicate register. -/
  | test (op : TestOp) (comparison : Comparison) (mask? : Option Element)
  | bitwise (invert : Bool) (rotation : Nat) (immediate? : Option Lane)
  | dual (second : Operation)
  | memory (element : Element) (count : Nat) (expanded : Bool)
  | literal (value : Lane)
  /-- Increment modes, increments and limits; destination first, then the sources. -/
  | increments (modes : Quad Bool) (steps : Quad (BitVec 8)) (limits : Nat × Nat × Nat)
  deriving DecidableEq, Repr, Inhabited

structure Instruction extends Operation where
  detail : Detail := .none
  deriving DecidableEq, Repr, Inhabited

namespace Operation

def operands (o : Operation) : List Operand := [o.src0, o.src1, o.src2, o.dest]

/-- Whether an operand is in the bank that no program can address. -/
def usesSpecial (o : Operation) : Bool := o.operands.any fun a => a.bank = .special

end Operation
end Microcode
