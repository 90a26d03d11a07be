import Microcode.Decode.Arithmetic

/-!
Dual-issue words.

Two operations share one word.  Their sources are drawn from one ordinary register, called the
unified source, and up to three internal registers; which operation reads which is fixed by the
numbers of sources and a two-bit configuration.
-/

namespace Microcode
namespace Decode

/-- Where a source of a dual-issue operation comes from. -/
inductive SourceSlot where
  | unified
  | internal0
  | internal1
  | internal2
  deriving DecidableEq, Repr

/-- An operation that can be issued with another one. -/
structure DualOp where
  opcode : Opcode
  sources : Nat
  vectorLoad : Bool
  vectorStore : Bool
  deriving DecidableEq, Repr

def dualOp? (code : Nat) : Option DualOp :=
  match code with
  | 0 => some ⟨.vmad, 3, true, true⟩
  | 1 => some ⟨.vdp, 2, true, false⟩
  | 2 => some ⟨.vssq, 1, true, false⟩
  | 3 => some ⟨.vmul, 2, true, true⟩
  | 4 => some ⟨.vadd, 2, true, true⟩
  | 5 => some ⟨.vmov, 1, true, true⟩
  | 6 => some ⟨.frsq, 1, false, false⟩
  | 7 => some ⟨.frcp, 1, false, false⟩
  | 8 => some ⟨.fmad, 3, false, false⟩
  | 9 => some ⟨.fadd, 2, false, false⟩
  | 10 => some ⟨.fmul, 2, false, false⟩
  | 11 => some ⟨.fsubflr, 2, false, false⟩
  | 12 => some ⟨.fexp, 1, false, false⟩
  | 13 => some ⟨.flog, 1, false, false⟩
  | _ => none

/-- The second operation cannot be another multiply-add. -/
def secondOp? (code : Nat) : Option DualOp := if code = 0 then none else dualOp? code

def firstSources? (count config : Nat) : Option (List SourceSlot) :=
  match count, config with
  | 1, 0 => some [.unified]
  | 1, 1 => some [.internal0]
  | 1, 2 => some [.internal1]
  | 1, 3 => some [.internal2]
  | 2, 0 => some [.unified, .internal1]
  | 2, 1 => some [.internal0, .unified]
  | 2, 2 => some [.internal0, .internal1]
  | 3, 0 => some [.unified, .internal1, .internal2]
  | 3, 1 => some [.internal0, .unified, .internal2]
  | 3, 2 => some [.internal0, .internal1, .unified]
  | 3, 3 => some [.internal0, .internal1, .internal2]
  | _, _ => none

/-- Sources of the second operation, after a first one with `first` sources. -/
def secondSources? (first second config : Nat) : Option (List SourceSlot) :=
  match first, second, config with
  | 1, 1, 0 => some [.internal0]
  | 1, 1, _ => some [.unified]
  | 1, 2, 0 => some [.internal0, .internal1]
  | 1, 2, 1 => some [.unified, .internal1]
  | 1, 2, 2 => some [.internal0, .unified]
  | 1, 2, _ => some [.internal1, .unified]
  | 1, 3, 0 => some [.internal0, .internal1, .internal2]
  | 1, 3, 1 => some [.unified, .internal1, .internal2]
  | 1, 3, 2 => some [.internal0, .unified, .internal2]
  | 1, 3, _ => some [.internal0, .unified, .internal1]
  | 2, 1, 0 => some [.internal0]
  | 2, 1, 1 => some [.internal1]
  | 2, 1, 2 => some [.unified]
  | 2, 2, 0 => some [.internal0, .internal2]
  | 2, 2, 1 => some [.internal1, .internal2]
  | 2, 2, 2 => some [.internal2, .unified]
  | 3, 1, 0 => some [.internal0]
  | 3, 1, 1 => some [.internal1]
  | 3, 1, 2 => some [.internal2]
  | 3, 1, 3 => some [.unified]
  | _, _, _ => none

/-- What the two operations of a word have in common. -/
structure DualWord where
  fields : Fields
  secondary : Bool
  /-- Number of sources of the first operation. -/
  firstCount : Nat

namespace DualWord

def fourWide (d : DualWord) : Bool := d.fields.flag 'c'

def half (d : DualWord) : Bool := d.fields.flag 't'

def element (d : DualWord) : Element := if d.half then .f16 else .f32

/-- Two bits of the internal-2 register number are modifiers of the unified source when the first
operation has few sources. -/
def source (d : DualWord) (op : DualOp) (slot : SourceSlot) (index : Nat) : Operand :=
  let f := d.fields
  let base : Operand := match slot with
    | .unified =>
      let regs : RegisterField := ⟨op.vectorLoad, if op.vectorLoad then 8 else 7, d.secondary⟩
      { regs.source (f.get 'z') (f.get 'f') false index with
        swizzle := .ofDualTable (f.get 'u') (d.firstCount < 2 && f.flag 'j') d.fourWide
        modifiers := { absolute := d.firstCount ≤ 2 && f.flag 'q', negative := f.flag 'n' } }
    | .internal0 =>
      { Operand.ofInternal (f.get 'x') index d.element with
        swizzle := .ofDualTable (f.get 'i') false d.fourWide }
    | .internal1 =>
      { Operand.ofInternal (f.get 'v') index d.element with
        swizzle := .ofDualTable (f.get 'w') (f.flag 'p') d.fourWide
        modifiers := { negative := f.flag 'g', pinned := true } }
    | .internal2 =>
      Operand.ofInternal (if 2 ≤ d.firstCount then 2 * f.get 'j' + f.get 'q' else 2) index d.element
  { base with element := d.element }

/-- Components written to the unified destination.  An internal register takes whole vectors. -/
def unifiedMask (d : DualWord) (op : DualOp) (dest : Operand) : Mask :=
  if dest.bank = .internal then if d.fourWide then 0b1111 else 0b0111
  else if op.vectorStore then if d.half then 0b1111 else 0b0011
  else if d.half then 0b0011
  else 0b0001

def operation (d : DualWord) (op : DualOp) (slots : List SourceSlot) (dest : Operand)
    (destMask : Mask) : Operation :=
  let sources := slots.zipIdx.map fun (slot, index) => d.source op slot index
  let base : Operation := { opcode := op.opcode }
  { base with
    dest := dest
    src0 := sources.getD 0 base.src0
    src1 := sources.getD 1 base.src1
    src2 := sources.getD 2 base.src2
    destMask := destMask
    sourceMask :=
      if !op.vectorLoad then 0b0001
      else if op.opcode = .vdp || op.opcode = .vssq then if d.fourWide then 0b1111 else 0b0111
      else destMask
    skipInvalid := d.fields.flag 'k' }

end DualWord

def dual (f : Fields) (secondary : Bool) : Except DecodeFault Instruction := do
  let fourWide := f.flag 'c'
  let wide := f.flag 'd'
  let some first := dualOp? ((if !fourWide && wide then 8 else 0) + f.get 'a')
    | throw .firstOperation
  let some second := secondOp? (8 * f.get 'l' + f.get 'o') | throw .secondOperation
  let d : DualWord := ⟨f, secondary, first.sources⟩
  let some firstSlots := firstSources? first.sources (f.get 'h') | throw .firstSources
  let some secondSlots := secondSources? first.sources second.sources (f.get 'h')
    | throw .secondSources
  let firstUnified := f.flag 'r'
  let vector := if firstUnified then first.vectorStore else second.vectorStore
  let unified := { (RegisterField.mk vector (if vector then 8 else 7) secondary).dest (f.get 'b')
    (f.get 'm') false with element := d.element }
  let internal := { Operand.ofInternal (f.get 'e') 3 d.element with modifiers := {} }
  let internalMask := f.get 'y' + if fourWide && wide then 8 else 0
  let one := if firstUnified
    then d.operation first firstSlots unified (d.unifiedMask first unified)
    else d.operation first firstSlots internal internalMask
  let two := if firstUnified
    then d.operation second secondSlots internal internalMask
    else d.operation second secondSlots unified (d.unifiedMask second unified)
  if two.usesSpecial then throw .specialRegister
  checked { one with detail := .dual two }

end Decode
end Microcode
