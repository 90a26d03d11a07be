import Microcode.Decode

/-!
What the decoder promises of an instruction.

No instruction reads a predicate register as a source, the sources that an operation brings together
have one scalar, and operations that exist on floats only get floats.  `Instruction.Regular` says so
opcode by opcode.
-/

namespace Microcode

variable {fault : DecodeFault} {α : Type}

/-- A source that gives numbers of the scalar. -/
structure Operand.Reads (op : Operand) (scalar : Scalar) : Prop where
  bank : op.bank ≠ .predicate
  scalar : op.element.scalar = scalar

/-- Operands that give the same numbers wherever they read the same components. -/
structure Operand.Alike (a b : Operand) : Prop where
  element : b.element = a.element
  /-- Only the first source of an operation reads the constants in its own way. -/
  slot : a.bank.isRegister = true ∨ a.slot ≠ 0 ∧ b.slot ≠ 0

theorem Operand.Alike.later {a b : Operand} (element : b.element = a.element) (ha : a.slot = 1)
    (hb : b.slot = 2) : a.Alike b := ⟨element, .inr (by simp [ha, hb])⟩

/-- Opcodes that compute on integers as well as on floats. -/
def Opcode.anyScalar : Opcode → Bool
  | .vmov | .vadd | .vf16add | .fadd | .vmul | .vf16mul | .fmul | .vmin | .vf16min | .vmax | .vf16max
  | .and | .or | .xor | .shl | .shr | .asr | .rol | .vmad | .vf16mad | .fmad => true
  | _ => false

/-- Tests that compute on integers as well as on floats. -/
def TestOp.anyScalar : TestOp → Bool
  | .frc | .rcp | .rsq | .log | .exp | .dp | .dsx | .dsy => false
  | _ => true

/-- The sources give floats. -/
structure Operation.Floats (o : Operation) : Prop where
  src0 : o.src0.Reads .f32
  src1 : o.src1.Reads .f32
  src2 : o.src2.Reads .f32
  alike : o.opcode = .fsubflr → o.src0.Alike o.src1

/-- Both operands give numbers of one scalar, which is that of floats unless any other will do. -/
def Operation.Pair (o : Operation) (anyScalar : Bool) : Prop :=
  ∃ scalar, o.src1.Reads scalar ∧ o.src2.Reads scalar ∧ (anyScalar = false → scalar = .f32) ∧
    o.src1.Alike o.src2

def Instruction.Regular (i : Instruction) : Prop :=
  match i.detail with
  | .dual second => i.toOperation.Floats ∧ second.Floats
  | _ =>
    match i.opcode with
    | .vmov => ∃ scalar, i.src1.Reads scalar
    | .vrcp | .vrsq | .vlog | .vexp => i.src1.Reads .f32
    | .vmad | .vf16mad => i.toOperation.Floats
    | .vmul | .vadd | .vfrc | .vdsx | .vdsy | .vmin | .vmax | .vdp
    | .vf16mul | .vf16add | .vf16frc | .vf16dsx | .vf16dsy | .vf16min | .vf16max | .vf16dp =>
      i.src1.Reads .f32 ∧ i.src2.Reads .f32 ∧ i.src1.Alike i.src2
    | .vmovc | .vmovcu8 => (∃ scalar, i.src0.Reads scalar) ∧ i.Pair true
    | .vpck _ source =>
      i.src1.Reads source.scalar ∧
        ∀ scale secondMask, i.detail = .pack scale secondMask → secondMask ≠ 0 →
          i.src2.Reads source.scalar ∧ Mask.count i.sourceMask + Mask.count secondMask ≤ 4
    | .and | .or | .xor | .shl | .rol | .shr | .asr => i.src1.Reads .u32 ∧ i.src2.Reads .u32
    | .sop2 | .sop2m => i.src1.Reads .u32 ∧ i.src2.Reads .u32
    | .vtst | .vtstmsk => ∀ op comparison mask?, i.detail = .test op comparison mask? →
        i.Pair op.anyScalar
    | .ldr | .str =>
      i.dest.bank ≠ .predicate ∧ i.src0.Reads .i32 ∧ i.src1.Reads .i32 ∧ i.src2.Reads .i32
    | _ => True

/-! ## Operands -/

namespace RegisterField

/-- A field names its bank, an internal register, a secondary attribute, or a part of the special
bank. -/
theorem bank_operand {P : Bank → Prop} (f : RegisterField) {bank : Bank} (num slot : Nat)
    (own : bank ≠ .special → P bank) (internal : P .internal) (secondary : P .secondaryAttribute)
    (special : bank = .special → P .constant ∧ P .globalConstant) :
    P (f.operand bank num slot).bank := by
  simp only [operand, aliasInternal, splitSpecial, restrict]
  repeat' split
  all_goals simp_all

theorem bank_ne_predicate (f : RegisterField) {bank : Bank} (h : bank ≠ .predicate)
    (num slot : Nat) : (f.operand bank num slot).bank ≠ .predicate :=
  bank_operand (P := (· ≠ .predicate)) f num slot (fun _ => h) nofun nofun fun _ => ⟨nofun, nofun⟩

@[simp]
theorem bank_source (f : RegisterField) (num code : Nat) (extended : Bool) (slot : Nat) :
    (f.source num code extended slot).bank ≠ .predicate := by
  refine bank_ne_predicate f ?_ num slot
  unfold Bank.ofSource
  split <;> simp

@[simp]
theorem bank_src0 (f : RegisterField) (num code : Nat) (extended : Bool) :
    (f.src0 num code extended).bank ≠ .predicate := by
  refine bank_ne_predicate f ?_ num 0
  unfold Bank.ofFirstSource
  split <;> simp

end RegisterField

@[simp]
theorem Operand.bank_ofInternal (num slot : Nat) (element : Element) :
    (Operand.ofInternal num slot element).bank = .internal := rfl

/-! ## Decoded words -/

namespace Decode

theorem checked_eq_ok {i j : Instruction} (h : checked i = .ok j) : i = j := by
  rw [checked] at h
  split at h
  · cases h
  · exact Except.ok.inj h

theorem throw_bind_ne_ok {β : Type} {g : α → Except DecodeFault β} {b : β} :
    throw fault >>= g ≠ .ok b := by
  simp [bind, Except.bind, throw, throwThe, MonadExceptOf.throw]

end Decode

theorem exists_family_of_decode {word : Word} {secondary : Bool} {i : Instruction}
    (h : decode word secondary = .ok i) : ∃ family, Family.ofWord? word = some family ∧
      Decode.ofFamily family ⟨word, family.layout⟩ secondary = .ok i := by
  rw [decode] at h
  split at h
  · cases h
  · rename_i family hword
    cases hfamily : Decode.ofFamily family ⟨word, family.layout⟩ secondary with
    | error e =>
      rw [hfamily] at h
      exact absurd (show Except.error _ = Except.ok i from h) (by simp)
    | ok j =>
      rw [hfamily] at h
      obtain rfl := Except.ok.inj h
      exact ⟨family, hword, hfamily⟩

end Microcode
