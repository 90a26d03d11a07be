import Microcode.Lowering
import Microcode.Proofs.Decoders
import Microcode.Proofs.PureCode

/-!
Fractional parts.

The difference of a source and the next integer below another one is the fractional part of the
first if both are the same, and then the code is shorter.
-/

namespace Microcode

open Machine Emit Access Lowering List

variable {start : Nat → Nat → Lanes} {w : Workspace} {s : State} {mask : Mask}

theorem emits_load_same (ctx : Context) {a b : Operand} (same : a.readsSame b mask = true)
    (alike : a.Alike b) (hbank : a.bank ≠ .predicate) (hmask : mask % 16 ≠ 0) (sub : Int) :
    Emits (.keeps start) (do
      let x ← Access.load ctx a mask sub
      let y ← Access.load ctx b mask sub
      return [x, y]) w s
      (fun values w' s' => ∃ x y xs, values = [x, y] ∧ xs.length = Mask.count mask ∧
        Holds w' s' x a.storage.scalar xs ∧ Holds w' s' y a.storage.scalar xs)
      (fun _ _ => True) := by
  obtain ⟨bank, num, modifiers, swizzle, element, slot⟩ := b
  simp only [Operand.readsSame, Bool.and_eq_true, decide_eq_true_eq, all_eq_true] at same
  obtain ⟨⟨⟨rfl, rfl⟩, rfl⟩, hchannels⟩ := same
  obtain rfl : element = a.element := alike.element
  by_cases hregister : a.bank.isRegister = true
  · have hspan : Operand.span? { a with swizzle, slot } mask = a.span? mask := by
      have hstorage : Operand.storageOf { a with swizzle, slot } mask = a.storageOf mask :=
        filterMap_congr fun i hi => congrArg Channel.storage? (hchannels i hi).symm
      rw [Operand.span?, Operand.span?, hstorage]
      rfl
    refine ((emits_load ctx hregister hmask sub).fails fun _ _ _ => trivial).bind
      fun x w1 s1 _ h1 => ?_
    have hregister' : (Operand.bank { a with swizzle, slot }).isRegister = true := hregister
    refine Emits.bind ((emits_load ctx hregister' hmask sub).rel.fails
      fun _ _ _ => trivial) fun y w2 s2 _ h2 => ?_
    refine .pure ⟨x, y, _, rfl, length_map _, h1.1.steps h2.1.good.live h2.1.steps, ?_⟩
    have hgathered : Operand.gathered { a with swizzle, slot } w1.registers s1 mask sub =
        a.gathered w.registers s mask sub := by
      rw [← h1.2.2.1]
      funext k
      rw [Operand.gathered, Operand.gathered, hspan]
    have hy := h2.2.1
    rw [hgathered] at hy
    refine (congrArg (Holds w2 s2 y _) (map_congr_left fun i hi => ?_)).mpr hy
    rw [Operand.reads, Operand.reads, hchannels i hi]
    rfl
  · have hfixed : (Mask.components mask).map (a.fixed? ctx) =
        (Mask.components mask).map (Operand.fixed? ctx { a with swizzle, slot }) := by
      have hslot := alike.slot.resolve_left hregister
      refine map_congr_left fun i hi => ?_
      have hi := hchannels i hi
      simp only [Operand.fixed?, Operand.constant?, Operand.immediate, constantAt, hi, hslot.1,
        hslot.2]
      rfl
    refine Emits.bind (emits_load_fixed ctx hregister hbank hmask sub).keeps fun x w1 s1 _ h1 => ?_
    have hregister' : ¬ (Operand.bank { a with swizzle, slot }).isRegister = true := hregister
    refine Emits.bind (emits_load_fixed ctx hregister' hbank hmask sub).rel.keeps
      fun y w2 s2 _ h2 => ?_
    obtain ⟨xs, hxs, hx⟩ := h1
    obtain ⟨q, ys, hys, hy⟩ := h2
    obtain rfl : xs = ys :=
      map_injective_iff.2 (fun _ _ => Option.some.inj) (hxs.symm.trans (hfixed.trans hys))
    refine .pure ⟨x, y, _, rfl, ?_, hx.quiet q, hy⟩
    simpa [Mask.count] using (congrArg List.length hxs).symm

/-- Where an instruction takes the difference of a source and the next integer below another one: the
opcode, the two sources, their mask and how far they are advanced. -/
inductive Instruction.Fraction (i : Instruction) :
    Opcode → Operand → Operand → Mask → Quad Int → Prop
  | arithmetic (single : ∀ second, i.detail ≠ .dual second)
      (opcode : i.opcode = .vfrc ∨ i.opcode = .vf16frc) (advances : Quad Int) :
    Fraction i i.opcode i.src1 i.src2 i.sourceMask advances
  | test (opcode : i.opcode = .vtst ∨ i.opcode = .vtstmsk) {comparison : Comparison}
      {element : Option Element} (detail : i.detail = .test .frc comparison element) :
    Fraction i .vfrc i.src1 i.src2 i.sourceMask (.replicate 0)
  | dual {second o : Operation} (detail : i.detail = .dual second)
      (issued : o = i.toOperation ∨ o = second) (opcode : o.opcode = .fsubflr) :
    Fraction i .fsubflr o.src0 o.src1 o.sourceMask (.replicate 0)

theorem Instruction.Fraction.alike {i : Instruction} {opcode : Opcode} {a b : Operand}
    {advances : Quad Int} (h : i.Fraction opcode a b mask advances) (regular : i.Regular) :
    (opcode = .vfrc ∨ opcode = .vf16frc ∨ opcode = .fsubflr) ∧ a.Reads .f32 ∧ a.Alike b := by
  unfold Instruction.Regular at regular
  cases h with
  | arithmetic hsingle hopcode =>
    split at regular
    case h_1 second hdual => exact absurd hdual (hsingle second)
    · rcases hopcode with hopcode | hopcode <;> rw [hopcode] at regular ⊢ <;>
        exact ⟨by simp, regular.1, regular.2.2⟩
  | test hopcode hdetail =>
    rw [hdetail] at regular
    rcases hopcode with hopcode | hopcode <;>
    · rw [hopcode] at regular
      obtain ⟨scalar, h1, -, hfloat, halike⟩ := regular _ _ _ rfl
      exact ⟨by simp, hfloat rfl ▸ h1, halike⟩
  | dual hdetail hissued hopcode =>
    rw [hdetail] at regular
    rcases hissued with rfl | rfl
    · exact ⟨by simp, regular.1.src0, regular.1.alike hopcode⟩
    · exact ⟨by simp, regular.2.src0, regular.2.alike hopcode⟩

/-- Both ways to compute a difference give fractional parts where the sources hold the same. -/
theorem computes_difference (ctx : Context) {opcode : Opcode}
    (hopcode : opcode = .vfrc ∨ opcode = .vf16frc ∨ opcode = .fsubflr) (same : Bool) {x y : Value}
    {xs : List Lane} (hx : Holds w s x .f32 xs) (hy : Holds w s y .f32 xs) :
    Computes start (compute ctx opcode [x, y] same) w s .f32
      (xs.map fun a => Binary32.sub a (Binary32.floor a)) := by
  have hcompute : compute ctx opcode [x, y] same = if same then Emit.builtin .fract [x]
      else Emit.builtin .floor [y] >>= Emit.binary .sub x := by
    rcases hopcode with rfl | rfl | rfl <;> rfl
  rw [hcompute]
  cases same with
  | true => exact computes_builtin_one (by decide) hx
  | false =>
    refine (computes_builtin_one (by decide) hy).bind fun whole w1 s1 q1 hwhole => ?_
    refine (computes_binary .sub (hx.quiet q1) hwhole (length_map _)).of_eq ?_
    rw [zipWith_map_right, zipWith_self]
    rfl

/-- The code of the second workspace goes on where that of the first ends. -/
def Workspace.GoesOn (w w' : Workspace) : Prop :=
  ∀ start s, Live w s → ∃ s', Steps start w.listing s w'.listing s'

/-- The fractional part of the first attribute lane. -/
def fractionAttribute : Instruction :=
  { opcode := .vfrc
    dest := { bank := .temporary, slot := 3 }
    src1 := { bank := .primaryAttribute, swizzle := .replicate .x, slot := 1 }
    src2 := { bank := .primaryAttribute, swizzle := .replicate .x, slot := 2 }
    destMask := 0b0001
    sourceMask := 0b0001 }

theorem decode_fractionAttribute : decode 0x08000080a0002000 false = .ok fractionAttribute := by
  have family : Family.ofWord? 0x08000080a0002000 = some .vnmad32 :=
    Family.ofWord?_of_leading rfl (by decide) fun g => by cases g <;> decide
  rw [decode, family]
  decide +kernel

end Microcode
