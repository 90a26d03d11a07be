import Microcode.Lowering
import Microcode.Proofs.Decoding
import Microcode.Proofs.Families
import Microcode.Proofs.LaneAccess

/-!
Bitwise words.

A bitwise word computes a function of two 32-bit words: a lane, and a second lane or an immediate of
16 bits that three fields of the word hold.  The second operand may be complemented, which the
decoder does with immediates and the code with lanes.
-/

namespace Microcode

open Machine Emit Access Lowering

variable (ctx : Context) {f : Fields} {i : Instruction}

variable {start : Nat → Nat → Lanes} {w w' : Workspace} {s s' : State}

/-! ## Functions of two words -/

/-- The function that a bitwise opcode names.  Amounts count modulo 32. -/
def Opcode.bitwise? : Opcode → Option (Lane → Lane → Lane)
  | .and => some fun a b => a &&& b
  | .or => some fun a b => a ||| b
  | .xor => some fun a b => a ^^^ b
  | .shl => some fun a b => a <<< (b.toNat % 32)
  | .rol => some fun a b => a.rotateLeft (b.toNat % 32)
  | .shr => some fun a b => a >>> (b.toNat % 32)
  | .asr => some fun a b => a.sshiftRight (b.toNat % 32)
  | _ => none

/-- A rotation as two shifts, the second by what the first leaves of the width. -/
theorem rotateLeft_eq_shifts (a b : Lane) :
    a <<< ((b &&& 31#32).toNat % 32) ||| a >>> (((32#32 - (b &&& 31#32)) &&& 31#32).toNat % 32) =
      a.rotateLeft (b.toNat % 32) := by
  have hup : (b &&& 31#32).toNat = b.toNat % 32 := by
    rw [BitVec.toNat_and]
    exact Nat.and_two_pow_sub_one_eq_mod b.toNat 5
  have hdown : ((32#32 - (b &&& 31#32)) &&& 31#32).toNat = (32 - b.toNat % 32) % 32 := by
    rw [BitVec.toNat_and, BitVec.toNat_sub, hup]
    have hmod := Nat.and_two_pow_sub_one_eq_mod
      ((2 ^ 32 - b.toNat % 32 + (32#32).toNat) % 2 ^ 32) 5
    simp only [BitVec.reduceToNat] at hmod ⊢
    rw [hmod]
    omega
  obtain ⟨n, hn⟩ : ∃ n, n = b.toNat % 32 := ⟨_, rfl⟩
  rw [hup, hdown, ← hn]
  have hlt : n < 32 := by omega
  rw [BitVec.rotateLeft_eq_rotateLeftAux_of_lt hlt, BitVec.rotateLeftAux]
  by_cases hzero : n = 0
  · subst hzero
    have hout : a >>> (32 - 0) = 0#32 := BitVec.ushiftRight_eq_zero (Nat.le_refl 32)
    rw [hout]
    simp
  · rw [Nat.mod_eq_of_lt hlt, Nat.mod_mod, Nat.mod_eq_of_lt (show 32 - n < 32 by omega)]

theorem computes_rotateLeft {a b : Value} {x y : Lane} (ha : Holds w s a .u32 [x])
    (hb : Holds w s b .u32 [y]) :
    Computes start (rotateLeft a b) w s .u32 [x.rotateLeft (y.toNat % 32)] := by
  intro E
  rw [rotateLeft]
  refine Emits.shapeOf ?_
  rw [hb.shape]
  refine (computes_splatConstant _ hb.pos hb.width _).bind fun last w1 s1 q1 hlast => ?_
  refine (computes_splatConstant _ hb.pos hb.width _).bind fun width w2 s2 q2 hwidth => ?_
  have hlast : Holds w2 s2 last .u32 [31#32] := hlast.quiet q2
  have hwidth : Holds w2 s2 width .u32 [32#32] := hwidth
  have ha := (ha.quiet q1).quiet q2
  have hb := (hb.quiet q1).quiet q2
  refine (computes_binary .and hb hlast rfl _).bind fun up w3 s3 q3 hup => ?_
  refine (computes_binary .sub (hwidth.quiet q3) hup rfl _).bind fun rest w4 s4 q4 hrest => ?_
  refine (computes_binary .and hrest ((hlast.quiet q3).quiet q4) rfl _).bind
    fun down w5 s5 q5 hdown => ?_
  have ha := ((ha.quiet q3).quiet q4).quiet q5
  refine (computes_binary .shl ha ((hup.quiet q4).quiet q5) rfl _).bind fun left w6 s6 q6 hleft => ?_
  refine (computes_binary .shr (ha.quiet q6) (hdown.quiet q6) rfl _).bind
    fun right w7 s7 q7 hright => ?_
  refine (computes_binary .or (hleft.quiet q7) hright rfl).of_eq ?_ _
  exact congrArg (fun z => [z]) (rotateLeft_eq_shifts x y)

theorem computes_bitwise {opcode : Opcode} {f : Lane → Lane → Lane} (hf : opcode.bitwise? = some f)
    {a b : Value} {x y : Lane} (ha : Holds w s a .u32 [x]) (hb : Holds w s b .u32 [y]) :
    Computes start (compute ctx opcode [a, b] false) w s .u32 [f x y] := by
  have simple (op : BinaryOp) (hop : compute ctx opcode [a, b] false = binary op a b)
      (heq : Machine.binary op .u32 x y = f x y) :
      Computes start (compute ctx opcode [a, b] false) w s .u32 [f x y] := by
    rw [hop]
    exact (computes_binary op ha hb rfl).of_eq (congrArg (fun z => [z]) heq)
  cases opcode <;> cases hf
  case and => exact simple .and rfl rfl
  case or => exact simple .or rfl rfl
  case xor => exact simple .xor rfl rfl
  case shl => exact simple .shl rfl rfl
  case rol => exact computes_rotateLeft ha hb
  case shr => exact simple .shr rfl rfl
  case asr => exact simple .asr rfl rfl

/-! ## The words -/

/-- The number that the fields of a bitwise word hold in place of a second register. -/
def bitwiseImmediate (f : Fields) : Lane :=
  BitVec.ofNat 32 (f.get 'u' + f.get 'l' <<< 7 + f.get 'h' <<< 14)

/-- What the decoder makes of a bitwise word. -/
structure Instruction.OfBitwise (f : Fields) (i : Instruction) : Prop where
  function : i.opcode.bitwise?.isSome = true
  dest : i.dest.element = .u32
  src1 : i.src1.Plain
  src2 : i.src2.Plain
  scalar1 : i.src1.element = .u32
  scalar2 : i.src2.element = .u32
  bank : i.dest.bank ≠ .predicate
  detail : i.detail = .bitwise (f.flag 'i') (f.get 't') (if i.src2.bank = .immediate then
    some (if f.flag 'i' then ~~~bitwiseImmediate f else bitwiseImmediate f) else none)

theorem Operand.storage_u32 {op : Operand} (h : op.element = .u32) : op.storage = .u32 := by
  rw [Operand.storage, h]
  split <;> rfl

namespace RegisterField

theorem extended_of_immediate {regs : RegisterField} {num code slot : Nat} {extended : Bool}
    (h : (regs.source num code extended slot).bank = .immediate) : extended = true := by
  have hrestrict (b : Bank) (hb : regs.restrict b = .immediate) : b = .immediate := by
    rw [restrict] at hb
    split at hb
    · cases hb
    · exact hb
  have hsplit (b : Bank) (n : Nat) (hb : (splitSpecial b n).1 = .immediate) : b = .immediate := by
    rw [splitSpecial] at hb
    split at hb
    · split at hb <;> cases hb
    · exact hb
  have halias (b : Bank) (n : Nat) (hb : (regs.aliasInternal b n).1 = .immediate) :
      b = .immediate := by
    rw [aliasInternal] at hb
    split at hb
    · cases hb
    · exact hb
  have hbank : Bank.ofSource code extended = .immediate :=
    halias _ _ (hsplit _ _ (hrestrict _ h))
  cases extended with
  | true => rfl
  | false =>
    have hnone : ∀ n < 4, Bank.ofSource n false ≠ .immediate := by decide
    have hmod : Bank.ofSource code false = Bank.ofSource (code % 4) false := by
      unfold Bank.ofSource
      rw [Nat.mod_mod]
    exact absurd (hmod.symm.trans hbank) (hnone _ (Nat.mod_lt _ (by decide)))

@[simp]
theorem bank_dest (regs : RegisterField) (num code : Nat) (extended : Bool) :
    (regs.dest num code extended).bank ≠ .predicate := by
  refine bank_ne_predicate _ ?_ num 3
  unfold Bank.ofDest
  split <;> simp

end RegisterField

theorem Decode.bitwiseOpcode?_eq_some {code : Nat} {alternate : Bool} {opcode : Opcode}
    (h : Decode.bitwiseOpcode? code alternate = some opcode) : opcode.bitwise?.isSome = true := by
  unfold Decode.bitwiseOpcode? at h
  split at h <;> cases h <;> rfl

theorem Decode.bitwise_eq_ok {secondary : Bool} (h : Decode.bitwise f secondary = .ok i) :
    i.OfBitwise f := by
  rw [Decode.bitwise] at h
  cases hopcode : bitwiseOpcode? (f.get 'o') (f.flag 'a') with
  | none =>
    rw [hopcode] at h
    cases h
  | some opcode =>
    rw [hopcode] at h
    obtain rfl := checked_eq_ok h
    have plain (num code slot : Nat) (extended : Bool) : ({ RegisterField.source
        ⟨false, 7, secondary⟩ num code extended slot with element := .u32 } : Operand).Plain :=
      ⟨rfl, rfl, rfl, by rw [Operand.storage_u32 rfl]; rfl⟩
    refine ⟨bitwiseOpcode?_eq_some hopcode, rfl, plain (f.get 'q') (f.get 'f') 1 (f.flag 'c'),
      plain (f.get 'u') (f.get 'g') 2 (f.flag 'x'), rfl, rfl,
      RegisterField.bank_dest ⟨false, 7, secondary⟩ (f.get 'j') (f.get 'k') (f.flag 'd'), ?_⟩
    have hflag : (f.flag 'x' && decide ((RegisterField.source ⟨false, 7, secondary⟩ (f.get 'u')
        (f.get 'g') (f.flag 'x') 2).bank = .immediate)) = true ↔ (RegisterField.source
          ⟨false, 7, secondary⟩ (f.get 'u') (f.get 'g') (f.flag 'x') 2).bank = .immediate := by
      rw [Bool.and_eq_true, decide_eq_true_eq]
      exact ⟨And.right, fun h => ⟨RegisterField.extended_of_immediate h, h⟩⟩
    simp only [hflag, bitwiseImmediate]

/-! ## Their code -/

theorem lower_bitwise (h : i.OfBitwise f) : lower ctx i = Lowering.bitwise ctx i := by
  have hfunction := h.function
  rw [lower, h.detail]
  simp only
  generalize i.opcode = opcode at hfunction
  cases opcode <;> first | rfl | cases hfunction

theorem repeated_once {o : Operation} (h : o.repeatCount = 0) (body : Nat → Quad Int → Emit Unit) :
    repeated o body = advances o 0 >>= body 0 := by
  rw [repeated, h]
  show (advances o 0 >>= body 0) >>= (fun _ => pure ()) = _
  exact bind_pure_unit

theorem Emits.advances {F : Frame} {o : Operation} {n : Nat} {α : Type} {f : Quad Int → Emit α}
    {Q : α → Workspace → State → Prop}
    (h : Emits F (f ⟨advance w.increments o o.src0 n, advance w.increments o o.src1 n,
      advance w.increments o o.src2 n, advance w.increments o o.dest n⟩) w s Q fun _ _ => True) :
    Emits F (Lowering.advances o n >>= f) w s Q fun _ _ => True := by
  rw [Lowering.advances]
  simp only [bind_assoc, pure_bind]
  refine Emits.get ?_
  iterate 4 refine Emits.offset (fun _ => trivial) fun _ => ?_
  exact h

theorem advance_identity (o : Operation) (op : Operand) :
    advance (.replicate .identity) o op 0 = 0 := by
  have hamount : ((Quad.replicate Increment.identity).get op.slot).amount 0 = 0 := by
    rw [Quad.get_replicate]
    rfl
  unfold advance tableAdvance
  cases o.repeatMode <;> simp [hamount]

/-- The second operand of a bitwise word before it is complemented. -/
def bitwiseSource (f : Fields) (op : Operand) (r : RegisterFile) (s : State) (sub : Int) :
    Option Lane :=
  if op.bank = .immediate then some (bitwiseImmediate f) else r.laneAt s op.bank (op.laneOf sub)

theorem emits_bitwiseOperand (h : i.OfBitwise f)
    (hsource : i.src2.bank.isRegister = true ∨ i.src2.bank = .immediate) (sub : Int) :
    Emits (.keeps start) (bitwiseOperand ctx i.toOperation (f.flag 'i')
        (if i.src2.bank = .immediate then
          some (if f.flag 'i' then ~~~bitwiseImmediate f else bitwiseImmediate f) else none) sub) w s
      (fun v w' s' => ∃ b, bitwiseSource f i.src2 w.registers s sub = some b ∧
        Holds w' s' v .u32 [if f.flag 'i' then ~~~b else b]) fun _ _ => True := by
  unfold bitwiseSource
  by_cases himmediate : i.src2.bank = .immediate
  · simp only [if_pos himmediate, bitwiseOperand]
    refine (computes_constant (.u32 _) _).keeps.gives fun v w' s' _ hv => ⟨_, rfl, ?_⟩
    exact hv
  · simp only [if_neg himmediate, bitwiseOperand]
    have hregister := hsource.resolve_right himmediate
    refine (emits_load_lane ctx h.src2 hregister sub).bind fun v w1 s1 _ hv => ?_
    obtain ⟨-, b, hb, hv⟩ := hv
    rw [Operand.storage_u32 h.scalar2] at hv
    by_cases hinvert : f.flag 'i' = true
    · rw [if_pos hinvert]
      refine Emits.mono (computes_unary .not hv _).keeps (fun u w2 s2 _ hu => ⟨b, hb, ?_⟩)
        fun _ _ he => he
      rw [if_pos hinvert]
      exact hu
    · rw [if_neg hinvert]
      refine .pure ⟨b, hb, ?_⟩
      rw [if_neg hinvert]
      exact hv

theorem emits_bitwise (h : i.OfBitwise f) (hrotation : f.get 't' = 0)
    (hpredicate : i.predicate = .none) (hrepeat : i.repeatCount = 0)
    (hfirst : i.src1.bank.isRegister = true)
    (hsecond : i.src2.bank.isRegister = true ∨ i.src2.bank = .immediate) {g : Lane → Lane → Lane}
    (hg : i.opcode.bitwise? = some g) :
    Emits (.alters start) (lower ctx i) w s
      (fun _ w' s' => ∃ a b,
        w.registers.laneAt s i.src1.bank
          (i.src1.laneOf (advance w.increments i.toOperation i.src1 0)) = some a ∧
        bitwiseSource f i.src2 w.registers s (advance w.increments i.toOperation i.src2 0) = some b ∧
        Writes w s w' s' i.dest.bank fun lane =>
          if lane = i.dest.laneOf (advance w.increments i.toOperation i.dest 0) then
            some (g a (if f.flag 'i' then ~~~b else b)) else none)
      fun _ _ => True := by
  rw [lower_bitwise ctx h, Lowering.bitwise, h.detail]
  simp only [hrotation, ne_eq, not_true, if_false]
  have hcondition : Access.condition i.predicate = pure none := by
    rw [hpredicate]
    rfl
  rw [hcondition, pure_bind, repeated_once hrepeat]
  refine Emits.advances ?_
  refine (emits_load_lane ctx h.src1 hfirst _).alters.bind fun a w1 s1 _ ha => ?_
  obtain ⟨k1, hsame, x, hx, ha⟩ := ha
  rw [Operand.storage_u32 h.scalar1] at ha
  refine (emits_bitwiseOperand ctx h hsecond _).alters.bind fun b w2 s2 _ hb => ?_
  obtain ⟨k2, y, hy, hb⟩ := hb
  refine (computes_bitwise ctx hg (ha.advances k2.toAdvances) hb _).keeps.alters.bind
    fun v w3 s3 _ hv => ?_
  obtain ⟨k3, hv⟩ := hv
  by_cases hdest : i.dest.bank.isRegister = true
  · have hstorage := Operand.storage_u32 h.dest
    refine (emits_store_lane ctx hdest (by rw [hstorage]; rfl) _ (by rw [hstorage]; exact hv)
      (show Permits w3 s3 none true from rfl)).mono (fun _ w4 s4 _ hw => ?_) fun _ _ _ => trivial
    obtain ⟨-, hwrites⟩ := hw
    refine ⟨x, y, hx, ?_, ?_⟩
    · rw [bitwiseSource, hsame] at hy
      exact hy
    · simp only [true_and] at hwrites
      exact hwrites.after_keeps ((k1.trans k2).trans k3)
  · rw [store_of_not_isRegister ctx hdest h.bank]
    exact fun _ => trivial

/-! ## Words on a machine -/

/-- An arithmetic shift of the first attribute lane, to the second, by the complement of an
immediate. -/
def shiftAttribute : Instruction :=
  { opcode := .asr
    dest := { bank := .primaryAttribute, num := 1, element := .u32, slot := 3 }
    src1 := { bank := .primaryAttribute, num := 0, element := .u32, slot := 1 }
    src2 := { bank := .immediate, num := 0x23, element := .u32, slot := 2 }
    destMask := 0b0001
    sourceMask := 0b0001
    repeatMultiplier := .replicate 1
    detail := .bitwise true 0 (some (~~~0x8123#32)) }

theorem family_shiftAttribute : Family.ofWord? 0x6801082aa0208023 = some .vbw :=
  Family.ofWord?_of_leading rfl (by decide) fun g => by cases g <;> decide

theorem decode_shiftAttribute : decode 0x6801082aa0208023 false = .ok shiftAttribute := by
  rw [decode, family_shiftAttribute]
  decide +kernel

end Microcode
