import Microcode.Proofs.Decoders

/-!
How words name registers.

A word names the register of an operand by the code of a bank and by a number, which may count pairs
of lanes.  The four highest numbers that its bits can hold name the internal registers wherever the
bank is that of the temporaries.  `RegisterName` lists the bits of each operand, family by family,
and `decode_aliases_top` says for which operands the rule holds: for all but those of mask tests on
integers, whose numbers are taken for wider ones.
-/

namespace Microcode

variable {bank : Bank} {start : Nat} {regs : RegisterField}

/-! ## Names -/

namespace RegisterName

variable (name : RegisterName) (f : Fields)

/-- One of the four highest numbers of a temporary. -/
def IsTop : Prop := name.bank = .temporary ∧ 2 ^ name.width f ≤ name.number f + 4

/-- The operand is the register that the word names, where the four highest temporaries are the
internal registers in their order. -/
structure AliasesTop (op : Operand) : Prop where
  temporary : op.bank = .temporary → name.bank = .temporary ∧ ¬ name.IsTop f
  below : name.bank = .temporary → ¬ name.IsTop f → op.bank = .temporary ∧ op.num = name.lane f
  internal : name.IsTop f → op.bank = .internal ∧ op.num + 2 ^ name.width f = name.number f + 4

end RegisterName

/-! ## Register fields -/

namespace RegisterField

/-- A primary program takes any register but a special one from its field. -/
theorem operand_of_ne (hprimary : regs.secondary = false) (hbank : bank ≠ .special)
    (num slot : Nat) :
    regs.operand bank num slot =
      { bank := (regs.aliasInternal bank (regs.scale bank num)).1
        num := (regs.aliasInternal bank (regs.scale bank num)).2, slot := slot } := by
  have hne : (regs.aliasInternal bank (regs.scale bank num)).1 ≠ .special := by
    rw [aliasInternal]
    split
    · exact Bank.noConfusion
    · exact hbank
  simp only [operand, splitSpecial, if_neg hne, restrict, hprimary, Bool.false_and,
    Bool.false_eq_true, if_false]

theorem bank_operand_temporary {num slot : Nat} (hprimary : regs.secondary = false)
    (h : (regs.operand bank num slot).bank = .temporary) : bank = .temporary := by
  by_cases hspecial : bank = .special
  · subst hspecial
    simp only [operand, aliasInternal, splitSpecial, restrict, hprimary, reduceCtorEq, decide_false,
      Bool.false_and, Bool.false_eq_true, if_false, if_true] at h
    split at h <;> exact absurd h Bank.noConfusion
  · rw [operand_of_ne hprimary hspecial, aliasInternal] at h
    split at h
    · exact absurd h Bank.noConfusion
    · exact h

end RegisterField

theorem RegisterName.aliasesTop_of_from {name : RegisterName} {f : Fields} {op : Operand}
    (hprimary : regs.secondary = false) (hdoubled : regs.doubled = name.doubled)
    (hbits : regs.bits = name.width f + name.doubled.toNat)
    (hwidth : name.width f = 6 ∨ name.width f = 7) (h : op.From regs name.bank (name.number f)) :
    name.AliasesTop f op := by
  have hlt := name.number_lt f
  by_cases hbank : name.bank = .temporary
  case neg =>
    have hop : op.bank ≠ .temporary := by
      intro hop
      rw [h.bank] at hop
      exact hbank (RegisterField.bank_operand_temporary hprimary hop)
    exact ⟨fun hop' => absurd hop' hop, fun hb => absurd hb hbank, fun ht => absurd ht.1 hbank⟩
  have hscale : regs.scale .temporary (name.number f) = name.lane f := by
    rw [RegisterField.scale, RegisterName.lane, hdoubled]
    cases name.doubled with
    | false => rfl
    | true =>
      have hmod : 2 * name.number f % 256 = 2 * name.number f := by
        rcases hwidth with hw | hw <;> rw [hw] at hlt <;> omega
      simpa using hmod
  -- A number is one of the four highest exactly when its lane is past the first internal one.
  have htop : regs.internalStart ≤ name.lane f ↔ 2 ^ name.width f ≤ name.number f + 4 := by
    rw [RegisterField.internalStart, RegisterName.lane, hdoubled, hbits, Nat.one_shiftLeft]
    cases name.doubled with
    | false => rcases hwidth with hw | hw <;> rw [hw] <;> simp
    | true => rcases hwidth with hw | hw <;> rw [hw] <;> simp <;> omega
  obtain ⟨hopbank, hopnum⟩ := h
  rw [hbank, RegisterField.operand_of_ne hprimary (by decide), hscale] at hopbank hopnum
  simp only [RegisterField.aliasInternal, decide_true, Bool.true_and, decide_eq_true_eq] at hopbank hopnum
  by_cases hle : regs.internalStart ≤ name.lane f
  · rw [if_pos hle] at hopbank hopnum
    have hist : name.IsTop f := ⟨hbank, htop.1 hle⟩
    refine ⟨fun hop => absurd (hopbank.symm.trans hop) Bank.noConfusion, fun _ hno => absurd hist hno,
      fun _ => ⟨hopbank, ?_⟩⟩
    have hle' := hist.2
    rw [hopnum, hdoubled, RegisterField.internalStart, RegisterName.lane, hdoubled, hbits,
      Nat.one_shiftLeft]
    cases name.doubled with
    | false | true => rcases hwidth with hw | hw <;> rw [hw] at hle' ⊢ <;> simp <;> omega
  · rw [if_neg hle] at hopbank hopnum
    have hist : ¬ name.IsTop f := fun h => hle (htop.2 h.2)
    exact ⟨fun _ => ⟨hbank, hist⟩, fun _ _ => ⟨hopbank, hopnum⟩, fun h => absurd h hist⟩

/-! ## Aliases -/

namespace Decode

/-- Mask tests on integers: their numbers have seven bits and are read as if they had eight. -/
def Unaliased (family : Family) (f : Fields) : Prop := family = .vtstmsk ∧ f.get 'l' ≠ 0

-- Fields are told apart by their labels, without going back to the word.
seal Fields.get

variable {f : Fields}

theorem Traced.aliasesTop {family : Family} {second : Bool} {slot : OperandSlot} {op : Operand}
    {name : RegisterName} (h : Traced family f false second slot op) (hmask : family ≠ .vtstmsk)
    (hname : name? family f second slot = some name) : name.AliasesTop f op := by
  cases h with
  | named name' hname' hwidth hop =>
    obtain rfl := Option.some.inj (hname'.symm.trans hname)
    exact RegisterName.aliasesTop_of_from rfl rfl (if_neg hmask) hwidth hop
  | internal hnone | absent hnone => exact absurd (hnone.symm.trans hname) (by simp)
  | data hfamily hslot =>
    subst hfamily hslot
    exact absurd hname (by simp [name?])

theorem Traced.transfer {family : Family} {second : Bool} {slot : OperandSlot} {op : Operand}
    (h : Traced family f false second slot op) (hname : name? family f second slot = none)
    (hop : op.bank = .temporary) : family = .vldst ∧ slot = .dest := by
  cases h with
  | named name' hname' => exact absurd (hname'.symm.trans hname) (by simp)
  | internal _ hbank => exact absurd (hbank.symm.trans hop) Bank.noConfusion
  | absent _ hbank => exact absurd (hop ▸ hbank) (by decide)
  | data hfamily hslot => exact ⟨hfamily, hslot⟩

theorem name?_maskTest (hf : f.layout = Family.vtstmsk.layout) {second : Bool} {slot : OperandSlot}
    {name : RegisterName} (hname : name? .vtstmsk f second slot = some name) :
    name.width f = 7 ∧ name.doubled = decide (f.get 'l' = 0) := by
  cases slot with
  | src0 => exact absurd hname (by simp [name?])
  | src1 =>
    obtain rfl := Option.some.inj hname
    exact ⟨by simp [RegisterName.width, width_of_span hf 'h' rfl], rfl⟩
  | src2 =>
    obtain rfl := Option.some.inj hname
    exact ⟨by simp [RegisterName.width, width_of_span hf 'j' rfl], rfl⟩
  | dest =>
    obtain rfl := Option.some.inj hname
    exact ⟨by simp [RegisterName.width, width_of_span hf 'f' rfl], rfl⟩

/-- Mask tests on floats follow the rule, and those on integers where a name is none of the four
highest; all their temporaries are what they are named. -/
theorem Traced.maskTest (hf : f.layout = Family.vtstmsk.layout) {second : Bool}
    {slot : OperandSlot} {op : Operand} {name : RegisterName}
    (h : Traced .vtstmsk f false second slot op) (hname : name? .vtstmsk f second slot = some name) :
    (¬ (f.get 'l' ≠ 0 ∧ name.IsTop f) → name.AliasesTop f op) ∧
      (f.get 'l' ≠ 0 → name.bank = .temporary → op.bank = .temporary ∧ op.num = name.number f) := by
  have hfrom : op.From ⟨name.doubled, 8, false⟩ name.bank (name.number f) := by
    cases h with
    | named name' hname' hwidth hop =>
      obtain rfl := Option.some.inj (hname'.symm.trans hname)
      exact hop
    | internal hnone | absent hnone => exact absurd (hnone.symm.trans hname) (by simp)
    | data hfamily => exact absurd hfamily Family.noConfusion
  obtain ⟨hwidth, hdoubled⟩ := name?_maskTest hf hname
  have hlt := name.number_lt f
  rw [hwidth] at hlt
  by_cases hgroup : f.get 'l' = 0
  · simp only [hgroup, decide_true] at hdoubled
    have hbits : 8 = name.width f + name.doubled.toNat := by rw [hwidth, hdoubled]; rfl
    exact ⟨fun _ => RegisterName.aliasesTop_of_from rfl rfl hbits (.inr hwidth) hfrom,
      fun hne => absurd hgroup hne⟩
  · simp only [hgroup, decide_false] at hdoubled
    rw [hdoubled] at hfrom
    have hlane : name.lane f = name.number f := by
      rw [RegisterName.lane, hdoubled]
      rfl
    have htemporary (hbank : name.bank = .temporary) :
        op.bank = .temporary ∧ op.num = name.number f := by
      have hstart : ¬ (RegisterField.mk false 8 false).internalStart ≤ name.number f := by
        rw [RegisterField.internalStart]
        simp
        omega
      rw [hfrom.bank, hfrom.num, hbank, RegisterField.operand_of_ne rfl (by decide)]
      simp [RegisterField.aliasInternal, RegisterField.scale, hstart]
    refine ⟨fun hno => ?_, fun _ => htemporary⟩
    have htop : ¬ name.IsTop f := fun htop => hno ⟨hgroup, htop⟩
    refine ⟨fun hop => ⟨?_, htop⟩, fun hbank _ => hlane ▸ htemporary hbank, fun h => absurd h htop⟩
    rw [hfrom.bank] at hop
    exact RegisterField.bank_operand_temporary rfl hop

end Decode

/-- The operands of a word of a primary program are the registers that it names, where the four
highest temporaries are the internal registers, exactly if the word is no mask test on integers or
the name is none of those four.  In such a test all names are of temporaries.  Where the word names
no register, none is a temporary, except that transfers have a data register. -/
theorem decode_aliases_top {w : Word} {i : Instruction} (decoded : decode w false = .ok i) :
    ∃ family, Family.ofWord? w = some family ∧
      ∀ second o, i.operation? second = some o → ∀ slot,
        match Decode.name? family ⟨w, family.layout⟩ second slot with
        | some name =>
          (name.AliasesTop ⟨w, family.layout⟩ (o.operand slot) ↔
            ¬ (Decode.Unaliased family ⟨w, family.layout⟩ ∧ name.IsTop ⟨w, family.layout⟩)) ∧
          (Decode.Unaliased family ⟨w, family.layout⟩ → name.bank = .temporary →
            (o.operand slot).bank = .temporary ∧
              (o.operand slot).num = name.number ⟨w, family.layout⟩)
        | none => (o.operand slot).bank = .temporary → family = .vldst ∧ slot = .dest := by
  obtain ⟨family, hfamily, hfollows⟩ := decode_follows decoded
  refine ⟨family, hfamily, fun second o ho slot => ?_⟩
  have htraced := (hfollows.formed second o ho).operand slot
  split
  · rename_i name hname
    by_cases hmask : family = .vtstmsk
    · subst hmask
      obtain ⟨haliases, hkept⟩ := htraced.maskTest rfl hname
      refine ⟨⟨fun halias ⟨⟨_, hgroup⟩, htop⟩ => ?_, fun hno => haliases fun ⟨hg, ht⟩ =>
        hno ⟨⟨rfl, hg⟩, ht⟩⟩, fun ⟨_, hgroup⟩ => hkept hgroup⟩
      exact absurd ((halias.internal htop).1.symm.trans (hkept hgroup htop.1).1) Bank.noConfusion
    · exact ⟨⟨fun _ h => hmask h.1.1, fun _ => htraced.aliasesTop hmask hname⟩,
        fun h => absurd h.1 hmask⟩
  · rename_i hnone
    exact htraced.transfer hnone

/-- The same number, the first of the four highest, is a temporary of a mask test on integers and an
internal register of one on floats. -/
theorem decode_aliases_top_maskTests :
    (∃ i, decode 0x780000000f9c0082 false = .ok i ∧ i.dest.bank = .temporary ∧ i.dest.num = 124) ∧
      ∃ i, decode 0x780080200f938082 false = .ok i ∧ i.dest.bank = .internal ∧ i.dest.num = 0 := by
  have decoded (w : Word) (hword : Family.ofWord? w = some .vtstmsk)
      (h : (Decode.testMask ⟨w, Family.vtstmsk.layout⟩ false).isOk = true) :
      ∃ i, decode w false = .ok i := by
    rw [decode, hword]
    show ∃ i, (Decode.testMask ⟨w, Family.vtstmsk.layout⟩ false).mapError _ = .ok i
    cases hw : Decode.testMask ⟨w, Family.vtstmsk.layout⟩ false with
    | ok i => exact ⟨i, rfl⟩
    | error e =>
      rw [hw] at h
      exact absurd h Bool.false_ne_true
  constructor
  · have hword : Family.ofWord? 0x780000000f9c0082 = some .vtstmsk := by decide +kernel
    obtain ⟨i, hi⟩ := decoded _ hword (by decide +kernel)
    obtain ⟨family, hfamily, h⟩ := decode_aliases_top hi
    obtain rfl : .vtstmsk = family := Option.some.inj (hword.symm.trans hfamily)
    have hdest := (h false _ rfl .dest).2 ⟨rfl, by decide +kernel⟩ (by decide +kernel)
    exact ⟨i, hi, hdest.1, hdest.2.trans (by decide +kernel)⟩
  · have hword : Family.ofWord? 0x780080200f938082 = some .vtstmsk := by decide +kernel
    obtain ⟨i, hi⟩ := decoded _ hword (by decide +kernel)
    obtain ⟨family, hfamily, h⟩ := decode_aliases_top hi
    obtain rfl : .vtstmsk = family := Option.some.inj (hword.symm.trans hfamily)
    have hdest := (h false _ rfl .dest).1.2 fun hno => absurd (by decide +kernel) hno.1.2
    obtain ⟨hbank, hnum⟩ := hdest.internal ⟨by decide +kernel, by decide +kernel⟩
    exact ⟨i, hi, hbank, Nat.add_right_cancel (m := 128) (hnum.trans (by decide +kernel))⟩

end Microcode
