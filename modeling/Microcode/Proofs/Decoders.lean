import Microcode.Proofs.Decoding
import Microcode.Proofs.Families

/-!
What the decoder answers, family by family.

A word names the register of an operand by the code of a bank and by a number, which may count pairs
of lanes; `RegisterName` lists the bits of each operand.  `Decode.fault?` collects what the tables of
a family find wrong with a word.  Where it finds nothing there is an instruction, which follows the
word: its operands are those that the word names, its masks and repeats keep to the width of their
fields, and it is regular.
-/

namespace Microcode

open List

variable {bank : Bank} {start num : Nat} {family : Family}

/-! ## Names -/

/-- Number of bits that carry a label. -/
def Fields.width (f : Fields) (label : Char) : Nat := (f.layout.positions label).length

/-- A register as a word names it: its bank, the labels of the bits of its number, the highest first,
and whether the number counts pairs of lanes. -/
structure RegisterName where
  bank : Bank
  labels : List Char
  doubled : Bool

namespace RegisterName

variable (name : RegisterName) (f : Fields)

def width : Nat := (name.labels.map f.width).sum

def number : Nat := name.labels.foldl (fun n label => n * 2 ^ f.width label + f.get label) 0

/-- The lane that the number stands for. -/
def lane : Nat := if name.doubled then 2 * name.number f else name.number f

theorem number_lt : name.number f < 2 ^ name.width f := by
  have general (labels : List Char) (n w : Nat) (h : n < 2 ^ w) :
      labels.foldl (fun n label => n * 2 ^ f.width label + f.get label) n <
        2 ^ (w + (labels.map f.width).sum) := by
    induction labels generalizing n w with
    | nil => exact h
    | cons label rest ih =>
      have hlabel : f.get label < 2 ^ f.width label := f.word.gather_lt _
      rw [foldl_cons, map_cons, sum_cons, ← Nat.add_assoc]
      apply ih
      rw [Nat.pow_add]
      calc n * 2 ^ f.width label + f.get label
          < n * 2 ^ f.width label + 2 ^ f.width label := Nat.add_lt_add_left hlabel _
        _ = (n + 1) * 2 ^ f.width label := by rw [Nat.add_mul, Nat.one_mul]
        _ ≤ 2 ^ w * 2 ^ f.width label := Nat.mul_le_mul_right _ h
  have := general name.labels 0 0 (by decide)
  rwa [Nat.zero_add] at this

end RegisterName

/-- An operand with the register of a field. -/
structure Operand.From (op : Operand) (regs : RegisterField) (b : Bank) (n : Nat) : Prop where
  bank : op.bank = (regs.operand b n 0).bank
  num : op.num = (regs.operand b n 0).num

/-! ## Operands -/

theorem Quad.get_le {q : Quad Nat} {bound : Nat} (hx : q.x ≤ bound) (hy : q.y ≤ bound)
    (hz : q.z ≤ bound) (hw : q.w ≤ bound) (k : Nat) : q.get k ≤ bound := by
  unfold get
  split
  · exact hx
  · exact hy
  · exact hz
  · exact hw

/-- The places of operands in an operation. -/
inductive OperandSlot where
  | src0
  | src1
  | src2
  | dest
  deriving DecidableEq, Repr

def Operation.operand (o : Operation) : OperandSlot → Operand
  | .src0 => o.src0
  | .src1 => o.src1
  | .src2 => o.src2
  | .dest => o.dest

def Opcode.isPack : Opcode → Bool
  | .vpck _ _ => true
  | _ => false

/-- Details other than a second operation, a transfer and the masks of a pack. -/
def Detail.isPlain : Detail → Bool
  | .dual _ | .memory .. | .pack .. => false
  | _ => true

def Detail.second? : Detail → Option Operation
  | .dual o => some o
  | _ => Option.none

/-- The operation of an instruction, or the second one of a dual-issue instruction. -/
def Instruction.operation? (i : Instruction) : Bool → Option Operation
  | false => some i.toOperation
  | true => i.detail.second?

/-- A register that an instruction can name: not a special one, and internal registers are four. -/
structure Named (bank : Bank) (num : Nat) : Prop where
  special : bank ≠ .special
  internal : bank = .internal → num < 4

theorem Named.of_ne (special : bank ≠ .special) (internal : bank ≠ .internal) : Named bank num :=
  ⟨special, fun h => absurd h internal⟩

namespace RegisterField

theorem internal_restrict {f : RegisterField} (h : f.restrict bank = .internal) :
    bank = .internal := by
  rw [restrict] at h
  split at h
  · cases h
  · exact h

theorem internal_splitSpecial (h : (splitSpecial bank num).1 = .internal) :
    splitSpecial bank num = (.internal, num) := by
  rw [splitSpecial] at h ⊢
  split at h
  · split at h <;> cases h
  · rename_i hspecial
    simp only at h
    rw [if_neg hspecial, h]

/-- The number has the width of the field, once it is doubled. -/
def Fits (f : RegisterField) (num : Nat) : Prop :=
  (if f.doubled then 2 * num else num) < 1 <<< f.bits

theorem Fits.scale_lt {f : RegisterField} (h : f.Fits num) (bank : Bank) :
    f.scale bank num < 1 <<< f.bits := by
  rw [Fits] at h
  rw [scale]
  cases hdoubled : f.doubled with
  | false =>
    rw [hdoubled] at h
    exact h
  | true =>
    rw [hdoubled, if_pos rfl] at h
    split <;> omega

theorem internal_aliasInternal {f : RegisterField} (hbank : bank ≠ .internal)
    (hnum : num < 1 <<< f.bits) (h : (f.aliasInternal bank num).1 = .internal) :
    (f.aliasInternal bank num).2 < 4 := by
  rw [aliasInternal] at h ⊢
  split at h
  · rename_i htop
    rw [if_pos htop]
    simp only [internalStart]
    split <;> omega
  · exact absurd h hbank

/-- No field names an internal register but by the four numbers at the top of the temporaries. -/
theorem named_operand {f : RegisterField} (slot : Nat) (hbank : bank ≠ .internal)
    (hnum : f.Fits num) : Named (f.operand bank num slot).bank (f.operand bank num slot).num := by
  let named := f.aliasInternal bank (f.scale bank num)
  show Named (f.restrict (splitSpecial named.1 named.2).1) (splitSpecial named.1 named.2).2
  refine ⟨bank_operand (P := (· ≠ .special)) f num slot id nofun nofun fun _ => ⟨nofun, nofun⟩,
    fun h => ?_⟩
  have hsplit := internal_splitSpecial (internal_restrict h)
  have hinternal : named.1 = .internal := by
    rw [splitSpecial] at hsplit
    split at hsplit
    · split at hsplit <;> exact absurd (congrArg Prod.fst hsplit) (by simp)
    · exact congrArg Prod.fst hsplit
  rw [hsplit]
  exact internal_aliasInternal hbank (hnum.scale_lt bank) hinternal

end RegisterField

namespace Decode

/-- Names in one operation of a dual-issue word.  Sources that are not the unified one, and a
destination that is not, are internal registers named by fields of their own. -/
def dualName? (f : Fields) (op : DualOp) (slots : List SourceSlot) (unified : Bool) :
    OperandSlot → Option RegisterName
  | .dest => if unified then some ⟨.ofDest (f.get 'm') false, ['b'], op.vectorStore⟩ else none
  | .src0 => source 0
  | .src1 => source 1
  | .src2 => source 2
where
  source (index : Nat) : Option RegisterName :=
    if slots[index]? = some .unified then some ⟨.ofSource (f.get 'f') false, ['z'], op.vectorLoad⟩
    else none

/-- How the word of a family names the register of an operand; left out where the operand is absent,
or is an internal register, a predicate or the data register of a transfer. -/
def name? (family : Family) (f : Fields) (second : Bool) (slot : OperandSlot) : Option RegisterName :=
  match family, slot with
  | .vmov, slot =>
    let doubled := (moveElement (f.get 'o')).isFloat
    match slot with
    | .dest => some ⟨.ofDest (f.get 'l') (f.flag 'd'), ['j'], doubled⟩
    | .src1 => some ⟨.ofSource (f.get 'f') (f.flag 'c'), ['u'], doubled⟩
    | .src0 => if f.get 'm' = 0 then none
      else some ⟨.ofFirstSource (f.get 'k') (f.flag 'e'), ['q'], doubled⟩
    | .src2 => if f.get 'm' = 0 then none
      else some ⟨.ofSource (f.get 'g') (f.flag 'b'), ['v'], doubled⟩
  | .vmad, .dest => some ⟨.ofDest (f.get 'k') (f.flag 'd'), ['m'], true⟩
  | .vmad, .src1 => some ⟨.ofSource (f.get 'j') (f.flag 'r'), ['B'], true⟩
  | .vmad2, .dest => some ⟨.ofDest (f.get 't') false, ['h'], true⟩
  | .vmad2, .src0 => some ⟨.ofFirstSource (f.get 'k') false, ['l'], true⟩
  | .vmad2, .src1 => some ⟨.ofSource (f.get 'f') (f.flag 'b'), ['q'], true⟩
  | .vmad2, .src2 => some ⟨.ofSource (f.get 'g') (f.flag 'a'), ['u'], true⟩
  | .vnmad32, .dest | .vnmad16, .dest => some ⟨.ofDest (f.get 't') (f.flag 'd'), ['f'], true⟩
  | .vnmad32, .src1 | .vnmad16, .src1 => some ⟨.ofSource (f.get 'k') (f.flag 'b'), ['h'], true⟩
  | .vnmad32, .src2 | .vnmad16, .src2 => some ⟨.ofSource (f.get 'l') (f.flag 'a'), ['j'], true⟩
  | .vpck, .dest => some ⟨.ofDest (f.get 'b') (f.flag 'd'), ['g'], false⟩
  | .vpck, .src1 =>
    -- The numbers of floats count pairs; all others have one more bit.
    let isFloat := (packElement (f.get 'f')).isFloat
    some ⟨.ofSource (f.get 'k') (f.flag 'c'), if isFloat then ['q'] else ['q', 'v'], isFloat⟩
  | .vpck, .src2 => if packElement (f.get 'f') = .f32
    then some ⟨.ofSource (f.get 'l') (f.flag 'x'), ['w'], true⟩ else none
  | .vcomp, .dest => some ⟨.ofDest (f.get 't') (f.flag 'e'), ['g'], true⟩
  | .vcomp, .src1 => some ⟨.ofSource (f.get 'k') (f.flag 'r'), ['h'], true⟩
  | .vdp, .dest => some ⟨.ofDest (f.get 't') (f.flag 'd'), ['j'], true⟩
  | .vdp, .src1 => some ⟨.ofSource (f.get 'k') (f.flag 'r'), ['u'], true⟩
  | .vdual, slot => do
    let one ← dualOp? ((if !f.flag 'c' && f.flag 'd' then 8 else 0) + f.get 'a')
    let two ← secondOp? (8 * f.get 'l' + f.get 'o')
    if second then
      dualName? f two (← secondSources? one.sources two.sources (f.get 'h')) (!f.flag 'r') slot
    else dualName? f one (← firstSources? one.sources (f.get 'h')) (f.flag 'r') slot
  | .sop2, .dest | .sop2m, .dest => some ⟨.ofDest (f.get 't') (f.flag 'd'), ['q'], false⟩
  | .sop2, .src1 | .sop2m, .src1 => some ⟨.ofSource (f.get 'k') (f.flag 'r'), ['z'], false⟩
  | .sop2, .src2 | .sop2m, .src2 => some ⟨.ofSource (f.get 'j') (f.flag 'b'), ['A'], false⟩
  | .vtst, .src1 => some ⟨.ofSource (f.get 'k') (f.flag 'c'), ['j'], f.get 'l' = 0⟩
  | .vtst, .src2 => some ⟨.ofSource (f.get 'f') (f.flag 'e'), ['q'], f.get 'l' = 0⟩
  | .vtstmsk, .dest => some ⟨.ofDest (f.get 'b') (f.flag 'd'), ['f'], f.get 'l' = 0⟩
  | .vtstmsk, .src1 => some ⟨.ofSource (f.get 'n') (f.flag 'r'), ['h'], f.get 'l' = 0⟩
  | .vtstmsk, .src2 => some ⟨.ofSource (f.get 'k') (f.flag 'c'), ['j'], f.get 'l' = 0⟩
  | .vbw, .dest => some ⟨.ofDest (f.get 'k') (f.flag 'd'), ['j'], false⟩
  | .vbw, .src1 => some ⟨.ofSource (f.get 'f') (f.flag 'c'), ['q'], false⟩
  | .vbw, .src2 => some ⟨.ofSource (f.get 'g') (f.flag 'x'), ['u'], false⟩
  | .limm, .dest => some ⟨.ofDest (f.get 'b') (f.flag 'd'), ['t'], false⟩
  | .vldst, .src0 => some ⟨.ofFirstSource (f.get 'h') (f.flag 'r'), ['w'], false⟩
  | .vldst, .src1 => some ⟨.ofSource (f.get 'q') (f.flag 'b'), ['x'], false⟩
  | .vldst, .src2 => some ⟨.ofSource (f.get 'u') (f.flag 'a'), ['z'], false⟩
  | _, _ => none

/-- Bits that the number of a name is taken for. -/
def numberBits (family : Family) (f : Fields) (name : RegisterName) : Nat :=
  if family = .vtstmsk then 8 else name.width f + name.doubled.toNat

/-- Where a word has an operand from. -/
inductive Traced (family : Family) (f : Fields) (secondary second : Bool) (slot : OperandSlot)
    (op : Operand) : Prop
  | named (name : RegisterName) (hname : name? family f second slot = some name)
      (hwidth : name.width f = 6 ∨ name.width f = 7)
      (hop : op.From ⟨name.doubled, numberBits family f name, secondary⟩ name.bank (name.number f))
  | internal (hname : name? family f second slot = none) (hbank : op.bank = .internal)
      (hnum : op.num < 4)
  /-- No lanes, but perhaps a predicate. -/
  | absent (hname : name? family f second slot = none) (hbank : op.bank.isRegister = false)
      (hspecial : op.bank ≠ .special) (hnum : op.num < 4)
  /-- The data register of a transfer. -/
  | data (hfamily : family = .vldst) (hslot : slot = .dest) (hnamed : Named op.bank op.num)
      (hbank : secondary = true → op.bank = .secondaryAttribute) (hnum : op.num < 2 ^ 7)

/-- The operands of an operation, its masks and its repeats. -/
structure Formed (family : Family) (f : Fields) (secondary second : Bool) (o : Operation) :
    Prop where
  operand : ∀ slot, Traced family f secondary second slot (o.operand slot)
  destMask : o.destMask < 16
  sourceMask : o.sourceMask < 16
  repeatCount : o.repeatCount < 2 ^ 4
  multiplier : ∀ k, o.repeatMultiplier.get k ≤ 4

/-- The operations of an instruction, its transfer and the second mask of a pack.  Packs and dual-issue instructions have
families of their own. -/
structure Follows (family : Family) (f : Fields) (secondary : Bool) (i : Instruction) : Prop where
  formed : ∀ second o, i.operation? second = some o → Formed family f secondary second o
  transfer : ∀ element count expanded, i.detail = .memory element count expanded → count ≤ 2 ^ 4
  pack : i.opcode.isPack = true → family = .vpck
  dual : ∀ o, i.detail = .dual o → family = .vdual
  secondMask : ∀ scale mask, i.detail = .pack scale mask → mask < 16
  regular : i.Regular

/-- What the tables of a family find wrong with the fields of a word. -/
def fault? (family : Family) (f : Fields) : Option DecodeFault :=
  match family with
  | .vmov => if f.get 'm' < 3 then none else some .moveKind
  | .vpck =>
    let dest := packElement (f.get 't')
    let source := packElement (f.get 'f')
    if packable dest source then none else some (.pack dest source)
  | .vcomp =>
    if complexElement (f.get 'c') = .unknown || complexElement (f.get 'd') = .unknown
    then some .complexElement else none
  | .vtst =>
    if (testOperation? (f.get 'l') (f.get 'u') (f.flag 'a')).isNone then some .testOperation
    else if (comparison? (f.get 'z') (f.get 'i')).isNone then some .signTest
    else if 4 ≤ f.get 'h' then some (.testChannel (f.get 'h'))
    else none
  | .vtstmsk =>
    if (testOperation? (f.get 'l') (f.get 'g') (f.flag 'e')).isNone then some .testOperation
    else if (comparison? (f.get 'z') (f.get 'i')).isNone then some .signTest
    else if 3 ≤ f.get 'a' then some .maskElement
    else if f.flag 'w' then none
    else some .maskWriteDisabled
  | .vbw =>
    if (bitwiseOpcode? (f.get 'o') (f.flag 'a')).isNone then some (.bitwiseOperation (f.get 'o'))
    else none
  | .vldst =>
    if f.get 'o' = 1 ∨ f.get 'o' = 2 then if f.get 'f' < 3 then none else some .memoryElement
    else some (.memoryOperation (f.get 'o'))
  | .vdual =>
    match dualOp? ((if !f.flag 'c' && f.flag 'd' then 8 else 0) + f.get 'a') with
    | none => some .firstOperation
    | some first =>
      match secondOp? (8 * f.get 'l' + f.get 'o') with
      | none => some .secondOperation
      | some second =>
        if (firstSources? first.sources (f.get 'h')).isNone then some .firstSources
        else if (secondSources? first.sources second.sources (f.get 'h')).isNone
        then some .secondSources
        else none
  | _ => none

/-- The decoder answers with the fault, or with an instruction that follows the word. -/
def Answers (family : Family) (f : Fields) (secondary : Bool) (fault : Option DecodeFault)
    (x : Except DecodeFault Instruction) : Prop :=
  match fault with
  | some e => x = .error e
  | none => ∃ i, x = .ok i ∧ Follows family f secondary i

-- Fields are told apart by their labels, without going back to the word.
seal Fields.get

variable {f : Fields} {secondary second : Bool} {slot : OperandSlot} {op : Operand} {i : Instruction}

theorem name?_internal {name : RegisterName} (h : name? family f second slot = some name) :
    name.bank ≠ .internal := by
  have hdest (code : Nat) (extended : Bool) : Bank.ofDest code extended ≠ .internal := by
    unfold Bank.ofDest
    split <;> decide
  have hfirst (code : Nat) (extended : Bool) : Bank.ofFirstSource code extended ≠ .internal := by
    unfold Bank.ofFirstSource
    split <;> decide
  have hsource (code : Nat) (extended : Bool) : Bank.ofSource code extended ≠ .internal := by
    unfold Bank.ofSource
    split <;> decide
  have hdual {op : DualOp} {slots : List SourceSlot} {unified : Bool}
      (h : dualName? f op slots unified slot = some name) : name.bank ≠ .internal := by
    unfold dualName? dualName?.source at h
    repeat' split at h
    all_goals cases h <;> first | apply hdest | apply hsource
  unfold name? at h
  split at h
  case h_21 =>
    simp only [Option.bind_eq_bind, Option.bind_eq_some_iff] at h
    obtain ⟨one, -, two, -, h⟩ := h
    split at h <;>
    · obtain ⟨slots, -, h⟩ := Option.bind_eq_some_iff.1 h
      exact hdual h
  all_goals
    repeat' split at h
    all_goals cases h <;> first | apply hdest | apply hfirst | apply hsource

theorem Traced.isNamed (h : Traced family f secondary second slot op) : Named op.bank op.num := by
  cases h with
  | named name hname hwidth hop =>
    rw [hop.bank, hop.num]
    refine RegisterField.named_operand 0 (name?_internal hname) ?_
    have hlt := name.number_lt f
    rw [RegisterField.Fits, numberBits, Nat.one_shiftLeft]
    cases name.doubled <;> split <;> rcases hwidth with hw | hw <;> rw [hw] at hlt <;>
      simp [hw] <;> omega
  | internal _ hbank hnum => exact hbank ▸ ⟨by decide, fun _ => hnum⟩
  | absent _ hbank hspecial => exact .of_ne hspecial fun h => by simp [h, Bank.isRegister] at hbank
  | data _ _ hnamed => exact hnamed

theorem traced_none (hname : name? family f second slot = none) (index : Nat) :
    Traced family f secondary second slot { slot := index } :=
  .absent hname rfl Bank.noConfusion (Nat.zero_lt_succ 3)

theorem width_of_span (hf : f.layout = family.layout) (label : Char) {width : Nat}
    (h : family.spans.lookup label = some (start, width)) : f.width label = width := by
  obtain ⟨cs, hcs⟩ := family.exists_charted
  obtain ⟨before, after, hspans, -⟩ := lookup_eq_some_iff.1 h
  have hmem : (label, start, width) ∈ family.spans := by simp [hspans]
  rw [Fields.width, hf, hcs.spans label start width hmem, length_reverse, length_range']

theorem traced_field (hf : f.layout = family.layout) (label : Char) {doubled : Bool}
    (hname : name? family f second slot = some ⟨bank, [label], doubled⟩) {width bits : Nat}
    (hspan : family.spans.lookup label = some (start, width)) (hwidth : width = 6 ∨ width = 7)
    (hbits : bits = if family = .vtstmsk then 8 else width + doubled.toNat)
    (h : op.From ⟨doubled, bits, secondary⟩ bank (f.get label)) :
    Traced family f secondary second slot op := by
  have hnamed : (RegisterName.mk bank [label] doubled).width f = width := by
    simp [RegisterName.width, width_of_span hf label hspan]
  have hnumber : (RegisterName.mk bank [label] doubled).number f = f.get label := by
    simp [RegisterName.number]
  refine .named _ hname (hnamed ▸ hwidth) ?_
  rw [numberBits, hnamed, hnumber, ← hbits]
  exact h

theorem traced_either (hf : f.layout = family.layout) (hmask : family ≠ .vtstmsk) (label : Char)
    {doubled : Bool} (hname : name? family f second slot = some ⟨bank, [label], doubled⟩)
    (hspan : family.spans.lookup label = some (start, 7))
    (h : op.From ⟨doubled, if doubled = true then 8 else 7, secondary⟩ bank (f.get label)) :
    Traced family f secondary second slot op := by
  refine traced_field hf _ hname hspan (.inr rfl) ?_ h
  rw [if_neg hmask]
  cases doubled <;> rfl

/-! ## Answers -/

theorem usesSpecial_of_formed {o : Operation} (h : Formed family f secondary second o) :
    o.usesSpecial = false := by
  have special (slot : OperandSlot) := (h.operand slot).isNamed.special
  simp only [Operation.usesSpecial, Operation.operands, any_cons, any_nil,
    Bool.or_false, Bool.or_eq_false_iff, decide_eq_false_iff_not]
  exact ⟨special .src0, special .src1, special .src2, special .dest⟩

theorem Answers.ok (h : Follows family f secondary i) : Answers family f secondary none (.ok i) :=
  ⟨i, rfl, h⟩

theorem Answers.checked (h : Follows family f secondary i) :
    Answers family f secondary none (checked i) := by
  refine ⟨i, ?_, h⟩
  rw [Decode.checked, usesSpecial_of_formed (h.formed false _ rfl)]
  rfl

theorem formed_of_single (hdetail : i.detail.second? = Option.none)
    (h : Formed family f secondary false i.toOperation) (second : Bool) (o : Operation)
    (ho : i.operation? second = some o) : Formed family f secondary second o := by
  cases second with
  | false => exact Option.some.inj ho ▸ h
  | true => exact absurd (hdetail.symm.trans ho) (by simp)

theorem follows_of_plain (hplain : i.detail.isPlain = true) (hpack : i.opcode.isPack = false)
    (h : Formed family f secondary false i.toOperation) (hregular : i.Regular) :
    Follows family f secondary i := by
  have plain {d : Detail} (hd : i.detail = d) : d.isPlain = true := hd ▸ hplain
  refine ⟨formed_of_single ?_ h, fun _ _ _ hd => absurd (plain hd) Bool.false_ne_true,
    fun h => absurd (hpack.symm.trans h) Bool.false_ne_true,
    fun _ hd => absurd (plain hd) Bool.false_ne_true,
    fun _ _ hd => absurd (plain hd) Bool.false_ne_true, hregular⟩
  cases hd : i.detail with
  | dual o => exact absurd (plain hd) Bool.false_ne_true
  | _ => rfl

theorem multiplier_replicate {n : Nat} (h : n ≤ 4) (k : Nat) : (Quad.replicate n).get k ≤ 4 :=
  Quad.get_le h h h h k

theorem move_answers (hf : f.layout = Family.vmov.layout) :
    Answers .vmov f secondary (fault? .vmov f) (move f secondary) := by
  have hkinds := Family.get_lt hf 'm' rfl
  have hmask := Family.get_lt hf 'h' rfl
  have hrepeat := Nat.lt_trans (Family.get_lt hf 'a' rfl) (by decide : 2 ^ 2 < 2 ^ 4)
  have hbits (doubled : Bool) : (if doubled = true then 7 else 6) = 6 + doubled.toNat := by
    cases doubled <;> rfl
  have named {slot : OperandSlot} {label : Char} {bank : Bank}
      (hname : name? .vmov f false slot =
        some ⟨bank, [label], (moveElement (f.get 'o')).isFloat⟩) {start : Nat}
      (hspan : Family.vmov.spans.lookup label = some (start, 6)) {op : Operand}
      (hop : op.From ⟨(moveElement (f.get 'o')).isFloat,
        if (moveElement (f.get 'o')).isFloat = true then 7 else 6, secondary⟩ bank (f.get label)) :
      Traced .vmov f secondary false slot op :=
    traced_field hf _ hname hspan (.inl rfl) (hbits _) hop
  have hmultiplier (c : Bool) : (if c = true then 2 else 1) ≤ 4 := by cases c <;> decide
  obtain hkind | hkind | hkind :
      f.get 'm' = 0 ∨ (f.get 'm' = 1 ∨ f.get 'm' = 2) ∨ f.get 'm' = 3 := by omega
  · simp only [move, fault?, hkind, pure_bind]
    refine .checked (follows_of_plain rfl rfl ⟨fun slot => ?_, hmask, hmask, hrepeat,
      multiplier_replicate (hmultiplier _)⟩ ⟨_, by simp, rfl⟩)
    cases slot with
    | src0 | src2 => exact traced_none (by simp only [name?, hkind, if_true]) _
    | src1 | dest => exact named rfl rfl ⟨rfl, rfl⟩
  · have hconditional : f.get 'm' ≠ 0 := by omega
    rcases hkind with hkind | hkind <;>
    · simp only [move, fault?, hkind, pure_bind]
      refine .checked (follows_of_plain rfl rfl ⟨fun slot => ?_, hmask, hmask, hrepeat,
        multiplier_replicate (hmultiplier _)⟩ ⟨⟨_, by simp, rfl⟩, _, ⟨by simp, rfl⟩,
        ⟨by simp, rfl⟩, fun h => (nomatch h), .later rfl rfl rfl⟩)
      cases slot with
      | src0 | src2 =>
        refine named ?_ rfl ⟨rfl, rfl⟩
        simp only [name?, if_neg hconditional]
      | src1 | dest => exact named rfl rfl ⟨rfl, rfl⟩
  · simp only [move, fault?, hkind]
    rfl

theorem multiplyAddInternal_answers (hf : f.layout = Family.vmad.layout) :
    Answers .vmad f secondary none (multiplyAddInternal f secondary) := by
  have hmask := Family.get_lt hf 'w' rfl
  have hrepeat := Nat.lt_trans (Family.get_lt hf 't' rfl) (by decide : 2 ^ 2 < 2 ^ 4)
  have hmultiplier (k : Nat) : (⟨2, 2, 2, 4⟩ : Quad Nat).get k ≤ 4 :=
    Quad.get_le (by decide) (by decide) (by decide) (by decide) k
  refine .checked (follows_of_plain rfl rfl ⟨fun slot => ?_, hmask, hmask, hrepeat, hmultiplier⟩
    ⟨⟨by simp, rfl⟩, ⟨by simp, rfl⟩, ⟨by simp, rfl⟩, nofun⟩)
  cases slot with
  | src0 => exact .internal rfl rfl (Family.get_lt hf 'l' rfl)
  | src2 => exact .internal rfl rfl (Family.get_lt hf 'v' rfl)
  | src1 | dest => exact traced_field hf _ rfl rfl (.inl rfl) rfl ⟨rfl, rfl⟩

theorem writeMask_lt {mask : Nat} (bank : Bank) (half : Bool) (h : mask < 16) :
    writeMask bank mask half < 16 := by
  have table : ∀ low ∈ [0, 3], ∀ high ∈ [0, 12], low ||| high < 16 := by decide
  rw [writeMask]
  split
  · exact h
  · split
    · apply table
      · split <;> decide
      · split <;> decide
    · exact Nat.lt_of_le_of_lt Nat.and_le_left h

theorem scalar_half (half : Bool) : (if half = true then Element.f16 else .f32).scalar = .f32 := by
  cases half <;> rfl

theorem multiplyAdd_answers (hf : f.layout = Family.vmad2.layout) :
    Answers .vmad2 f secondary none (multiplyAdd f secondary) := by
  rw [multiplyAdd]
  generalize f.flag 'd' = half
  have hscalar := scalar_half half
  have hmask := writeMask_lt ((RegisterField.mk true 7 secondary).dest (f.get 'h') (f.get 't')
    false).bank half (Family.get_lt hf 'e' rfl)
  cases half <;>
  · refine .checked (follows_of_plain rfl rfl ⟨fun slot => ?_, hmask, hmask, Nat.two_pow_pos 4,
      multiplier_replicate (by decide)⟩
      ⟨⟨by simp, hscalar⟩, ⟨by simp, hscalar⟩, ⟨by simp, hscalar⟩, nofun⟩)
    cases slot <;> exact traced_field hf _ rfl rfl (.inl rfl) rfl ⟨rfl, rfl⟩

/-- Opcodes on two sources of floats. -/
def isTwoSource : Opcode → Bool
  | .vmul | .vadd | .vfrc | .vdsx | .vdsy | .vmin | .vmax | .vdp
  | .vf16mul | .vf16add | .vf16frc | .vf16dsx | .vf16dsy | .vf16min | .vf16max | .vf16dp => true
  | _ => false

theorem isTwoSource_opcode (half : Bool) (code : Nat) :
    isTwoSource (if half = true then halfOpcode code else fullOpcode code) = true := by
  have hhalf : isTwoSource (halfOpcode code) = true := by
    unfold halfOpcode
    split <;> rfl
  have hfull : isTwoSource (fullOpcode code) = true := by
    unfold fullOpcode
    split <;> rfl
  cases half with
  | true => exact hhalf
  | false => exact hfull

theorem follows_of_twoSource (hplain : i.detail.isPlain = true)
    (hopcode : isTwoSource i.opcode = true) (h : Formed family f secondary false i.toOperation)
    (hsources : i.src1.Reads .f32 ∧ i.src2.Reads .f32 ∧ i.src1.Alike i.src2) : Follows family f secondary i := by
  have hregular : i.Regular := by
    unfold Instruction.Regular
    split
    case h_1 second hdual =>
      rw [hdual] at hplain
      cases hplain
    case h_2 =>
      generalize i.opcode = opcode at hopcode
      cases opcode with
      | vmul | vadd | vfrc | vdsx | vdsy | vmin | vmax | vdp
      | vf16mul | vf16add | vf16frc | vf16dsx | vf16dsy | vf16min | vf16max | vf16dp =>
        exact hsources
      | _ => cases hopcode
  refine follows_of_plain hplain ?_ h hregular
  generalize i.opcode = opcode at hopcode
  cases opcode with
  | vpck dest source => cases hopcode
  | _ => rfl

theorem twoSource_answers {half : Bool} (hfamily : family = .vnmad32 ∨ family = .vnmad16)
    (hf : f.layout = family.layout) :
    Answers family f secondary none (twoSource f half secondary) := by
  have hplain (c : Prop) [Decidable c] :
      (if c then Detail.dot false else Detail.none).isPlain = true := by split <;> rfl
  have hscalar := scalar_half half
  rcases hfamily with rfl | rfl <;>
  · have hmask := Family.get_lt hf 'e' rfl
    refine .checked (follows_of_twoSource (hplain _) (isTwoSource_opcode half _) ⟨fun slot => ?_,
      hmask, ?_, Nat.two_pow_pos 4, multiplier_replicate (by decide)⟩
      ⟨⟨by simp, hscalar⟩, ⟨by simp, hscalar⟩, .later rfl rfl rfl⟩)
    · cases slot with
      | src0 => exact traced_none rfl _
      | src1 | src2 | dest => exact traced_field hf _ rfl rfl (.inl rfl) rfl ⟨rfl, rfl⟩
    · show (if _ then _ else _) < 16
      split
      · decide
      · exact hmask

theorem dotProduct_answers (hf : f.layout = Family.vdp.layout) :
    Answers .vdp f secondary none (dotProduct f secondary) := by
  have hrepeat := Nat.lt_trans (Family.get_lt hf 'a' rfl) (by decide : 2 ^ 2 < 2 ^ 4)
  refine .checked (follows_of_plain rfl rfl ⟨fun slot => ?_, Family.get_lt hf 'w' rfl, ?_, hrepeat,
    multiplier_replicate (by decide)⟩ ⟨⟨by simp, rfl⟩, ⟨by simp, rfl⟩, .later rfl rfl rfl⟩)
  · cases slot with
    | src0 => exact traced_none rfl _
    | src2 => exact .internal rfl rfl (Family.get_lt hf 'h' rfl)
    | src1 | dest => exact traced_field hf _ rfl rfl (.inl rfl) rfl ⟨rfl, rfl⟩
  · show (if _ then _ else _) < 16
    split <;> decide

theorem complexElement_scalar {code : Nat} (h : complexElement code ≠ .unknown) :
    (complexElement code).scalar = .f32 := by
  unfold complexElement at h ⊢
  split at h <;> rfl

theorem complex_answers (hf : f.layout = Family.vcomp.layout) :
    Answers .vcomp f secondary (fault? .vcomp f) (complex f secondary) := by
  have shifted : ∀ n < 4, 1 <<< n < 16 := by decide
  simp only [complex, fault?]
  split
  · rfl
  · rename_i hknown
    simp only [Bool.or_eq_true, decide_eq_true_eq, not_or] at hknown
    have hscalar := complexElement_scalar hknown.1
    split
    all_goals
      refine .checked (follows_of_plain rfl rfl ⟨fun slot => ?_, Family.get_lt hf 'w' rfl,
        shifted _ (Family.get_lt hf 'f' rfl), Family.get_lt hf 'a' rfl,
        multiplier_replicate (by decide)⟩ ⟨by simp, hscalar⟩)
      cases slot with
      | src0 | src2 => exact traced_none rfl _
      | src1 | dest => exact traced_field hf _ rfl rfl (.inr rfl) rfl ⟨rfl, rfl⟩

/-! ## Packs -/

theorem firstComponent_lt (mask : Mask) : firstComponent mask < 4 := by
  rw [firstComponent]
  cases h : Mask.components mask with
  | nil => decide
  | cons i rest =>
    have hmem : i ∈ Mask.components mask := by rw [h]; exact mem_cons_self
    exact mem_range.1 (mem_filter.1 hmem).1

/-- Two neighbouring bits, moved down and up again, select at most two components. -/
theorem count_moved_le (down : Nat) {x load up : Nat}
    (hload : load = 0 ∨ load = 1 ∨ load = 2 ∨ load = 3 ∨ load = 12) (hdown : down ≤ 2)
    (hup : up < 4) : Mask.count (((x &&& load) >>> down) <<< up) ≤ 2 := by
  have all : ∀ load ∈ [0, 1, 2, 3, 12], ∀ y < 16, y &&& load = y → ∀ down < 3, ∀ up < 4,
      Mask.count ((y >>> down) <<< up) ≤ 2 := by decide
  have hmem : load ∈ [0, 1, 2, 3, 12] := by simpa using hload
  have hlt : x &&& load < 16 := by
    have hle : x &&& load ≤ load := Nat.and_le_right
    omega
  exact all load hmem (x &&& load) hlt (by rw [Nat.and_assoc, Nat.and_self]) down
    (Nat.lt_succ_of_le hdown) up hup

theorem splitSources_count (destMask : Mask) (first second : Operand)
    (h : (splitSources destMask first second).secondMask ≠ 0) :
    Mask.count (splitSources destMask first second).firstMask +
      Mask.count (splitSources destMask first second).secondMask ≤ 4 := by
  have hcount : Mask.count destMask ≤ 4 := Nat.le_trans (length_filter_le _ _) (by simp)
  have hstart := firstComponent_lt destMask
  rw [splitSources] at h ⊢
  split at h
  · rename_i hsplit
    rw [if_pos hsplit]
    refine Nat.add_le_add (b := 2) (d := 2) ?_ ?_
    · refine count_moved_le 0 ?_ (by omega) hstart
      split <;> simp
    · refine count_moved_le _ ?_ (by omega) hstart
      split <;> simp
  · exact absurd rfl h

/-- Bits that are cut from a number and put back no higher give no larger number. -/
theorem moved_le (x load up down : Nat) : ((x >>> up &&& load) >>> down) <<< up ≤ x := by
  have hcut : (x >>> up &&& load) >>> down ≤ x >>> up :=
    Nat.le_trans (Nat.shiftRight_le ..) Nat.and_le_left
  rw [Nat.shiftLeft_eq]
  apply Nat.le_trans (Nat.mul_le_mul_right _ hcut)
  rw [Nat.shiftRight_eq_div_pow]
  exact Nat.div_mul_le_self ..

theorem splitSources_le (destMask : Mask) (first second : Operand) :
    (splitSources destMask first second).firstMask ≤ destMask ∧
      (splitSources destMask first second).secondMask ≤ destMask := by
  rw [splitSources]
  split
  · exact ⟨moved_le destMask _ _ 0, moved_le ..⟩
  · exact ⟨Nat.le_refl _, Nat.zero_le _⟩

/-- The numbers of integers are divided between two labels. -/
theorem traced_packed (hf : f.layout = Family.vpck.layout)
    (hname : name? .vpck f second slot = some ⟨bank, ['q', 'v'], false⟩)
    (h : op.From ⟨false, 7, secondary⟩ bank (f.get 'v' + 2 * f.get 'q')) :
    Traced .vpck f secondary second slot op := by
  have hq : f.width 'q' = 6 := width_of_span hf 'q' rfl
  have hv : f.width 'v' = 1 := width_of_span hf 'v' rfl
  have hwidth : (RegisterName.mk bank ['q', 'v'] false).width f = 7 := by
    simp [RegisterName.width, hq, hv]
  have hnumber : (RegisterName.mk bank ['q', 'v'] false).number f = f.get 'v' + 2 * f.get 'q' := by
    simp only [RegisterName.number, foldl_cons, foldl_nil, hq, hv]
    omega
  refine .named _ hname (.inr hwidth) ?_
  rw [numberBits, hwidth, hnumber]
  exact h

theorem pack_answers (hf : f.layout = Family.vpck.layout) :
    Answers .vpck f secondary (fault? .vpck f) (pack f secondary) := by
  have hmask := Family.get_lt hf 'm' rfl
  have hrepeat := Nat.lt_trans (Family.get_lt hf 'a' rfl) (by decide : 2 ^ 3 < 2 ^ 4)
  have hmultiplier (c : Bool) (k : Nat) :
      (if c = true then (⟨1, 2, 2, 1⟩ : Quad Nat) else .replicate 1).get k ≤ 4 := by
    cases c with
    | true => exact Quad.get_le (by decide) (by decide) (by decide) (by decide) k
    | false => exact multiplier_replicate (by decide) k
  have hdest {op : Operand} (hop : op.From ⟨false, 7, secondary⟩ (.ofDest (f.get 'b') (f.flag 'd'))
      (f.get 'g')) : Traced .vpck f secondary false .dest op :=
    traced_field hf _ rfl rfl (.inr rfl) rfl hop
  -- The numbers of floats count pairs, those of integers have one more bit.
  have hsrc1 {op : Operand} (hop : op.From ⟨(packElement (f.get 'f')).isFloat, 7, secondary⟩
      (.ofSource (f.get 'k') (f.flag 'c')) (if (packElement (f.get 'f')).isFloat = true
        then f.get 'q' else f.get 'v' + 2 * f.get 'q')) : Traced .vpck f secondary false .src1 op := by
    cases hfloat : (packElement (f.get 'f')).isFloat with
    | true =>
      rw [hfloat] at hop
      refine traced_field hf 'q' ?_ rfl (.inl rfl) rfl hop
      simp only [name?, hfloat, if_true]
    | false =>
      rw [hfloat] at hop
      refine traced_packed hf ?_ hop
      simp only [name?, hfloat, Bool.false_eq_true, if_false]
  have single {i : Instruction} {scale : Bool} {secondMask : Mask}
      (hdetail : i.detail = .pack scale secondMask)
      (h : Formed .vpck f secondary false i.toOperation) (hsecond : secondMask < 16)
      (hregular : i.Regular) : Follows .vpck f secondary i := by
    refine ⟨formed_of_single (hdetail ▸ rfl) h, fun _ _ _ hd => ?_, fun _ => rfl, fun _ hd => ?_,
      fun _ _ hd => ?_, hregular⟩
    · exact Detail.noConfusion (hdetail.symm.trans hd)
    · exact Detail.noConfusion (hdetail.symm.trans hd)
    · cases hdetail.symm.trans hd
      exact hsecond
  simp only [pack, fault?]
  cases packable (packElement (f.get 't')) (packElement (f.get 'f')) with
  | false => rfl
  | true =>
    by_cases hwide : packElement (f.get 'f') = .f32
    · simp only [if_pos hwide]
      have hsplit := splitSources_le (f.get 'm')
      refine .checked (single rfl ⟨fun slot => ?_, hmask, Nat.lt_of_le_of_lt (hsplit _ _).1 hmask,
        hrepeat, hmultiplier _⟩ (Nat.lt_of_le_of_lt (hsplit _ _).2 hmask)
        ⟨⟨by simp, rfl⟩, fun scale secondMask hdetail hsecond => ?_⟩)
      · cases slot with
        | src0 => exact traced_none rfl _
        | src1 => exact hsrc1 ⟨rfl, rfl⟩
        | src2 =>
          refine traced_field hf 'w' ?_ rfl (.inl rfl) rfl ⟨rfl, rfl⟩
          simp only [name?, if_pos hwide]
        | dest => exact hdest ⟨rfl, rfl⟩
      · cases hdetail
        exact ⟨⟨by simp, rfl⟩, splitSources_count _ _ _ hsecond⟩
    · simp only [if_neg hwide]
      refine .checked (single rfl ⟨fun slot => ?_, hmask, hmask, hrepeat, hmultiplier _⟩ (by decide)
        ⟨?_, fun scale secondMask hdetail hsecond => ?_⟩)
      · cases slot with
        | src0 => exact traced_none rfl _
        | src1 =>
          refine hsrc1 ?_
          simp only [Operation.operand]
          split <;> exact ⟨rfl, rfl⟩
        | src2 => exact traced_none (by simp only [name?, if_neg hwide]) _
        | dest => exact hdest ⟨rfl, rfl⟩
      · simp only
        split <;> exact ⟨by simp, rfl⟩
      · cases hdetail
        exact absurd rfl hsecond

/-! ## Tests -/

theorem testOperation?_scalar {group code : Nat} {full : Bool} {op : TestOp} {element : Element}
    (h : testOperation? group code full = some (op, element)) (hop : op.anyScalar = false) :
    element.scalar = .f32 := by
  have hfloat : (if full = true then Element.f32 else .f16).scalar = .f32 := by cases full <;> rfl
  unfold testOperation? at h
  generalize (if full = true then Element.f32 else .f16) = float at h hfloat
  split at h <;> simp only [Option.some.injEq, Prod.mk.injEq, reduceCtorEq] at h
  all_goals
    obtain ⟨rfl, rfl⟩ := h
    first | exact hfloat | cases hop

theorem regular_of_test (hopcode : i.opcode = .vtst ∨ i.opcode = .vtstmsk) {op : TestOp}
    {comparison : Comparison} {mask? : Option Element} (hdetail : i.detail = .test op comparison mask?)
    (h : i.Pair op.anyScalar) : i.Regular := by
  unfold Instruction.Regular
  rw [hdetail]
  rcases hopcode with hopcode | hopcode <;>
  · rw [hopcode]
    intro op' comparison' mask?' hsame
    cases hsame
    exact h

theorem testPredicate_answers (hf : f.layout = Family.vtst.layout) :
    Answers .vtst f secondary (fault? .vtst f) (testPredicate f secondary) := by
  simp only [testPredicate, fault?]
  cases htest : testOperation? (f.get 'l') (f.get 'u') (f.flag 'a') with
  | none => rfl
  | some test =>
    have hscalar := testOperation?_scalar htest
    cases comparison? (f.get 'z') (f.get 'i') with
    | none => rfl
    | some comparison =>
      by_cases hchannel : 4 ≤ f.get 'h'
      · simp only [if_pos hchannel]
        rfl
      · simp only [if_neg hchannel]
        have shifted : ∀ n < 4, 1 <<< n < 16 := by decide
        have hbits : (if f.get 'l' = 0 then 8 else 7) =
            if decide (f.get 'l' = 0) = true then 8 else 7 := by
          simp only [decide_eq_true_eq]
        refine .checked (follows_of_plain rfl rfl ⟨fun slot => ?_, (by decide : 1 < 16),
          shifted _ (Nat.lt_of_not_le hchannel), Nat.two_pow_pos 4, multiplier_replicate (by decide)⟩
          (regular_of_test (.inl rfl) rfl
            ⟨test.2.scalar, ⟨by simp, rfl⟩, ⟨by simp, rfl⟩, hscalar, .later rfl rfl rfl⟩))
        cases slot with
        | src0 => exact traced_none rfl _
        | dest => exact .absent rfl rfl Bank.noConfusion (Family.get_lt hf 'n' rfl)
        | src1 | src2 =>
          refine traced_either hf Family.noConfusion _ rfl rfl ?_
          rw [← hbits]
          exact ⟨rfl, rfl⟩

/-- Whatever a mask test is on, its numbers are read as ones of eight bits. -/
theorem testMask_answers (hf : f.layout = Family.vtstmsk.layout) :
    Answers .vtstmsk f secondary (fault? .vtstmsk f) (testMask f secondary) := by
  have hmasks := Family.get_lt hf 'a' rfl
  simp only [testMask, fault?]
  cases htest : testOperation? (f.get 'l') (f.get 'g') (f.flag 'e') with
  | none => rfl
  | some test =>
    have hscalar := testOperation?_scalar htest
    cases comparison? (f.get 'z') (f.get 'i') with
    | none => rfl
    | some comparison =>
      obtain hmask | hmask | hmask | hmask :
        f.get 'a' = 0 ∨ f.get 'a' = 1 ∨ f.get 'a' = 2 ∨ f.get 'a' = 3 := by omega
      case inr.inr.inr =>
        simp only [hmask]
        rfl
      all_goals
        simp only [hmask]
        cases f.flag 'w' with
        | false => rfl
        | true =>
          refine .checked (follows_of_plain rfl rfl ⟨fun slot => ?_, (by decide : 15 < 16),
            (by decide : 15 < 16), Nat.two_pow_pos 4, multiplier_replicate (by decide)⟩
            (regular_of_test (.inr rfl) rfl
              ⟨test.2.scalar, ⟨by simp, rfl⟩, ⟨by simp, rfl⟩, hscalar, .later rfl rfl rfl⟩))
          cases slot with
          | src0 => exact traced_none rfl _
          | src1 | src2 | dest => exact traced_field hf _ rfl rfl (.inr rfl) rfl ⟨rfl, rfl⟩

/-! ## Words on single lanes -/

theorem bitwise_answers (hf : f.layout = Family.vbw.layout) :
    Answers .vbw f secondary (fault? .vbw f) (bitwise f secondary) := by
  simp only [bitwise, fault?]
  cases hopcode : bitwiseOpcode? (f.get 'o') (f.flag 'a') with
  | none => rfl
  | some opcode =>
    unfold bitwiseOpcode? at hopcode
    split at hopcode <;> cases hopcode
    all_goals
      refine .checked (follows_of_plain rfl rfl ⟨fun slot => ?_, (by decide : 1 < 16),
        (by decide : 1 < 16), Family.get_lt hf 'm' rfl, multiplier_replicate (by decide)⟩
        ⟨⟨by simp, rfl⟩, ⟨by simp, rfl⟩⟩)
      cases slot with
      | src0 => exact traced_none rfl _
      | src1 | src2 | dest => exact traced_field hf _ rfl rfl (.inr rfl) rfl ⟨rfl, rfl⟩

theorem literal_answers (hf : f.layout = Family.limm.layout) :
    Answers .limm f secondary none (literal f secondary) := by
  refine .checked (follows_of_plain rfl rfl ⟨fun slot => ?_, (by decide : 1 < 16),
    (by decide : 15 < 16), Nat.two_pow_pos 4, multiplier_replicate (by decide)⟩ trivial)
  cases slot with
  | src0 | src1 | src2 => exact traced_none rfl _
  | dest => exact traced_field hf _ rfl rfl (.inr rfl) rfl ⟨rfl, rfl⟩

theorem memory_answers (hf : f.layout = Family.vldst.layout) :
    Answers .vldst f secondary (fault? .vldst f) (memory f secondary) := by
  have hops := Family.get_lt hf 'o' rfl
  have helements := Family.get_lt hf 'f' rfl
  have hcount := Family.get_lt hf 'k' rfl
  have hdata (bad : Bank) (hbad : bad ∉ [.secondaryAttribute, .primaryAttribute, .temporary]) :
      (if secondary then .secondaryAttribute else if f.flag 't' then .primaryAttribute
        else .temporary) ≠ bad := by
    simp only [mem_cons, not_mem_nil, or_false, not_or] at hbad
    split
    · exact Ne.symm hbad.1
    · split
      · exact Ne.symm hbad.2.1
      · exact Ne.symm hbad.2.2
  obtain hop | hop | hop | hop :
      f.get 'o' = 0 ∨ f.get 'o' = 1 ∨ f.get 'o' = 2 ∨ f.get 'o' = 3 := by omega
  case inl | inr.inr.inr =>
    simp only [memory, fault?, hop]
    rfl
  all_goals
    obtain helement | helement | helement | helement :
      f.get 'f' = 0 ∨ f.get 'f' = 1 ∨ f.get 'f' = 2 ∨ f.get 'f' = 3 := by omega
    case inr.inr.inr =>
      simp only [memory, fault?, hop, helement]
      rfl
    all_goals
      simp only [memory, fault?, hop, helement, pure_bind]
      refine .checked ⟨formed_of_single rfl ⟨fun slot => ?_, (by decide : 1 < 16),
        (by decide : 15 < 16), Nat.two_pow_pos 4, multiplier_replicate (by decide)⟩, ?_,
        fun h => absurd h Bool.false_ne_true, fun _ => Detail.noConfusion, fun _ _ => Detail.noConfusion,
        hdata _ (by decide), ⟨by simp, rfl⟩, ⟨by simp, rfl⟩, ⟨by simp, rfl⟩⟩
      · cases slot with
        | src0 | src1 | src2 => exact traced_field hf _ rfl rfl (.inr rfl) rfl ⟨rfl, rfl⟩
        | dest =>
          exact .data rfl rfl (.of_ne (hdata _ (by decide)) (hdata _ (by decide)))
            (fun h => if_pos h) (Family.get_lt hf 'v' rfl)
      · intro element count expanded hdetail
        obtain ⟨-, rfl, -⟩ := Detail.memory.inj hdetail
        exact hcount

/-! ## Blends -/

theorem formed_byteSources (hfamily : family = .sop2 ∨ family = .sop2m)
    (hf : f.layout = family.layout) {o : Operation} (hsrc0 : o.src0 = { slot := 0 })
    (hdestMask : o.destMask < 16) (hsourceMask : o.sourceMask < 16) (hrepeat : o.repeatCount < 2 ^ 4)
    (hmultiplier : ∀ k, o.repeatMultiplier.get k ≤ 4) :
    Formed family f secondary false (byteSources f secondary o) := by
  refine ⟨fun slot => ?_, hdestMask, hsourceMask, hrepeat, hmultiplier⟩
  rcases hfamily with rfl | rfl <;>
    cases slot with
    | src0 =>
      rw [show (byteSources f secondary o).operand .src0 = { slot := 0 } from hsrc0]
      exact traced_none rfl _
    | src1 | src2 | dest => exact traced_field hf _ rfl rfl (.inr rfl) rfl ⟨rfl, rfl⟩

theorem blend_answers (hf : f.layout = Family.sop2.layout) :
    Answers .sop2 f secondary none (.ok (blend f secondary)) := by
  have hrepeat := Nat.lt_trans (Family.get_lt hf 'o' rfl) (by decide : 2 ^ 3 < 2 ^ 4)
  exact .ok (follows_of_plain rfl rfl (formed_byteSources (.inl rfl) hf rfl (by decide : 15 < 16)
    (by decide : 15 < 16) hrepeat (multiplier_replicate (by decide)))
    ⟨⟨by simp [blend, byteSources], rfl⟩, ⟨by simp [blend, byteSources], rfl⟩⟩)

theorem maskedBlend_answers (hf : f.layout = Family.sop2m.layout) :
    Answers .sop2m f secondary none (.ok (maskedBlend f secondary)) := by
  have hmask := Family.get_lt hf 'w' rfl
  have hturned : f.get 'w' / 2 + 8 * (f.get 'w' % 2) < 16 := by omega
  exact .ok (follows_of_plain rfl rfl (formed_byteSources (.inr rfl) hf rfl hturned
    (by decide : 15 < 16) (Nat.two_pow_pos 4) (multiplier_replicate (by decide)))
    ⟨⟨by simp [maskedBlend, byteSources], rfl⟩, ⟨by simp [maskedBlend, byteSources], rfl⟩⟩)

/-! ## Dual-issue words -/

theorem isRegister_source (d : DualWord) (op : DualOp) (slot : SourceSlot) (index : Nat) :
    (d.source op slot index).bank.isRegister = true := by
  cases slot with
  | unified =>
    have hbank : (Bank.ofSource (d.fields.get 'f') false).isRegister = true := by
      unfold Bank.ofSource
      split <;> first | rfl | contradiction
    refine RegisterField.bank_operand (P := (Bank.isRegister · = true)) _ _ index (fun _ => hbank) rfl rfl
      fun hspecial => ?_
    rw [hspecial] at hbank
    cases hbank
  | internal0 | internal1 | internal2 => rfl

theorem alike_source (d : DualWord) (op : DualOp) (a b : SourceSlot) (i j : Nat) :
    (d.source op a i).Alike (d.source op b j) :=
  ⟨by cases a <;> cases b <;> rfl, .inl (isRegister_source d op a i)⟩

theorem reads_source (d : DualWord) (op : DualOp) (slot : SourceSlot) (index : Nat) :
    (d.source op slot index).Reads .f32 := by
  refine ⟨?_, scalar_half d.half⟩
  cases slot <;> simp [DualWord.source]

theorem floats_operation (d : DualWord) {op : DualOp} {slots : List SourceSlot}
    (hslots : op.opcode = .fsubflr → slots.length = 2) (dest : Operand) (destMask : Mask) :
    (d.operation op slots dest destMask).Floats := by
  have source (k slot : Nat) :
      ((slots.zipIdx.map fun p => d.source op p.1 p.2).getD k { slot := slot }).Reads .f32 := by
    rw [getD_eq_getElem?_getD, getElem?_map]
    cases slots.zipIdx[k]? with
    | none => exact ⟨by simp, rfl⟩
    | some p => exact reads_source d op p.1 p.2
  refine ⟨source 0 0, source 1 1, source 2 2, fun hopcode => ?_⟩
  obtain ⟨a, b, rfl⟩ := length_eq_two.1 (hslots hopcode)
  exact alike_source d op a b 0 1

theorem length_slots (first : Nat) {count config : Nat} {slots : List SourceSlot}
    (h : firstSources? count config = some slots ∨ secondSources? first count config = some slots) :
    slots.length = count := by
  unfold firstSources? secondSources? at h
  rcases h with h | h <;> split at h <;> cases h <;> rfl

theorem sources_fsubflr {code : Nat} {op : DualOp} (h : dualOp? code = some op)
    (hopcode : op.opcode = .fsubflr) : op.sources = 2 := by
  unfold dualOp? at h
  split at h <;> cases h <;> first | rfl | cases hopcode

theorem traced_source (hf : f.layout = Family.vdual.layout)
    {count : Nat} {op : DualOp} {slots : List SourceSlot} {index : Nat}
    (hname : name? .vdual f second slot = dualName?.source f op slots index) :
    Traced .vdual f secondary second slot
      ((slots.zipIdx.map fun p =>
        (DualWord.mk f secondary count).source op p.1 p.2).getD index { slot := index }) := by
  simp only [getD_eq_getElem?_getD, getElem?_map, getElem?_zipIdx]
  cases hslot : slots[index]? with
  | none => exact traced_none (by simp [hname, dualName?.source, hslot]) _
  | some source =>
    cases source with
    | unified =>
      refine traced_either hf Family.noConfusion 'z' ?_ rfl ⟨rfl, rfl⟩
      rw [hname, dualName?.source, if_pos hslot]
    | internal0 =>
      exact .internal (by simp [hname, dualName?.source, hslot]) rfl (Family.get_lt hf 'x' rfl)
    | internal1 =>
      exact .internal (by simp [hname, dualName?.source, hslot]) rfl (Family.get_lt hf 'v' rfl)
    | internal2 =>
      refine .internal (by simp [hname, dualName?.source, hslot]) rfl ?_
      have hj := Family.get_lt hf 'j' rfl
      have hq := Family.get_lt hf 'q' rfl
      show (if 2 ≤ count then 2 * f.get 'j' + f.get 'q' else 2) < 4
      split <;> omega

theorem unifiedMask_lt (d : DualWord) (op : DualOp) (dest : Operand) :
    d.unifiedMask op dest < 16 := by
  rw [DualWord.unifiedMask]
  repeat' split
  all_goals decide

theorem formed_operation (hf : f.layout = Family.vdual.layout) {count : Nat} {op : DualOp}
    {slots : List SourceSlot} {unified : Bool}
    (hname : ∀ slot, name? .vdual f second slot = dualName? f op slots unified slot)
    {dest : Operand} (hdest : Traced .vdual f secondary second .dest dest) {mask : Mask}
    (hmask : mask < 16) :
    Formed .vdual f secondary second
      ((DualWord.mk f secondary count).operation op slots dest mask) := by
  refine ⟨fun slot => ?_, hmask, ?_, Nat.two_pow_pos 4, multiplier_replicate (by decide)⟩
  · cases slot with
    | src0 => exact traced_source hf (hname .src0)
    | src1 => exact traced_source hf (hname .src1)
    | src2 => exact traced_source hf (hname .src2)
    | dest => exact hdest
  · show (if !op.vectorLoad then 1 else if _ then if _ then 15 else 7 else mask) < 16
    split
    · decide
    · split
      · split <;> decide
      · exact hmask

/-- Two operations that follow the word pass the checks of a dual-issue word. -/
theorem Answers.pair {one two : Operation} (hpack : one.opcode.isPack = false)
    (hone : Formed .vdual f secondary false one) (htwo : Formed .vdual f secondary true two)
    (hfloats : one.Floats ∧ two.Floats) :
    Answers .vdual f secondary none (do
      if two.usesSpecial then throw .specialRegister
      Decode.checked { one with detail := .dual two }) := by
  rw [usesSpecial_of_formed htwo]
  refine .checked ⟨fun second o ho => ?_, fun _ _ _ => Detail.noConfusion,
    fun h => absurd (hpack.symm.trans h) Bool.false_ne_true, fun _ _ => rfl,
    fun _ _ => Detail.noConfusion, hfloats⟩
  cases second with
  | false => exact Option.some.inj ho ▸ hone
  | true => exact Option.some.inj ho ▸ htwo

theorem dual_answers (hf : f.layout = Family.vdual.layout) :
    Answers .vdual f secondary (fault? .vdual f) (dual f secondary) := by
  have hy := Family.get_lt hf 'y' rfl
  have hmask : (f.get 'y' + if f.flag 'c' && f.flag 'd' then 8 else 0) < 16 := by
    split <;> omega
  simp only [dual, fault?]
  cases hfirst : dualOp? ((if !f.flag 'c' && f.flag 'd' then 8 else 0) + f.get 'a') with
  | none => rfl
  | some first =>
    have hpack : first.opcode.isPack = false := by
      unfold dualOp? at hfirst
      split at hfirst <;> cases hfirst <;> rfl
    cases hsecond : secondOp? (8 * f.get 'l' + f.get 'o') with
    | none => rfl
    | some second =>
      simp only
      cases hfirstSlots : firstSources? first.sources (f.get 'h') with
      | none => rfl
      | some firstSlots =>
        cases hsecondSlots : secondSources? first.sources second.sources (f.get 'h') with
        | none => rfl
        | some secondSlots =>
          have hone (slot : OperandSlot) : name? .vdual f false slot =
              dualName? f first firstSlots (f.flag 'r') slot := by
            simp only [name?, hfirst, hsecond, hfirstSlots, Option.bind_eq_bind, Option.bind_some,
              Bool.false_eq_true, if_false]
          have htwo (slot : OperandSlot) : name? .vdual f true slot =
              dualName? f second secondSlots (!f.flag 'r') slot := by
            simp only [name?, hfirst, hsecond, hsecondSlots, Option.bind_eq_bind, Option.bind_some,
              if_true]
          have toUnified {second : Bool} {op : DualOp} {slots : List SourceSlot}
              (hname : ∀ slot, name? .vdual f second slot = dualName? f op slots true slot)
              {dest : Operand} (hdest : dest.From ⟨op.vectorStore, if op.vectorStore then 8 else 7,
                secondary⟩ (.ofDest (f.get 'm') false) (f.get 'b')) (d : DualWord) :
              Formed .vdual f secondary second ((DualWord.mk f secondary first.sources).operation op
                slots dest (d.unifiedMask op dest)) :=
            formed_operation hf hname (traced_either hf Family.noConfusion _ (hname .dest) rfl hdest)
              (unifiedMask_lt ..)
          have hinternal := Family.get_lt hf 'e' rfl
          have hlength (h : first.opcode = .fsubflr) : firstSlots.length = 2 :=
            sources_fsubflr hfirst h ▸ length_slots 0 (.inl hfirstSlots)
          have hlength' (h : second.opcode = .fsubflr) : secondSlots.length = 2 :=
            sources_fsubflr (Option.ite_none_left_eq_some.1 hsecond).2 h ▸
              length_slots _ (.inr hsecondSlots)
          cases hunified : f.flag 'r' with
          | true =>
            rw [hunified] at hone htwo
            refine .pair hpack ?_ ?_ ⟨floats_operation _ hlength .., floats_operation _ hlength' ..⟩
            · apply toUnified hone
              exact ⟨rfl, rfl⟩
            · exact formed_operation hf htwo (.internal (htwo .dest) rfl hinternal) hmask
          | false =>
            rw [hunified] at hone htwo
            refine .pair hpack ?_ ?_ ⟨floats_operation _ hlength .., floats_operation _ hlength' ..⟩
            · exact formed_operation hf hone (.internal (hone .dest) rfl hinternal) hmask
            · apply toUnified htwo
              exact ⟨rfl, rfl⟩

/-! ## Families -/

theorem ofFamily_answers (hf : f.layout = family.layout) :
    Answers family f secondary (fault? family f) (ofFamily family f secondary) := by
  cases family with
  | vmov => exact move_answers hf
  | vmad => exact multiplyAddInternal_answers hf
  | vmad2 => exact multiplyAdd_answers hf
  | vnmad32 => exact twoSource_answers (.inl rfl) hf
  | vnmad16 => exact twoSource_answers (.inr rfl) hf
  | vpck => exact pack_answers hf
  | vcomp => exact complex_answers hf
  | vdp => exact dotProduct_answers hf
  | vdual => exact dual_answers hf
  | sop2 => exact blend_answers hf
  | sop2m => exact maskedBlend_answers hf
  | vtst => exact testPredicate_answers hf
  | vtstmsk => exact testMask_answers hf
  | vbw => exact bitwise_answers hf
  | limm => exact literal_answers hf
  | vldst => exact memory_answers hf
  | sop3 | smlsi | phas | nop | spec | br | smp | kill =>
    refine .ok (follows_of_plain rfl rfl ⟨fun slot => ?_, (by decide : 15 < 16),
      (by decide : 15 < 16), Nat.two_pow_pos 4, multiplier_replicate (by decide)⟩ trivial)
    cases slot <;> exact traced_none rfl _

theorem ofFamily_follows (hf : f.layout = family.layout)
    (h : ofFamily family f secondary = .ok i) : Follows family f secondary i := by
  have answers : Answers family f secondary _ _ := ofFamily_answers hf
  rw [h] at answers
  cases hfault : fault? family f with
  | some e =>
    rw [hfault] at answers
    exact absurd answers (by simp [Answers])
  | none =>
    rw [hfault] at answers
    obtain ⟨j, hj, hfollows⟩ := answers
    cases hj
    exact hfollows

end Decode

theorem decode_follows {word : Word} {secondary : Bool} {i : Instruction}
    (h : decode word secondary = .ok i) :
    ∃ family, Family.ofWord? word = some family ∧
      Decode.Follows family ⟨word, family.layout⟩ secondary i := by
  obtain ⟨family, hfamily, hdecoded⟩ := exists_family_of_decode h
  exact ⟨family, hfamily, Decode.ofFamily_follows rfl hdecoded⟩

theorem decode_regular {word : Word} {secondary : Bool} {i : Instruction}
    (h : decode word secondary = .ok i) : i.Regular := by
  obtain ⟨family, -, hfollows⟩ := decode_follows h
  exact hfollows.regular

end Microcode
