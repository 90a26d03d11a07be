import Microcode.Proofs.Decoders

/-!
Which words the decoder accepts, and the bounds of what it gives.

`Word.Refused` says it of the bits of a word.  The decoder goes through the layouts and a table for
each family instead; `Decode.fault?` collects what can go wrong there.  It does not depend on the kind
of the program, and where it finds nothing, the instruction is there and within its bounds.
-/

namespace Microcode

variable (w : Word) {family : Family} {i : Instruction} {code : Nat}

/-! ## Words that are refused -/

/-- Pairs of group and code that name a test. -/
def IsTest (group code : Nat) : Prop :=
  match group with
  | 0 => 2 ≤ code ∧ code ≤ 14
  | 1 => 6 ≤ code ∧ code ≤ 15
  | 2 => code ≤ 8
  | 3 => code ≤ 5 ∨ code = 7
  | _ => False

instance (group code : Nat) : Decidable (IsTest group code) := by
  unfold IsTest
  split <;> infer_instance

/-- Numbers of sources of the operations that can be issued in pairs. -/
def pairedSources (op : Nat) : Nat := [3, 2, 1, 2, 2, 1, 1, 1, 3, 2, 2, 2, 1, 1].getD op 0

namespace Word

/-- First operation of a dual-issue word. -/
def firstOp (w : Word) : Nat := (if w.bits 59 1 = 0 ∧ w.bits 54 1 = 1 then 8 else 0) + w.bits 44 3

/-- Its second operation. -/
def secondOp (w : Word) : Nat := 8 * w.bits 43 1 + w.bits 18 3

/-- Two operations that cannot be issued together: one of them is missing, or their sources have no
layout under the configuration in bits 16 and 17. -/
def Unpaired (w : Word) : Prop :=
  14 ≤ w.firstOp ∨ w.secondOp = 0 ∨ 14 ≤ w.secondOp ∨
    (pairedSources w.firstOp = 2 ∧ w.bits 16 2 = 3) ∨
    4 < pairedSources w.firstOp + pairedSources w.secondOp

/-- What is wrong with a word, by its five highest bits. -/
def Refused (w : Word) : Prop :=
  match w.top with
  | 0b00100 | 0b00101 => w.Unpaired
  | 0b00110 => w.bits 53 2 = 3 ∨ w.bits 39 2 = 3
  | 0b00111 => w.bits 46 2 = 3
  | 0b01000 => (w.bits 38 3 = 7 ∧ w.bits 41 3 < 5) ∨ (w.bits 41 3 = 7 ∧ w.bits 38 3 < 5)
  | 0b01001 => ¬ IsTest (w.bits 18 2) (w.bits 14 4) ∨ w.bits 42 2 = 3 ∨ 4 ≤ w.bits 36 3
  | 0b01110 => True
  | 0b01111 => ¬ IsTest (w.bits 18 2) (w.bits 14 4) ∨ w.bits 42 2 = 3 ∨ w.bits 36 2 = 3 ∨
      w.bits 20 1 = 0
  | 0b11101 | 0b11110 => w.bits 36 2 = 3
  | t => Family.Unassigned t

end Word

/-! ## Bounds of an instruction -/

structure Operation.Bounded (o : Operation) : Prop where
  src0 : Named o.src0.bank o.src0.num
  src1 : Named o.src1.bank o.src1.num
  src2 : Named o.src2.bank o.src2.num
  dest : Named o.dest.bank o.dest.num
  destMask : o.destMask < 16
  sourceMask : o.sourceMask < 16
  repeatCount : o.repeatCount ≤ 15

/-- The operation, its second one and the second mask of a pack keep their bounds. -/
structure Instruction.Bounded (i : Instruction) : Prop where
  first : i.toOperation.Bounded
  second : ∀ o, i.detail = .dual o → o.Bounded
  secondMask : ∀ scale mask, i.detail = .pack scale mask → mask < 16

namespace Decode

variable {f : Fields} {secondary : Bool}

theorem Formed.bounded {second : Bool} {o : Operation} (h : Formed family f secondary second o) :
    o.Bounded := by
  have hrepeat := h.repeatCount
  exact ⟨(h.operand .src0).isNamed, (h.operand .src1).isNamed, (h.operand .src2).isNamed,
    (h.operand .dest).isNamed, h.destMask, h.sourceMask, by omega⟩

theorem Follows.bounded (h : Follows family f secondary i) : i.Bounded := by
  refine ⟨(h.formed false _ rfl).bounded, fun o ho => ?_, h.secondMask⟩
  refine (h.formed true o ?_).bounded
  rw [Instruction.operation?, ho]
  rfl

/-! ## Faults as bits -/

-- Fields are told apart by their labels, without going back to the word.
seal Fields.get

theorem testOperation?_isNone {group : Nat} (hgroup : group < 4) (hcode : code < 16) (full : Bool) :
    (testOperation? group code full).isNone = true ↔ ¬ IsTest group code := by
  have table : ∀ group < 4, ∀ code < 16, ∀ full : Bool,
      (testOperation? group code full).isNone = true ↔ ¬ IsTest group code := by decide
  exact table group hgroup code hcode full

theorem comparison?_isNone (zeroTest : Nat) {signTest : Nat} (h : signTest < 4) :
    (comparison? zeroTest signTest).isNone = true ↔ signTest = 3 := by
  unfold comparison?
  generalize decide (zeroTest = 1) = zero
  revert zero signTest
  decide

theorem packable_iff {dest source : Nat} (hdest : dest < 8) (hsource : source < 8) :
    packable (packElement dest) (packElement source) = false ↔
      (dest = 7 ∧ source < 5) ∨ (source = 7 ∧ dest < 5) := by
  have table : ∀ dest < 8, ∀ source < 8,
      packable (packElement dest) (packElement source) = false ↔
        (dest = 7 ∧ source < 5) ∨ (source = 7 ∧ dest < 5) := by decide
  exact table dest hdest source hsource

theorem complexElement_eq_unknown (h : code < 4) : complexElement code = .unknown ↔ code = 3 := by
  have table : ∀ code < 4, complexElement code = .unknown ↔ code = 3 := by decide
  exact table code h

theorem bitwiseOpcode?_isNone (hlow : 2 ≤ code) (hhigh : code ≤ 6) (alternate : Bool) :
    (bitwiseOpcode? code alternate).isNone = true ↔ code = 6 := by
  have table : ∀ code < 7, 2 ≤ code → ∀ alternate : Bool,
      ((bitwiseOpcode? code alternate).isNone = true ↔ code = 6) := by decide
  exact table code (by omega) hlow alternate

theorem dualOp?_cases (code : Nat) :
    (14 ≤ code ∧ dualOp? code = none) ∨
      (code < 14 ∧ ∃ op, dualOp? code = some op ∧ op.sources = pairedSources code) := by
  by_cases h : code < 14
  · have table : ∀ code < 14, (dualOp? code).map DualOp.sources = some (pairedSources code) := by
      decide
    obtain ⟨op, hop, hsources⟩ := Option.map_eq_some_iff.1 (table code h)
    exact .inr ⟨h, op, hop, hsources⟩
  · refine .inl ⟨Nat.le_of_not_lt h, ?_⟩
    unfold dualOp?
    split <;> first | omega | rfl

theorem sources_isNone {first second config : Nat} (hfirst : first < 14) (hsecond : second < 14)
    (hconfig : config < 4) :
    ((firstSources? (pairedSources first) config).isNone ||
      (secondSources? (pairedSources first) (pairedSources second) config).isNone) = true ↔
      (pairedSources first = 2 ∧ config = 3) ∨ 4 < pairedSources first + pairedSources second := by
  have range : ∀ op < 14, pairedSources op = 1 ∨ pairedSources op = 2 ∨ pairedSources op = 3 := by
    decide
  obtain rfl | rfl | rfl | rfl : config = 0 ∨ config = 1 ∨ config = 2 ∨ config = 3 := by omega
  all_goals
    rcases range first hfirst with h | h | h <;> rcases range second hsecond with h' | h' | h' <;>
      rw [h, h'] <;> decide

theorem fault?_dual (hf : f.layout = Family.vdual.layout) :
    (fault? .vdual f).isSome = true ↔ f.word.Unpaired := by
  have hfirst : (if !f.flag 'c' && f.flag 'd' then 8 else 0) + f.get 'a' = f.word.firstOp := by
    have hwide := f.word.bits_lt 54 1
    rw [Word.firstOp, Fields.flag, Fields.flag, Family.get_eq_bits hf 'c' rfl,
      Family.get_eq_bits hf 'd' rfl, Family.get_eq_bits hf 'a' rfl]
    simp only [Bool.and_eq_true, Bool.not_eq_true', decide_eq_false_iff_not, decide_eq_true_eq,
      not_not]
    congr 2
    rw [eq_iff_iff]
    omega
  have hsecond : 8 * f.get 'l' + f.get 'o' = f.word.secondOp := by
    rw [Word.secondOp, Family.get_eq_bits hf 'l' rfl, Family.get_eq_bits hf 'o' rfl]
  have hconfig := Family.get_lt hf 'h' rfl
  rw [Word.Unpaired, ← Family.get_eq_bits hf 'h' rfl, fault?]
  simp only [hfirst, hsecond, secondOp?]
  rcases dualOp?_cases f.word.firstOp with ⟨hge, hop⟩ | ⟨hlt, first, hop, hsources⟩
  · simp [hop, hge]
  · by_cases hzero : f.word.secondOp = 0
    · simp [hop, hzero]
    · rcases dualOp?_cases f.word.secondOp with ⟨hge', hop'⟩ | ⟨hlt', second, hop', hsources'⟩
      · simp [hop, hop', hzero, hge']
      · have hpair := sources_isNone hlt hlt' hconfig
        rw [Bool.or_eq_true] at hpair
        have hbounds : ¬ 14 ≤ f.word.firstOp ∧ ¬ 14 ≤ f.word.secondOp := by omega
        simp only [hop, hzero, if_false, hop', hsources, hsources', hbounds, false_or, ← hpair]
        cases (firstSources? (pairedSources f.word.firstOp) (f.get 'h')).isNone with
        | true => simp
        | false =>
          cases (secondSources? (pairedSources f.word.firstOp) (pairedSources f.word.secondOp)
            (f.get 'h')).isNone <;> simp

theorem bits_top {n : Nat} (h : n ≤ 5) : w.bits 59 n = w.top % 2 ^ n := by
  rw [Word.top, Word.bits, Word.bits, BitVec.extractLsb'_toNat, BitVec.extractLsb'_toNat,
    Nat.mod_mod_of_dvd _ (Nat.pow_dvd_pow 2 h)]

theorem fault?_iff {w : Word} (h : Family.ofWord? w = some family) :
    (fault? family ⟨w, family.layout⟩).isSome = true ↔ w.Refused := by
  have htaken := Family.taken_of_ofWord? h
  generalize hf : Fields.mk w family.layout = f
  have hlayout : f.layout = family.layout := by rw [← hf]
  have hword : f.word = w := by rw [← hf]
  rw [← hword] at htaken ⊢
  cases family with
  | vmov =>
    have hm := f.word.bits_lt 46 2
    have htop : f.word.top = 0b00111 := by simpa [Family.taken, Family.leading] using htaken
    simp only [Word.Refused, htop, fault?, Family.get_eq_bits hlayout 'm' rfl]
    split <;> simp <;> omega
  | vpck =>
    have htop : f.word.top = 0b01000 := by simpa [Family.taken, Family.leading] using htaken
    have hpack := packable_iff (f.word.bits_lt 38 3) (f.word.bits_lt 41 3)
    simp only [Word.Refused, htop, fault?, Family.get_eq_bits hlayout 't' rfl,
      Family.get_eq_bits hlayout 'f' rfl, ← hpack]
    split <;> simp_all
  | vcomp =>
    have htop : f.word.top = 0b00110 := by simpa [Family.taken, Family.leading] using htaken
    have hdest := complexElement_eq_unknown (f.word.bits_lt 53 2)
    have hsource := complexElement_eq_unknown (f.word.bits_lt 39 2)
    simp only [Word.Refused, htop, fault?, Family.get_eq_bits hlayout 'c' rfl,
      Family.get_eq_bits hlayout 'd' rfl, ← hdest, ← hsource, Bool.or_eq_true, decide_eq_true_eq,
      Option.isSome_ite]
    exact or_comm
  | vtst =>
    have htop : f.word.top = 0b01001 := by simpa [Family.taken, Family.leading] using htaken
    have htest := testOperation?_isNone (f.word.bits_lt 18 2) (f.word.bits_lt 14 4) (f.flag 'a')
    have hsign := comparison?_isNone (f.get 'z') (f.word.bits_lt 42 2)
    simp only [Word.Refused, htop, fault?, Family.get_eq_bits hlayout 'l' rfl,
      Family.get_eq_bits hlayout 'u' rfl, Family.get_eq_bits hlayout 'i' rfl,
      Family.get_eq_bits hlayout 'h' rfl, ← htest, ← hsign]
    split
    · simp_all
    · split
      · simp_all
      · split <;> simp_all
  | vtstmsk =>
    have htop : f.word.top = 0b01111 := by simpa [Family.taken, Family.leading] using htaken
    have htest := testOperation?_isNone (f.word.bits_lt 18 2) (f.word.bits_lt 14 4) (f.flag 'e')
    have hsign := comparison?_isNone (f.get 'z') (f.word.bits_lt 42 2)
    have hmask := f.word.bits_lt 36 2
    have hmask' : 3 ≤ f.word.bits 36 2 ↔ f.word.bits 36 2 = 3 := by omega
    simp only [Word.Refused, htop, fault?, Family.get_eq_bits hlayout 'l' rfl,
      Family.get_eq_bits hlayout 'g' rfl, Family.get_eq_bits hlayout 'i' rfl,
      Family.get_eq_bits hlayout 'a' rfl, Fields.flag, Family.get_eq_bits hlayout 'w' rfl, ← htest,
      ← hsign, hmask']
    split
    · simp_all
    · split
      · simp_all
      · split
        · simp_all
        · split <;> simp_all
  | vbw =>
    have htop : 10 ≤ f.word.top ∧ f.word.top ≤ 14 := by simpa [Family.taken] using htaken
    have hcode : f.get 'o' = f.word.top - 8 := by
      rw [Family.get_eq_bits hlayout 'o' rfl, bits_top f.word (by decide)]
      omega
    rw [fault?, Option.isSome_ite, bitwiseOpcode?_isNone (by omega) (by omega), hcode]
    obtain htop | htop | htop | htop | htop : f.word.top = 10 ∨ f.word.top = 11 ∨
      f.word.top = 12 ∨ f.word.top = 13 ∨ f.word.top = 14 := by omega
    all_goals simp [Word.Refused, htop, Family.Unassigned]
  | vldst =>
    have htop : f.word.top = 29 ∨ f.word.top = 30 := by simpa [Family.taken] using htaken
    have helement := f.word.bits_lt 36 2
    have hcode : f.get 'o' = 1 ∨ f.get 'o' = 2 := by
      rw [Family.get_eq_bits hlayout 'o' rfl, bits_top f.word (by decide)]
      omega
    rw [fault?, if_pos hcode, Family.get_eq_bits hlayout 'f' rfl]
    rcases htop with htop | htop <;>
    · simp only [Word.Refused, htop]
      split <;> simp <;> omega
  | vdual =>
    have htop : f.word.top = 4 ∨ f.word.top = 5 := by
      simpa [Family.taken, Family.leading] using htaken
    rw [fault?_dual hlayout]
    rcases htop with htop | htop <;> simp only [Word.Refused, htop]
  | _ =>
    simp only [Family.taken, Family.leading, List.contains_cons, List.contains_nil, Bool.or_false,
      beq_iff_eq] at htaken
    simp [fault?, Word.Refused, htaken, Family.Unassigned]

end Decode

/-! ## Decoding -/

/-- The fault of a word. -/
def Word.fault? (w : Word) : Option DecodeFault :=
  match Family.ofWord? w with
  | none => some .unmatched
  | some family => Decode.fault? family ⟨w, family.layout⟩

theorem Word.fault?_isSome : w.fault?.isSome = true ↔ w.Refused := by
  rw [fault?]
  cases h : Family.ofWord? w with
  | none =>
    have hunassigned := (Family.ofWord?_eq_none w).1 h
    obtain htop | htop | htop | htop | htop | htop | htop | htop | htop : w.top = 19 ∨
        w.top = 20 ∨ w.top = 21 ∨ w.top = 22 ∨ w.top = 23 ∨ w.top = 24 ∨ w.top = 25 ∨ w.top = 26 ∨
        w.top = 27 := by
      unfold Family.Unassigned at hunassigned
      omega
    all_goals simp [Refused, htop, Family.Unassigned]
  | some family => exact Decode.fault?_iff h

theorem Word.fault?_ne_special : w.fault? ≠ some .specialRegister := by
  rw [fault?]
  cases Family.ofWord? w with
  | none => simp
  | some family =>
    cases family <;> simp only [Decode.fault?] <;> repeat' split
    all_goals simp

/-- A word is decoded unless it has a fault, and then the fault is reported. -/
theorem decode_answers (secondary : Bool) :
    match w.fault? with
    | some e => decode w secondary = .error ⟨w, e⟩
    | none => ∃ i, decode w secondary = .ok i ∧ i.Bounded := by
  rw [decode, Word.fault?]
  cases Family.ofWord? w with
  | none => rfl
  | some family =>
    have h : Decode.Answers family ⟨w, family.layout⟩ secondary
        (Decode.fault? family ⟨w, family.layout⟩)
        (Decode.ofFamily family ⟨w, family.layout⟩ secondary) := Decode.ofFamily_answers rfl
    simp only
    cases hfault : Decode.fault? family ⟨w, family.layout⟩ with
    | some e =>
      rw [hfault] at h
      rw [show Decode.ofFamily family ⟨w, family.layout⟩ secondary = .error e from h]
      rfl
    | none =>
      rw [hfault] at h
      obtain ⟨i, hi, hfollows⟩ := h
      rw [hi]
      exact ⟨i, rfl, hfollows.bounded⟩

/-- The decoder refuses exactly the words with one of the listed faults, for both kinds of program
with the same error, which is never that of a special register; and every other word gives an
instruction whose operands, masks and repeats, also those of a second operation, keep their bounds. -/
theorem decode_refuses (w : Word) :
    (∀ secondary, (∃ e, decode w secondary = .error e) ↔ w.Refused) ∧
    (∀ e, decode w true = .error e ↔ decode w false = .error e) ∧
    (∀ secondary e, decode w secondary = .error e → e.fault ≠ .specialRegister) ∧
    ∀ secondary i, decode w secondary = .ok i → i.Bounded := by
  have answers := decode_answers w
  have hfault := w.fault?_isSome
  have hspecial := w.fault?_ne_special
  cases h : w.fault? with
  | some e =>
    simp only [h] at answers hfault hspecial
    refine ⟨fun secondary => ?_, fun e' => ?_, fun secondary e' he' => ?_, fun secondary i hi => ?_⟩
    · exact ⟨fun _ => hfault.1 rfl, fun _ => ⟨_, answers secondary⟩⟩
    · rw [answers, answers]
    · rw [answers] at he'
      cases he'
      exact fun he => hspecial (congrArg some he)
    · rw [answers] at hi
      exact absurd hi (by simp)
  | none =>
    simp only [h] at answers hfault
    have not_error (secondary : Bool) (e : DecodeError) : decode w secondary ≠ .error e := by
      obtain ⟨i, hi, -⟩ := answers secondary
      rw [hi]
      simp
    refine ⟨fun secondary => ?_, fun e => ?_, fun secondary e he => ?_, fun secondary i hi => ?_⟩
    · refine ⟨fun ⟨e, he⟩ => absurd he (not_error secondary e), fun hrefused => ?_⟩
      exact absurd (hfault.2 hrefused) (by simp)
    · exact ⟨fun he => absurd he (not_error true e), fun he => absurd he (not_error false e)⟩
    · exact absurd he (not_error secondary e)
    · obtain ⟨j, hj, hbounded⟩ := answers secondary
      rw [hj] at hi
      cases hi
      exact hbounded

end Microcode
