import Mathlib.Algebra.Ring.Int.Defs
import Mathlib.Algebra.Ring.Nat
import Mathlib.Data.List.Induction
import Mathlib.Data.List.Nodup
import Microcode.Word.Layout

/-!
Layouts read back what they write.

Three walks over the text of a layout have to agree: the pattern finds the fixed bits, `field`
collects the bits of a label and `encode` spreads a number over them.  All three are described by
one fact for each bit: bit `p` carries the label that stands `63 - p` places into the text, and no
other.  From that `encode` and `field` are inverse to each other, however the labels are scattered.
-/

namespace Microcode

open List

variable {fields : List (Char × Nat)}

/-! ## Bits of a word -/

namespace Word

variable {w : Word} {positions : List Nat} {p : Nat}

theorem getLsbD_ofBits (positions : List Nat) (p : Nat) :
    (ofBits positions).getLsbD p = (decide (p < 64) && decide (p ∈ positions)) := by
  have general (w : Word) :
      (positions.foldl (fun w q => w ||| BitVec.twoPow 64 q) w).getLsbD p =
        (w.getLsbD p || (decide (p < 64) && decide (p ∈ positions))) := by
    induction positions generalizing w with
    | nil => simp
    | cons q rest ih =>
      rw [foldl_cons, ih, BitVec.getLsbD_or, BitVec.getLsbD_twoPow]
      by_cases hq : q = p
      · by_cases hp : p < 64 <;> simp [hq, hp]
      · simp [hq, Ne.symm hq]
  rw [ofBits, general, BitVec.getLsbD_zero, Bool.false_or]

theorem gather_concat (w : Word) (positions : List Nat) (p : Nat) :
    w.gather (positions ++ [p]) = 2 * w.gather positions + (w.getLsbD p).toNat := by
  rw [gather, gather, foldl_append]
  rfl

/-- Digit `k` of a field is the bit at its `k`-th position from the end. -/
theorem testBit_gather (w : Word) (positions : List Nat) (k : Nat) :
    (w.gather positions).testBit k = positions.reverse[k]?.any w.getLsbD := by
  induction positions using List.reverseRecOn generalizing k with
  | nil => simp [gather]
  | append_singleton rest p ih =>
    rw [gather_concat, reverse_append, reverse_singleton, singleton_append]
    cases k with
    | zero => cases hbit : w.getLsbD p <;> simp [Nat.testBit_zero, Nat.add_mod, hbit]
    | succ k =>
      have hhalf : (2 * w.gather rest + (w.getLsbD p).toNat) / 2 = w.gather rest := by
        have hbit := (w.getLsbD p).toNat_lt
        omega
      rw [Nat.testBit_succ, hhalf, ih, getElem?_cons_succ]

theorem gather_lt (w : Word) (positions : List Nat) :
    w.gather positions < 2 ^ positions.length := by
  apply Nat.lt_pow_two_of_testBit
  intro k hk
  rw [testBit_gather, getElem?_eq_none (by simpa using hk)]
  rfl

theorem gather_congr {w' : Word} (h : ∀ p ∈ positions, w.getLsbD p = w'.getLsbD p) :
    w.gather positions = w'.gather positions := by
  apply Nat.eq_of_testBit_eq
  intro k
  rw [testBit_gather, testBit_gather]
  cases hk : positions.reverse[k]? with
  | none => rfl
  | some p => exact h p (mem_reverse.1 (mem_of_getElem? hk))

/-- A spread number has bit `p` set if `p` is the place of one of its digits that is. -/
theorem getLsbD_scatter (positions : List Nat) (value p : Nat) :
    (scatter positions value).getLsbD p = true ↔
      p < 64 ∧ ∃ k, positions.reverse[k]? = some p ∧ value.testBit k = true := by
  rw [scatter, getLsbD_ofBits, Bool.and_eq_true, decide_eq_true_eq, decide_eq_true_eq]
  refine and_congr_right fun _ => ?_
  simp only [mem_map, mem_filter, Prod.exists, exists_and_right, exists_eq_right,
    mem_zipIdx_iff_getElem?]

theorem getLsbD_scatter_of_not_mem {value : Nat} (h : p ∉ positions) :
    (scatter positions value).getLsbD p = false := by
  rw [← Bool.not_eq_true, getLsbD_scatter]
  rintro ⟨-, k, hk, -⟩
  exact h (mem_reverse.1 (mem_of_getElem? hk))

/-- Places in a list without repetitions are determined by what stands there. -/
theorem getLsbD_scatter_getElem (hnodup : positions.Nodup) (value : Nat) {k : Nat}
    (hk : positions.reverse[k]? = some p) (hp : p < 64) :
    (scatter positions value).getLsbD p = value.testBit k := by
  rw [Bool.eq_iff_iff, getLsbD_scatter]
  constructor
  · rintro ⟨-, j, hj, hvalue⟩
    have hlt := (List.getElem?_eq_some_iff.1 hk).1
    rwa [(getElem?_inj hlt (nodup_reverse.2 hnodup)).1 (hk.trans hj.symm)]
  · intro hvalue
    exact ⟨hp, k, hk, hvalue⟩

theorem gather_scatter (hnodup : positions.Nodup) (hlt : ∀ p ∈ positions, p < 64) (value : Nat) :
    (scatter positions value).gather positions = value % 2 ^ positions.length := by
  apply Nat.eq_of_testBit_eq
  intro k
  rw [testBit_gather, Nat.testBit_mod_two_pow]
  cases hk : positions.reverse[k]? with
  | none =>
    have hge : ¬ k < positions.length := by simpa using hk
    simp [hge]
  | some p =>
    have hin : k < positions.length := by simpa using (List.getElem?_eq_some_iff.1 hk).1
    have hp := hlt p (mem_reverse.1 (mem_of_getElem? hk))
    simp [hin, getLsbD_scatter_getElem hnodup value hk hp]

theorem scatter_gather (hnodup : positions.Nodup) (hp : p ∈ positions) (hlt : p < 64) :
    (scatter positions (w.gather positions)).getLsbD p = w.getLsbD p := by
  obtain ⟨k, hk⟩ := mem_iff_getElem?.1 (mem_reverse.2 hp)
  rw [getLsbD_scatter_getElem hnodup _ hk hlt, testBit_gather, hk]
  rfl

end Word

/-! ## Labels of a layout -/

namespace Layout

variable {l : Layout} {label : Char} {p : Nat}

/-- The text is plain: one byte for each character. -/
def Plain (l : Layout) : Prop := ∀ c ∈ l.text.toList, c.toNat < 128

/-- The label of a bit. -/
def label? (l : Layout) (p : Nat) : Option Char := l.text.toList[63 - p]?

theorem mem_positions (hlen : l.text.length ≤ 64) :
    p ∈ l.positions label ↔ p < 64 ∧ l.label? p = some label := by
  rw [positions, label?]
  simp only [mem_map, mem_filter, Prod.exists, mem_zipIdx_iff_getElem?,
    decide_eq_true_eq]
  constructor
  · rintro ⟨c, i, ⟨hi, rfl⟩, rfl⟩
    have hlt : i < l.text.toList.length := (List.getElem?_eq_some_iff.1 hi).1
    rw [String.length_toList] at hlt
    refine ⟨by omega, ?_⟩
    rwa [show 63 - (63 - i) = i by omega]
  · rintro ⟨hp, hlabel⟩
    exact ⟨label, 63 - p, ⟨hlabel, rfl⟩, by omega⟩

theorem lt_of_mem_positions (hlen : l.text.length ≤ 64) : ∀ p ∈ l.positions label, p < 64 :=
  fun _ hp => ((mem_positions hlen).1 hp).1

theorem nodup_positions (hlen : l.text.length ≤ 64) (label : Char) :
    (l.positions label).Nodup := by
  rw [positions]
  apply List.Nodup.map_on
  · rintro ⟨c, i⟩ hi ⟨d, j⟩ hj hij
    simp only [mem_filter, mem_zipIdx_iff_getElem?, decide_eq_true_eq] at hi hj
    have hi' := (List.getElem?_eq_some_iff.1 hi.1).1
    have hj' := (List.getElem?_eq_some_iff.1 hj.1).1
    rw [String.length_toList] at hi' hj'
    simp only at hij
    rw [hi.2, hj.2, show i = j by omega]
  · apply List.Nodup.filter
    apply List.Nodup.of_map Prod.snd
    rw [zipIdx_map_snd]
    exact nodup_range'

theorem length_labelled (cs : List Char) (n : Nat) (label : Char) :
    ((cs.zipIdx n).filter fun (c, _) => decide (c = label)).length = cs.count label := by
  induction cs generalizing n with
  | nil => rfl
  | cons c rest ih =>
    rw [zipIdx_cons, filter_cons, count_cons]
    by_cases hc : c = label
    · simp [hc, ih]
    · simp [hc, ih]

theorem length_positions (l : Layout) (label : Char) :
    (l.positions label).length = l.text.toList.count label := by
  rw [positions, length_map, length_labelled]

/-! ## Fixed bits -/

theorem toList_loop (bytes : ByteArray) (i : Nat) (read : List UInt8) :
    ByteArray.toList.loop bytes i read = read.reverse ++ bytes.data.toList.drop i := by
  induction i, read using ByteArray.toList.loop.induct bytes with
  | case1 i read hlt ih =>
    have hlt' : i < bytes.data.toList.length := by simpa using hlt
    rw [ByteArray.toList.loop, if_pos hlt, ih, drop_eq_getElem_cons hlt']
    simp [ByteArray.get!, hlt]
  | case2 i read hge =>
    have hge' : bytes.data.toList.length ≤ i := by simpa using hge
    rw [ByteArray.toList.loop, if_neg hge, drop_eq_nil_of_le hge', append_nil]

theorem Plain.bytes (h : l.Plain) :
    l.text.toUTF8.toList = l.text.toList.map fun c => UInt8.ofNat c.toNat := by
  have encoded : ∀ cs : List Char, (∀ c ∈ cs, c.toNat < 128) →
      cs.flatMap String.utf8EncodeChar = cs.map fun c => UInt8.ofNat c.toNat := by
    intro cs hcs
    induction cs with
    | nil => rfl
    | cons c rest ih =>
      have hc : c.val.toNat ≤ 0x7f := Nat.le_of_lt_succ (hcs c mem_cons_self)
      have hone : String.utf8EncodeChar c = [UInt8.ofNat c.toNat] := by
        rw [String.utf8EncodeChar, if_pos hc]
        rfl
      rw [flatMap_cons, hone, ih fun d hd => hcs d (.tail _ hd), map_cons]
      rfl
  rw [← encoded _ h, String.toUTF8_eq_toByteArray, ← String.utf8Encode_toList, ByteArray.toList,
    toList_loop]
  simp [List.utf8Encode]

theorem byte_eq {c d : Char} (hc : c.toNat < 128) (hd : d.toNat < 128) :
    UInt8.ofNat c.toNat = UInt8.ofNat d.toNat ↔ c = d := by
  constructor
  · intro h
    have hnat := congrArg UInt8.toNat h
    rw [UInt8.toNat_ofNat_of_lt' (Nat.lt_trans hc (by decide)),
      UInt8.toNat_ofNat_of_lt' (Nat.lt_trans hd (by decide))] at hnat
    exact Char.ext (UInt32.toNat_inj.1 hnat)
  · rintro rfl
    rfl

theorem Plain.located (h : l.Plain) (hlen : l.text.length ≤ 64) {d : Char} (hd : d.toNat < 128) :
    ((((l.text.toUTF8.toList.take 64).zipIdx.filter fun (b, _) =>
      decide (b = UInt8.ofNat d.toNat)).map fun (_, i) => 63 - i)) = l.positions d := by
  rw [h.bytes, take_of_length_le (by simpa [String.length_toList] using hlen),
    zipIdx_map, filter_map, map_map, positions]
  congr 1
  apply filter_congr
  rintro ⟨c, i⟩ hmem
  have hc := h c (mem_of_getElem? (mem_zipIdx_iff_getElem?.1 hmem))
  simp only [Function.comp, Prod.map, id, byte_eq hc hd]

theorem Plain.pattern (h : l.Plain) (hlen : l.text.length ≤ 64) :
    l.pattern = ⟨Word.ofBits (l.positions '0') ||| Word.ofBits (l.positions '1'),
      Word.ofBits (l.positions '1')⟩ := by
  have hzero := h.located hlen (show '0'.toNat < 128 by decide)
  have hone := h.located hlen (show '1'.toNat < 128 by decide)
  rw [Layout.pattern]
  exact congrArg₂ (fun a b => Pattern.mk (Word.ofBits a ||| Word.ofBits b) (Word.ofBits b)) hzero hone

theorem Plain.getLsbD_expected (h : l.Plain) (hlen : l.text.length ≤ 64) (p : Nat) :
    l.pattern.expected.getLsbD p = (decide (p < 64) && decide (l.label? p = some '1')) := by
  rw [h.pattern hlen, Word.getLsbD_ofBits]
  by_cases hp : p < 64 <;> simp [hp, mem_positions hlen]

theorem Plain.admits_iff (h : l.Plain) (hlen : l.text.length ≤ 64) (w : Word) :
    l.pattern.admits w = true ↔ ∀ p < 64, (l.label? p = some '0' → w.getLsbD p = false) ∧
      (l.label? p = some '1' → w.getLsbD p = true) := by
  have bit (p : Nat) (hp : p < 64) :
      ((w &&& l.pattern.mask).getLsbD p = l.pattern.expected.getLsbD p) ↔
        (l.label? p = some '0' → w.getLsbD p = false) ∧
          (l.label? p = some '1' → w.getLsbD p = true) := by
    rw [h.pattern hlen, BitVec.getLsbD_and, BitVec.getLsbD_or, Word.getLsbD_ofBits,
      Word.getLsbD_ofBits]
    simp only [hp, decide_true, Bool.true_and, mem_positions hlen, true_and]
    by_cases hzero : l.label? p = some '0'
    · simp [hzero]
    · by_cases hone : l.label? p = some '1' <;> simp [hzero, hone]
  rw [Pattern.admits, decide_eq_true_eq]
  constructor
  · intro heq p hp
    rw [← bit p hp, heq]
  · intro hbits
    apply BitVec.eq_of_getLsbD_eq
    intro p hp
    exact (bit p hp).2 (hbits p hp)

/-! ## Writing and reading -/

/-- A bit of a written word is a fixed one, or one of a field that was written. -/
theorem getLsbD_scatters (l : Layout) (fields : List (Char × Nat)) (w : Word) (p : Nat) :
    (fields.foldl (fun w (label, value) => w ||| Word.scatter (l.positions label) value) w).getLsbD
      p = true ↔ w.getLsbD p = true ∨
        ∃ f ∈ fields, (Word.scatter (l.positions f.1) f.2).getLsbD p = true := by
  induction fields generalizing w with
  | nil => simp
  | cons f rest ih =>
    rw [foldl_cons, ih, BitVec.getLsbD_or, Bool.or_eq_true]
    simp only [mem_cons, exists_eq_or_imp, or_assoc]

theorem getLsbD_encode (l : Layout) (fields : List (Char × Nat)) (p : Nat) :
    (l.encode fields).getLsbD p = true ↔ l.pattern.expected.getLsbD p = true ∨
      ∃ f ∈ fields, (Word.scatter (l.positions f.1) f.2).getLsbD p = true :=
  l.getLsbD_scatters fields _ p

/-- A bit that carries a label which is no digit belongs to the fields with this label. -/
theorem Plain.getLsbD_encode_label (h : l.Plain) (hlen : l.text.length ≤ 64)
    (hlabel : l.label? p = some label) (hone : label ≠ '1') (fields : List (Char × Nat)) :
    (l.encode fields).getLsbD p = true ↔
      ∃ f ∈ fields, f.1 = label ∧ (Word.scatter (l.positions label) f.2).getLsbD p = true := by
  rw [getLsbD_encode, h.getLsbD_expected hlen, hlabel]
  simp only [Option.some.injEq, hone, decide_false, Bool.and_false, Bool.false_eq_true, false_or]
  refine exists_congr fun f => and_congr_right fun _ => ?_
  by_cases hf : f.1 = label
  · simp [hf]
  · have hnot : p ∉ l.positions f.1 := by
      rw [mem_positions hlen, hlabel]
      rintro ⟨-, heq⟩
      exact hf (Option.some.inj heq).symm
    simp [hf, Word.getLsbD_scatter_of_not_mem hnot]

/-- A label that is no digit. -/
def IsLabel (c : Char) : Prop := c ≠ '0' ∧ c ≠ '1'

theorem Plain.admits_encode (h : l.Plain) (hlen : l.text.length ≤ 64)
    (hfields : ∀ f ∈ fields, IsLabel f.1) : l.pattern.admits (l.encode fields) = true := by
  rw [h.admits_iff hlen]
  intro p hp
  constructor
  · intro hzero
    rw [← Bool.not_eq_true, h.getLsbD_encode_label hlen hzero (by decide)]
    rintro ⟨f, hf, hlabel, -⟩
    exact (hfields f hf).1 hlabel
  · intro hone
    rw [getLsbD_encode, h.getLsbD_expected hlen, hone]
    simp [hp]

theorem Plain.field_encode (h : l.Plain) (hlen : l.text.length ≤ 64)
    (hnodup : (fields.map Prod.fst).Nodup) {f : Char × Nat} (hf : f ∈ fields)
    (hlabel : IsLabel f.1) : l.field f.1 (l.encode fields) = f.2 % 2 ^ l.text.toList.count f.1 := by
  have hbits : ∀ p ∈ l.positions f.1, (l.encode fields).getLsbD p =
      (Word.scatter (l.positions f.1) f.2).getLsbD p := by
    intro p hp
    have hp' := (mem_positions hlen).1 hp
    rw [Bool.eq_iff_iff, h.getLsbD_encode_label hlen hp'.2 hlabel.2]
    constructor
    · rintro ⟨g, hg, hsame, hbit⟩
      rwa [inj_on_of_nodup_map hnodup hg hf hsame] at hbit
    · intro hbit
      exact ⟨f, hf, rfl, hbit⟩
  rw [field, Word.gather_congr hbits, Word.gather_scatter (nodup_positions hlen _)
    (lt_of_mem_positions hlen), length_positions]

theorem Plain.field_encode_of_not_mem (h : l.Plain) (hlen : l.text.length ≤ 64)
    (hlabel : IsLabel label) (hnot : label ∉ fields.map Prod.fst) :
    l.field label (l.encode fields) = 0 := by
  have hbits : ∀ p ∈ l.positions label, (l.encode fields).getLsbD p = (0#64).getLsbD p := by
    intro p hp
    have hp' := (mem_positions hlen).1 hp
    rw [BitVec.getLsbD_zero, ← Bool.not_eq_true, h.getLsbD_encode_label hlen hp'.2 hlabel.2]
    rintro ⟨f, hf, hsame, -⟩
    exact hnot (mem_map.2 ⟨f, hf, hsame⟩)
  rw [field, Word.gather_congr hbits]
  apply Nat.eq_of_testBit_eq
  intro k
  rw [Word.testBit_gather, Nat.zero_testBit]
  cases (l.positions label).reverse[k]? <;> simp

theorem Plain.encode_field (h : l.Plain) (hlen : l.text.length ≤ 64) {w : Word}
    (hadmits : l.pattern.admits w = true)
    (hrest : ∀ p, p + l.text.length < 64 → w.getLsbD p = false) {labels : List Char}
    (hlabels : ∀ c, c ∈ labels ↔ c ∈ l.text.toList ∧ IsLabel c) :
    l.encode (labels.map fun c => (c, l.field c w)) = w := by
  apply BitVec.eq_of_getLsbD_eq
  intro p hp
  cases hlabel : l.label? p with
  | none =>
    have hpast : p + l.text.length < 64 := by
      rw [label?, getElem?_eq_none_iff, String.length_toList] at hlabel
      omega
    rw [hrest p hpast, ← Bool.not_eq_true, getLsbD_encode, h.getLsbD_expected hlen, hlabel]
    rintro (hone | ⟨f, -, hbit⟩)
    · simp at hone
    · rw [Word.getLsbD_scatter_of_not_mem (by simp [mem_positions hlen, hlabel])] at hbit
      exact Bool.false_ne_true hbit
  | some c =>
    have hfixed := (h.admits_iff hlen w).1 hadmits p hp
    by_cases hone : c = '1'
    · subst hone
      rw [hfixed.2 hlabel, getLsbD_encode, h.getLsbD_expected hlen, hlabel]
      simp [hp]
    rw [Bool.eq_iff_iff, h.getLsbD_encode_label hlen hlabel hone]
    have hread : (Word.scatter (l.positions c) (l.field c w)).getLsbD p = w.getLsbD p :=
      Word.scatter_gather (nodup_positions hlen c) ((mem_positions hlen).2 ⟨hp, hlabel⟩) hp
    constructor
    · rintro ⟨f, hf, hsame, hbit⟩
      obtain ⟨d, -, rfl⟩ := mem_map.1 hf
      obtain rfl : d = c := hsame
      rwa [hread] at hbit
    · intro hbit
      have hzero : c ≠ '0' := by
        rintro rfl
        rw [hfixed.1 hlabel] at hbit
        exact Bool.false_ne_true hbit
      have hc := (hlabels c).2 ⟨mem_of_getElem? hlabel, hzero, hone⟩
      exact ⟨_, mem_map.2 ⟨c, hc, rfl⟩, rfl, hread.trans hbit⟩

/-- Writing and reading are inverse to each other over every plain layout of a word: a written word
has the fixed bits, each label that was written reads its number cut to the width of the field, and
every other label reads zero; and a word that has the fixed bits and nothing past the layout is what
the numbers read from it write. -/
theorem encode_field_inverse (l : Layout) (plain : l.Plain) (fits : l.text.length ≤ 64) :
    (∀ fields : List (Char × Nat), (fields.map Prod.fst).Nodup → (∀ f ∈ fields, IsLabel f.1) →
      l.pattern.admits (l.encode fields) = true ∧
      (∀ f ∈ fields, l.field f.1 (l.encode fields) = f.2 % 2 ^ l.text.toList.count f.1) ∧
      ∀ label, IsLabel label → label ∉ fields.map Prod.fst → l.field label (l.encode fields) = 0) ∧
    ∀ w : Word, l.pattern.admits w = true → (∀ p, p + l.text.length < 64 → w.getLsbD p = false) →
      ∀ labels : List Char, (∀ c, c ∈ labels ↔ c ∈ l.text.toList ∧ IsLabel c) →
        l.encode (labels.map fun c => (c, l.field c w)) = w :=
  ⟨fun _ hnodup hlabels => ⟨plain.admits_encode fits hlabels,
      fun f hf => plain.field_encode fits hnodup hf (hlabels f hf),
      fun _ hlabel hnot => plain.field_encode_of_not_mem fits hlabel hnot⟩,
    fun _ hadmits hrest _ hlabels => plain.encode_field fits hadmits hrest hlabels⟩

/-- A layout shorter than a word, with a label that stands apart from its own kind. -/
def scattered : Layout := ⟨"11aab-bbcc"⟩

theorem encode_field_inverse_scattered : scattered.Plain ∧ scattered.text.length ≤ 64 ∧
    (let w := scattered.encode [('b', 0b11101), ('a', 0b10)]
    scattered.pattern.admits w = true ∧ scattered.field 'b' w = 0b101 ∧
      scattered.field 'a' w = 0b10 ∧ scattered.field 'c' w = 0 ∧ scattered.field '-' w = 0) ∧
    scattered.encode (['a', 'b', '-', 'c'].map fun c => (c, scattered.field c 0xe7c0000000000000#64)) =
      0xe7c0000000000000#64 := by
  have ascii : (scattered.text.toList.all fun c => c.toNat < 128) = true := by decide
  have plain : scattered.Plain := fun c hc => by simpa using List.all_eq_true.1 ascii c hc
  have fits : scattered.text.length ≤ 64 := by decide
  have inverse := encode_field_inverse scattered plain fits
  obtain ⟨hadmits, hread, hother⟩ := inverse.1 [('b', 0b11101), ('a', 0b10)] (by decide)
    (by simp [IsLabel])
  refine ⟨plain, fits, ⟨hadmits, ?_, ?_, hother 'c' ⟨by decide, by decide⟩ (by decide),
    hother '-' ⟨by decide, by decide⟩ (by decide)⟩, ?_⟩
  · exact hread ('b', 0b11101) (by simp)
  · exact hread ('a', 0b10) (by simp)
  · refine inverse.2 0xe7c0000000000000#64 (by decide +kernel) (fun p hp => ?_) _ fun c => ?_
    · have hlt : p < 54 := by
        have hlength : scattered.text.length = 10 := by decide
        omega
      have all : ∀ p < 54, (0xe7c0000000000000#64).getLsbD p = false := by decide
      exact all p hlt
    · have htext : scattered.text.toList = ['1', '1', 'a', 'a', 'b', '-', 'b', 'b', 'c', 'c'] := by
        decide +kernel
      rw [htext]
      simp only [List.mem_cons, List.not_mem_nil, or_false, IsLabel]
      constructor
      · rintro (rfl | rfl | rfl | rfl) <;> decide
      · rintro ⟨h, -, hone⟩
        rcases h with rfl | rfl | rfl | rfl | rfl | rfl | rfl | rfl | rfl | rfl <;>
          first
          | exact absurd rfl hone
          | decide

end Layout
end Microcode
