import Microcode.Proofs.Layouts
import Microcode.Word.Family

/-!
Where the fields of each family stand, and which words belong to it.

`Family.leading` gives the five highest bits that the fixed bits of a family allow and `Family.spans`
the fields of which something is demanded; both are compared with the text of the layouts once, in
`Family.spelled`.  Families overlap, so `leading_of_ofWord?` adds what the order of the families
leaves to the later ones.
-/

namespace Microcode

open List

variable (w : Word) {f : Family}

/-! ## Fields of neighbouring bits -/

namespace Word

/-- The number in `width` bits of a word from bit `start` up. -/
def bits (w : Word) (start width : Nat) : Nat := (w.extractLsb' start width).toNat

theorem bits_lt (start width : Nat) : w.bits start width < 2 ^ width :=
  (w.extractLsb' start width).isLt

theorem testBit_bits (start width k : Nat) :
    (w.bits start width).testBit k = (decide (k < width) && w.getLsbD (start + k)) := by
  rw [bits, BitVec.testBit_toNat, BitVec.getLsbD_extractLsb']

theorem gather_range' (start width : Nat) :
    w.gather (List.range' start width).reverse = w.bits start width := by
  apply Nat.eq_of_testBit_eq
  intro k
  rw [testBit_gather, testBit_bits, reverse_reverse]
  by_cases hk : k < width
  · rw [getElem?_range' hk]
    simp [hk]
  · rw [getElem?_eq_none (by simpa using hk)]
    simp [hk]

/-- The five highest bits. -/
def top (w : Word) : Nat := w.bits 59 5

theorem top_lt : w.top < 32 := w.bits_lt 59 5

theorem testBit_top {i : Nat} (h : i < 5) : w.top.testBit (4 - i) = w.getLsbD (63 - i) := by
  rw [top, testBit_bits, show 59 + (4 - i) = 63 - i by omega]
  simp [show 4 - i < 5 by omega]

end Word

/-- A bit agrees with its label: fixed bits are what they have to be. -/
def Layout.agrees (label : Char) (bit : Bool) : Bool :=
  (label != '0' || !bit) && (label != '1' || bit)

theorem Layout.agrees_iff (label : Char) (bit : Bool) :
    agrees label bit = true ↔ (label = '0' → bit = false) ∧ (label = '1' → bit = true) := by
  rw [agrees]
  cases bit <;> simp

/-- Labels of fields. -/
def Layout.isLabel (label : Char) : Bool := label != '0' && label != '1'

theorem Layout.agrees_of_isLabel {label : Char} (h : isLabel label = true) (bit : Bool) :
    agrees label bit = true := by
  rw [isLabel, Bool.and_eq_true, bne_iff_ne, bne_iff_ne] at h
  rw [agrees_iff]
  exact ⟨fun hzero => absurd hzero h.1, fun hone => absurd hone h.2⟩

/-! ## The families -/

namespace Family

/-- The five highest bits that the layout allows. -/
def leading : Family → List Nat
  | vmad2 => [0b00000]
  | vnmad32 => [0b00001]
  | vnmad16 => [0b00010]
  | vmad | vdp => [0b00011]
  | vdual => [0b00100, 0b00101]
  | vcomp => [0b00110]
  | vmov => [0b00111]
  | vpck => [0b01000]
  | vtst => [0b01001]
  | vtstmsk => [0b01111]
  | vbw => [0b01000, 0b01001, 0b01010, 0b01011, 0b01100, 0b01101, 0b01110, 0b01111]
  | sop2 => [0b10000]
  | sop3 => [0b10001]
  | sop2m => [0b10010]
  | smp => [0b11100]
  | vldst => [0b11100, 0b11101, 0b11110, 0b11111]
  | limm | phas | nop | br | smlsi | kill | spec => [0b11111]

/-- What a family fixes below the five highest bits; left out where other families take the words
that it refuses. -/
def fixedBelow? : Family → Option (List (Nat × Bool))
  | limm | phas | nop | br | smlsi | kill => none
  | vmad => some [(53, true)]
  | vdp => some [(53, false)]
  | _ => some []

/-- Label, lowest bit and width of the fields that hold a choice, a register number, a mask or a
number of repeats. -/
def spans : Family → List (Char × Nat × Nat)
  | vmov => [('m', 46, 2), ('a', 44, 2), ('h', 24, 4), ('j', 18, 6), ('q', 12, 6), ('u', 6, 6),
      ('v', 0, 6)]
  | vmad => [('t', 44, 2), ('w', 39, 4), ('l', 28, 2), ('m', 22, 6), ('v', 12, 2), ('B', 0, 6)]
  | vmad2 => [('e', 39, 4), ('h', 22, 6), ('l', 12, 6), ('q', 6, 6), ('u', 0, 6)]
  | vnmad32 | vnmad16 => [('e', 39, 4), ('f', 22, 6), ('h', 6, 6), ('j', 0, 6)]
  | vpck => [('a', 44, 3), ('f', 41, 3), ('t', 38, 3), ('m', 34, 4), ('g', 21, 7), ('q', 8, 6),
      ('v', 7, 1), ('w', 1, 6)]
  | vcomp => [('d', 53, 2), ('a', 44, 4), ('c', 39, 2), ('f', 35, 2), ('g', 21, 7), ('h', 7, 7),
      ('w', 0, 4)]
  | vdp => [('a', 44, 2), ('w', 39, 4), ('h', 28, 2), ('j', 22, 6), ('u', 0, 6)]
  | vdual => [('c', 59, 1), ('d', 54, 1), ('a', 44, 3), ('l', 43, 1), ('e', 28, 2), ('b', 21, 7),
      ('o', 18, 3), ('h', 16, 2), ('j', 15, 1), ('q', 14, 1), ('v', 12, 2), ('x', 10, 2),
      ('y', 7, 3), ('z', 0, 7)]
  | sop2 => [('o', 44, 3), ('q', 21, 7), ('z', 7, 7), ('A', 0, 7)]
  | sop2m => [('w', 43, 4), ('q', 14, 7), ('z', 7, 7), ('A', 0, 7)]
  | vtst => [('i', 42, 2), ('h', 36, 3), ('n', 34, 2), ('l', 18, 2), ('u', 14, 4), ('j', 7, 7),
      ('q', 0, 7)]
  | vtstmsk => [('i', 42, 2), ('a', 36, 2), ('f', 21, 7), ('w', 20, 1), ('l', 18, 2), ('g', 14, 4),
      ('h', 7, 7), ('j', 0, 7)]
  | vbw => [('o', 59, 3), ('m', 44, 4), ('j', 21, 7), ('q', 7, 7), ('u', 0, 7)]
  | limm => [('t', 28, 7)]
  | vldst => [('o', 59, 2), ('k', 44, 4), ('f', 36, 2), ('v', 21, 7), ('w', 14, 7), ('x', 7, 7),
      ('z', 0, 7)]
  | _ => []

/-- The characters of a layout are those that the tables tell of. -/
def charted (f : Family) (cs : List Char) : Bool :=
  cs.length = 64 && cs.all (fun c => c.toNat < 128) &&
    (List.range 32).all (fun t =>
      (List.range 5).all (fun i => Layout.agrees (cs.getD i '-') (t.testBit (4 - i))) =
        f.leading.contains t) &&
    (f.fixedBelow?.all fun fixed => (List.range 64).all fun i =>
      i < 5 || Layout.isLabel (cs.getD i '-') || fixed.contains (63 - i, cs.getD i '-' == '1')) &&
    f.spans.all fun (label, start, width) =>
      ((cs.zipIdx.filter fun (c, _) => c = label).map fun (_, i) => 63 - i) =
        (List.range' start width).reverse

theorem spelled (f : Family) : ∃ cs, f.layout.text = String.ofList cs ∧ f.charted cs = true := by
  cases f <;> exact ⟨_, rfl, by decide +kernel⟩

/-- What `charted` checks, said of the layout itself. -/
structure Charted (f : Family) (cs : List Char) : Prop where
  text : f.layout.text = String.ofList cs
  length : cs.length = 64
  plain : f.layout.Plain
  leading : ∀ t < 32, (∀ i < 5, Layout.agrees (cs.getD i '-') (t.testBit (4 - i)) = true) ↔
    t ∈ f.leading
  below : ∀ fixed, f.fixedBelow? = some fixed → ∀ i < 64, 5 ≤ i →
    Layout.isLabel (cs.getD i '-') = true ∨ (63 - i, cs.getD i '-' == '1') ∈ fixed
  spans : ∀ label start width, (label, start, width) ∈ f.spans →
    f.layout.positions label = (List.range' start width).reverse

theorem exists_charted (f : Family) : ∃ cs, f.Charted cs := by
  obtain ⟨cs, htext, hcharted⟩ := f.spelled
  have hlist : f.layout.text.toList = cs := by rw [htext, String.toList_ofList]
  simp only [charted, Bool.and_eq_true, decide_eq_true_eq, all_eq_true, mem_range,
    Prod.forall] at hcharted
  obtain ⟨⟨⟨⟨hlength, hplain⟩, hleading⟩, hbelow⟩, hspans⟩ := hcharted
  refine ⟨cs, htext, hlength, ?_, ?_, ?_, ?_⟩
  · intro c hc
    exact hplain c (hlist ▸ hc)
  · intro t ht
    rw [← contains_iff_mem, ← hleading t ht, all_eq_true]
    simp only [mem_range]
  · intro fixed hfixed i hi hge
    rw [hfixed, Option.all_some, all_eq_true] at hbelow
    have h := hbelow i (mem_range.2 hi)
    simp only [Bool.or_eq_true, decide_eq_true_eq, contains_iff_mem] at h
    rcases h with (h | h) | h
    · omega
    · exact .inl h
    · exact .inr h
  · intro label start width hmem
    rw [Layout.positions, hlist]
    exact hspans label start width hmem

theorem Charted.admits_iff {cs : List Char} (h : f.Charted cs) (w : Word) :
    f.layout.pattern.admits w = true ↔
      ∀ i < 64, Layout.agrees (cs.getD i '-') (w.getLsbD (63 - i)) = true := by
  have hlist : f.layout.text.toList = cs := by rw [h.text, String.toList_ofList]
  have hlen : f.layout.text.length ≤ 64 := Nat.le_of_eq (by rw [← String.length_toList, hlist, h.length])
  have hlabel (i : Nat) (hi : i < 64) : f.layout.label? (63 - i) = some (cs.getD i '-') := by
    rw [Layout.label?, hlist, show 63 - (63 - i) = i by omega, getD_eq_getElem?_getD,
      getElem?_eq_getElem (by rw [h.length]; exact hi), Option.getD_some]
  rw [h.plain.admits_iff hlen]
  constructor
  · intro hall i hi
    rw [Layout.agrees_iff]
    have hbit := hall (63 - i) (by omega)
    simpa only [hlabel i hi, Option.some.injEq] using hbit
  · intro hall p hp
    have hbit := hall (63 - p) (by omega)
    rw [Layout.agrees_iff, show 63 - (63 - p) = p by omega] at hbit
    have hp' := hlabel (63 - p) (by omega)
    rw [show 63 - (63 - p) = p by omega] at hp'
    simpa only [hp', Option.some.injEq] using hbit

/-- The fields of the table are the bits of the word that it tells. -/
theorem get_eq_bits {family : Family} {f : Fields} (hf : f.layout = family.layout) (label : Char)
    {start width : Nat} (h : family.spans.lookup label = some (start, width)) :
    f.get label = f.word.bits start width := by
  obtain ⟨cs, hcs⟩ := family.exists_charted
  obtain ⟨before, after, hspans, -⟩ := lookup_eq_some_iff.1 h
  have hmem : (label, start, width) ∈ family.spans := by simp [hspans]
  rw [Fields.get, hf, Layout.field, hcs.spans label start width hmem, Word.gather_range']

theorem get_lt {family : Family} {f : Fields} (hf : f.layout = family.layout) (label : Char)
    {start width : Nat} (h : family.spans.lookup label = some (start, width)) :
    f.get label < 2 ^ width := by
  rw [get_eq_bits hf label h]
  exact f.word.bits_lt start width

theorem leading_of_admits {w : Word} (h : f.layout.pattern.admits w = true) :
    w.top ∈ f.leading := by
  obtain ⟨cs, hcs⟩ := f.exists_charted
  rw [← hcs.leading w.top w.top_lt]
  intro i hi
  rw [w.testBit_top hi]
  exact (hcs.admits_iff w).1 h i (by omega)

theorem admits_of_leading {w : Word} (h : w.top ∈ f.leading) {fixed : List (Nat × Bool)}
    (hfixed : f.fixedBelow? = some fixed) (hbits : ∀ b ∈ fixed, w.getLsbD b.1 = b.2) :
    f.layout.pattern.admits w = true := by
  obtain ⟨cs, hcs⟩ := f.exists_charted
  rw [hcs.admits_iff]
  intro i hi
  by_cases htop : i < 5
  · rw [← w.testBit_top htop]
    exact (hcs.leading w.top w.top_lt).2 h i htop
  · rcases hcs.below fixed hfixed i hi (by omega) with hlabel | hmem
    · exact Layout.agrees_of_isLabel hlabel _
    · rw [hbits _ hmem, Layout.agrees_iff]
      constructor
      · intro hzero
        rw [hzero]
        rfl
      · intro hone
        rw [hone]
        rfl

/-! ## The order of the families -/

theorem nodup_all : all.Nodup := by decide

theorem mem_all (f : Family) : f ∈ all := by
  cases f <;> decide

theorem admits_of_ofWord? {w : Word} (h : ofWord? w = some f) :
    f.layout.pattern.admits w = true := by
  rw [ofWord?] at h
  exact find?_some (p := fun f : Family => f.layout.pattern.admits w) h

/-- A word belongs to a family that is alone in leading with its top bits. -/
theorem ofWord?_of_leading {w : Word} (hfixed : f.fixedBelow? = some []) (h : w.top ∈ f.leading)
    (hothers : ∀ g, w.top ∈ g.leading → g = f) : ofWord? w = some f := by
  cases hfound : ofWord? w with
  | some g => rw [hothers g (leading_of_admits (admits_of_ofWord? hfound))]
  | none =>
    rw [ofWord?, find?_eq_none] at hfound
    exact absurd (admits_of_leading h hfixed nofun) (hfound f (mem_all f))

theorem not_admits_of_before {g : Family} {w : Word} (h : ofWord? w = some f)
    (hbefore : all.idxOf g < all.idxOf f) : g.layout.pattern.admits w = false := by
  obtain ⟨-, i, hi, hget, hfirst⟩ := find?_eq_some_iff_getElem.1 h
  have hidx : all.idxOf f = i := by rw [← hget, nodup_all.idxOf_getElem]
  have hg := hfirst (all.idxOf g) (hidx ▸ hbefore)
  rwa [getElem_idxOf, Bool.not_eq_true'] at hg

/-- Words that no family takes. -/
def Unassigned (t : Nat) : Prop := t = 0b10011 ∨ t / 4 = 0b101 ∨ t / 4 = 0b110

instance (t : Nat) : Decidable (Unassigned t) := inferInstanceAs (Decidable (_ ∨ _ ∨ _))

theorem ofWord?_eq_none : ofWord? w = none ↔ Unassigned w.top := by
  rw [ofWord?, find?_eq_none]
  constructor
  · intro hnone
    have refused {f : Family} {fixed : List (Nat × Bool)} (hfixed : f.fixedBelow? = some fixed)
        (hbits : ∀ b ∈ fixed, w.getLsbD b.1 = b.2) : w.top ∉ f.leading :=
      fun h => hnone f f.mem_all (admits_of_leading h hfixed hbits)
    have hopen : ∀ f ∈ all, f.fixedBelow? = some [] → w.top ∉ f.leading :=
      fun f _ hfixed => refused hfixed (by simp)
    have hmad : w.top ≠ 0b00011 := by
      intro h
      cases hbit : w.getLsbD 53 with
      | true => exact refused (f := vmad) rfl (by simpa using hbit) (by simp [h, leading])
      | false => exact refused (f := vdp) rfl (by simpa using hbit) (by simp [h, leading])
    have table : ∀ t < 32, t = 0b00011 ∨ Unassigned t ∨
        ∃ f ∈ all, f.fixedBelow? = some [] ∧ t ∈ f.leading := by decide
    rcases table w.top w.top_lt with h | h | ⟨f, hf, hfixed, hmem⟩
    · exact absurd h hmad
    · exact h
    · exact absurd hmem (hopen f hf hfixed)
  · intro h f hf hadmits
    have table : ∀ f ∈ all, ∀ t ∈ f.leading, ¬ Unassigned t := by decide
    exact table f hf w.top (leading_of_admits hadmits) h

/-- The five highest bits of the words that a family takes: those that are left when the families
before it have taken theirs. -/
def taken (f : Family) (t : Nat) : Bool :=
  match f with
  | vbw => 0b01010 ≤ t && t ≤ 0b01110
  | vldst => t = 0b11101 || t = 0b11110
  | f => f.leading.contains t

theorem taken_of_ofWord? {w : Word} (h : ofWord? w = some f) : f.taken w.top = true := by
  have hleading := leading_of_admits (admits_of_ofWord? h)
  have before (g : Family) (hg : g.fixedBelow? = some []) (hbefore : all.idxOf g < all.idxOf f) :
      w.top ∉ g.leading := by
    intro hmem
    have hrefused := not_admits_of_before h hbefore
    rw [admits_of_leading hmem hg (by simp)] at hrefused
    cases hrefused
  cases f with
  | vbw =>
    have hpck := before vpck rfl (by decide)
    have htst := before vtst rfl (by decide)
    have hmask := before vtstmsk rfl (by decide)
    simp only [leading, mem_cons, not_mem_nil, or_false] at hleading hpck htst hmask
    simp only [taken, Bool.and_eq_true, decide_eq_true_eq]
    omega
  | vldst =>
    have hsmp := before smp rfl (by decide)
    have hspec := before spec rfl (by decide)
    simp only [leading, mem_cons, not_mem_nil, or_false] at hleading hsmp hspec
    simp only [taken, Bool.or_eq_true, decide_eq_true_eq]
    omega
  | _ => exact contains_iff_mem.2 hleading

end Family
end Microcode
