import Microcode.Proofs.GlslReading

/-!
The text of an expression is cut into the tokens of its tree.
-/

namespace Microcode

open List
namespace Glsl

variable (bits : Lane) (n : Nat)

variable {cs rest : List Char} {ts : List Token} {t : Token} {c : Char}

/-! ## Cutting -/

/-- The text is cut into the tokens. -/
def Tokenizes (cs : List Char) (ts : List Token) : Prop :=
  ∀ fuel, cs.length ≤ fuel → tokens fuel cs = some ts

theorem tokenizes_nil : Tokenizes [] [] := by
  intro fuel _
  cases fuel <;> rfl

theorem Tokenizes.space (h : Tokenizes cs ts) : Tokenizes (' ' :: cs) ts := by
  intro fuel hfuel
  cases fuel with
  | zero => exact absurd hfuel (Nat.not_succ_le_zero _)
  | succ fuel => exact h fuel (Nat.le_of_succ_le_succ hfuel)

theorem Tokenizes.token (hrest : Tokenizes rest ts) (hc : c ≠ ' ')
    (h : nextToken (c :: cs) = some (t, rest)) (hlength : rest.length ≤ cs.length) :
    Tokenizes (c :: cs) (t :: ts) := by
  intro fuel hfuel
  cases fuel with
  | zero => exact absurd hfuel (Nat.not_succ_le_zero _)
  | succ fuel =>
    have hfuel : cs.length ≤ fuel := Nat.le_of_succ_le_succ hfuel
    rw [tokens, if_neg hc, h]
    simp only [hrest fuel (by omega), Option.map_some]

/-- The next character does not satisfy the condition. -/
def stopsAt (p : Char → Bool) : List Char → Bool
  | [] => true
  | c :: _ => !p c

theorem takeWhile_append_stop {p : Char → Bool} (hcs : cs.all p = true) (hrest : stopsAt p rest = true) :
    (cs ++ rest).takeWhile p = cs ∧ (cs ++ rest).dropWhile p = rest := by
  have hnone : rest.takeWhile p = [] ∧ rest.dropWhile p = rest := by
    cases rest with
    | nil => exact ⟨rfl, rfl⟩
    | cons c rest =>
      have hc : p c = false := by simpa [stopsAt] using hrest
      simp [hc]
  rw [all_eq_true] at hcs
  rw [takeWhile_append_of_pos hcs, dropWhile_append_of_pos hcs, hnone.1, hnone.2,
    append_nil]
  exact ⟨rfl, rfl⟩

/-! ## Names -/

theorem Tokenizes.name {s : String} (h : Tokenizes rest ts) (hs : isName s = true)
    (hrest : stopsAt isNamePart rest = true) :
    Tokenizes (s.toList ++ rest) (.name s.toList :: ts) := by
  obtain ⟨c, cs, hchars, hstart, hparts⟩ := cons_of_isName hs
  obtain ⟨htake, hdrop⟩ := takeWhile_append_stop hparts hrest
  have hnext : nextToken (c :: (cs ++ rest)) = some (.name (c :: cs), rest) := by
    rw [nextToken, if_pos hstart, htake, hdrop]
  rw [hchars]
  refine h.token ?_ hnext (by simp)
  rintro rfl
  cases hstart

/-! ## Symbols -/

theorem Tokenizes.bracket (h : Tokenizes rest ts)
    (hc : c ∈ ['(', ')', '[', ']', ',', '?', ':']) :
    Tokenizes (c :: rest) (.symbol [c] :: ts) := by
  simp only [mem_cons, not_mem_nil, or_false] at hc
  rcases hc with rfl | rfl | rfl | rfl | rfl | rfl | rfl <;>
    exact h.token (by decide) rfl (Nat.le_refl _)

theorem Tokenizes.point (h : Tokenizes (c :: rest) ts) (hc : c.isDigit = false) :
    Tokenizes ('.' :: c :: rest) (.symbol ['.'] :: ts) := by
  refine h.token (by decide) ?_ (Nat.le_refl _)
  have hfraction : ('.' = '.' && (c :: rest).head?.any Char.isDigit) = false := by simp [hc]
  rw [nextToken, if_neg (by decide), hfraction]
  rfl

theorem Tokenizes.operator (h : Tokenizes rest ts) (s : BinarySymbol) :
    Tokenizes (s.text.toList ++ ' ' :: rest) (.symbol s.text.toList :: ts) := by
  cases s <;> exact h.space.token (by decide) rfl (by simp)

/-! ## Numbers -/

theorem not_isNameStart_of_isDigit (h : c.isDigit = true) : isNameStart c = false := by
  have hval : 48 ≤ c.toNat ∧ c.toNat ≤ 57 := by
    simpa [Char.isDigit, UInt32.le_iff_toNat_le] using h
  have hne : c ≠ '_' := by
    rintro rfl
    cases h
  rw [← Bool.not_eq_true, isNameStart_iff]
  simp only [hne, or_false]
  omega

theorem digitsLength_append (hcs : cs.all Char.isDigit = true)
    (hrest : stopsAt Char.isDigit rest = true) : digitsLength (cs ++ rest) = cs.length := by
  rw [digitsLength, (takeWhile_append_stop hcs hrest).1]

/-- The parts of a decimal number. -/
structure Numeral where
  whole : List Char
  fraction : List Char := []
  exponent : List Char := []
  suffix : List Char := []

namespace Numeral

def text (n : Numeral) : List Char := n.whole ++ (n.fraction ++ (n.exponent ++ n.suffix))

structure Valid (n : Numeral) : Prop where
  nonempty : n.whole ≠ []
  whole : n.whole.all Char.isDigit = true
  fraction : n.fraction = [] ∨ ∃ ds, n.fraction = '.' :: ds ∧ ds.all Char.isDigit = true
  exponent : n.exponent = [] ∨ ∃ ds, ds ≠ [] ∧ ds.all Char.isDigit = true ∧
    (n.exponent = 'e' :: ds ∨ n.exponent = 'e' :: '-' :: ds)
  suffix : n.suffix = [] ∨ n.suffix = ['u']

end Numeral

/-- What ends an expression: a blank, a closing bracket, a comma or a semicolon, or nothing. -/
def stops : List Char → Bool
  | [] => true
  | c :: _ => [' ', ')', ']', ',', ';'].contains c

/-- What may follow the digits of a number, as far as a longer number is concerned. -/
structure AfterDigits (cs : List Char) : Prop where
  digit : stopsAt Char.isDigit cs = true
  hex : stopsAt (fun c => c = 'x' || c = 'X') cs = true

theorem stops_cases (h : stops rest = true) :
    rest = [] ∨ ∃ c cs, rest = c :: cs ∧ (c = ' ' ∨ c = ')' ∨ c = ']' ∨ c = ',' ∨ c = ';') := by
  cases rest with
  | nil => exact .inl rfl
  | cons c cs => exact .inr ⟨c, cs, rfl, by simpa [stops] using h⟩

theorem afterDigits_of_stops (h : stops rest = true) : AfterDigits rest := by
  rcases stops_cases h with rfl | ⟨c, cs, rfl, rfl | rfl | rfl | rfl | rfl⟩ <;> exact ⟨rfl, rfl⟩

theorem stopsAt_name_of_stops (h : stops rest = true) : stopsAt isNamePart rest = true := by
  rcases stops_cases h with rfl | ⟨c, cs, rfl, rfl | rfl | rfl | rfl | rfl⟩ <;> rfl

theorem exponentLength_eq_zero (h : c ≠ 'e' ∧ c ≠ 'E') : exponentLength (c :: cs) = 0 := by
  cases cs with
  | nil => rfl
  | cons d cs => simp [exponentLength, h]

theorem suffix_lengths {suffix : List Char} (hs : suffix = [] ∨ suffix = ['u'])
    (h : stops rest = true) : AfterDigits (suffix ++ rest) ∧
      fractionLength (suffix ++ rest) = 0 ∧ exponentLength (suffix ++ rest) = 0 ∧
      suffixLength (suffix ++ rest) = suffix.length := by
  rcases hs with rfl | rfl
  · refine ⟨afterDigits_of_stops h, ?_⟩
    rcases stops_cases h with rfl | ⟨c, cs, rfl, rfl | rfl | rfl | rfl | rfl⟩
    · exact ⟨rfl, rfl, rfl⟩
    all_goals exact ⟨rfl, exponentLength_eq_zero (by decide), rfl⟩
  · exact ⟨⟨rfl, rfl⟩, rfl, exponentLength_eq_zero (by decide), rfl⟩

theorem exponent_lengths {exponent : List Char} (he : exponent = [] ∨ ∃ ds, ds ≠ [] ∧
      ds.all Char.isDigit = true ∧ (exponent = 'e' :: ds ∨ exponent = 'e' :: '-' :: ds))
    (h : AfterDigits rest) (hfraction : fractionLength rest = 0) (hexponent : exponentLength rest = 0) :
    AfterDigits (exponent ++ rest) ∧ fractionLength (exponent ++ rest) = 0 ∧
      exponentLength (exponent ++ rest) = exponent.length := by
  rcases he with rfl | ⟨ds, hne, hdigits, rfl | rfl⟩
  · exact ⟨h, hfraction, hexponent⟩
  · refine ⟨⟨rfl, rfl⟩, rfl, ?_⟩
    obtain ⟨d, ds, rfl⟩ := exists_cons_of_ne_nil hne
    have hlength := digitsLength_append hdigits h.digit
    have hd : ¬ (d = '-' || d = '+') = true := by
      rw [all_cons, Bool.and_eq_true] at hdigits
      simp only [Bool.or_eq_true, decide_eq_true_eq]
      rintro (rfl | rfl) <;> exact absurd hdigits.1 (by decide)
    rw [cons_append] at hlength
    have hpos : digitsLength (d :: (ds ++ rest)) ≠ 0 := by
      rw [hlength]
      exact Nat.succ_ne_zero _
    rw [cons_append, cons_append, exponentLength, if_pos (by decide), if_neg hd,
      if_neg hpos, hlength]
    simp only [length_cons]
    omega
  · refine ⟨⟨rfl, rfl⟩, rfl, ?_⟩
    have hlength := digitsLength_append hdigits h.digit
    have hpos : digitsLength (ds ++ rest) ≠ 0 := by
      rw [hlength]
      exact fun h => hne (eq_nil_of_length_eq_zero h)
    show (if digitsLength (ds ++ rest) = 0 then 0 else 2 + digitsLength (ds ++ rest)) = _
    rw [if_neg hpos, hlength, length_cons, length_cons]
    omega

theorem fraction_lengths {fraction : List Char}
    (hf : fraction = [] ∨ ∃ ds, fraction = '.' :: ds ∧ ds.all Char.isDigit = true)
    (h : AfterDigits rest) (hfraction : fractionLength rest = 0) :
    AfterDigits (fraction ++ rest) ∧ fractionLength (fraction ++ rest) = fraction.length := by
  rcases hf with rfl | ⟨ds, rfl, hdigits⟩
  · exact ⟨h, hfraction⟩
  · refine ⟨⟨rfl, rfl⟩, ?_⟩
    show 1 + digitsLength (ds ++ rest) = _
    rw [digitsLength_append hdigits h.digit, length_cons, Nat.add_comm]

theorem numberLength_decimal (hcs : cs.all Char.isDigit = true) (hne : cs ≠ [])
    (h : AfterDigits rest) : numberLength (cs ++ rest) = decimalLength (cs ++ rest) := by
  have hmark (d : Char) (hd : (d = 'x' || d = 'X') = true) (rest' : List Char) :
      cs ++ rest ≠ '0' :: d :: rest' := by
    intro heq
    obtain ⟨c, cs, rfl⟩ := exists_cons_of_ne_nil hne
    have htail : cs ++ rest = d :: rest' := (List.cons.inj heq).2
    cases cs with
    | nil =>
      have hrest : rest = d :: rest' := htail
      have := h.hex
      rw [hrest] at this
      simp only [stopsAt, hd] at this
      exact absurd this Bool.false_ne_true
    | cons e cs =>
      have he : e = d := (List.cons.inj htail).1
      simp only [all_cons, Bool.and_eq_true] at hcs
      simp only [Bool.or_eq_true, decide_eq_true_eq] at hd
      rcases hd with rfl | rfl <;> (rw [he] at hcs; exact absurd hcs.2.1 (by decide))
  unfold numberLength
  split
  case h_1 rest' heq => exact absurd heq (hmark 'x' rfl rest')
  case h_2 rest' heq => exact absurd heq (hmark 'X' rfl rest')
  case h_3 => rfl

theorem Numeral.Valid.length {n : Numeral} (h : n.Valid) (hrest : stops rest = true) :
    numberLength (n.text ++ rest) = n.text.length := by
  obtain ⟨whole, fraction, exponent, suffix⟩ := n
  obtain ⟨hne, hwhole, hfraction, hexponent, hsuffix⟩ := h
  obtain ⟨h3, hf3, he3, hs3⟩ := suffix_lengths hsuffix hrest
  obtain ⟨h2, hf2, he2⟩ := exponent_lengths hexponent h3 hf3 he3
  obtain ⟨h1, hf1⟩ := fraction_lengths hfraction h2 hf2
  have hd := digitsLength_append hwhole h1.digit
  show numberLength ((whole ++ (fraction ++ (exponent ++ suffix))) ++ rest) =
    (whole ++ (fraction ++ (exponent ++ suffix))).length
  simp only [append_assoc, length_append]
  have hdrop1 : (whole ++ (fraction ++ (exponent ++ (suffix ++ rest)))).drop whole.length =
      fraction ++ (exponent ++ (suffix ++ rest)) := drop_left
  have hdrop2 : (whole ++ (fraction ++ (exponent ++ (suffix ++ rest)))).drop
      (whole.length + fraction.length) = exponent ++ (suffix ++ rest) := by
    rw [← drop_drop, hdrop1, drop_left]
  have hdrop3 : (whole ++ (fraction ++ (exponent ++ (suffix ++ rest)))).drop
      (whole.length + fraction.length + exponent.length) = suffix ++ rest := by
    rw [← drop_drop, hdrop2, drop_left]
  rw [numberLength_decimal hwhole hne h1, decimalLength]
  simp only [hd, hdrop1, hf1, hdrop2, he2, hdrop3, hs3]
  omega

theorem Tokenizes.number (h : Tokenizes rest ts) (hc : c.isDigit = true)
    (hlength : numberLength (c :: cs ++ rest) = (c :: cs).length) :
    Tokenizes (c :: cs ++ rest) (.number (c :: cs) :: ts) := by
  have hnext : nextToken (c :: (cs ++ rest)) = some (.number (c :: cs), rest) := by
    rw [cons_append] at hlength
    rw [nextToken, if_neg (by rw [not_isNameStart_of_isDigit hc]; exact Bool.false_ne_true),
      if_pos (by rw [hc, Bool.true_or]), hlength]
    simp only [← cons_append, take_left, drop_left]
  refine h.token ?_ hnext (by simp)
  rintro rfl
  cases hc

theorem Numeral.Valid.head {n : Numeral} (h : n.Valid) :
    ∃ c cs, n.text = c :: cs ∧ c.isDigit = true := by
  obtain ⟨c, cs, hwhole⟩ := exists_cons_of_ne_nil h.nonempty
  have hall := h.whole
  rw [hwhole, all_cons, Bool.and_eq_true] at hall
  exact ⟨c, _, by rw [Numeral.text, hwhole, cons_append], hall.1⟩

theorem Tokenizes.numeral (h : Tokenizes rest ts) {n : Numeral} (hn : n.Valid)
    (hrest : stops rest = true) : Tokenizes (n.text ++ rest) (.number n.text :: ts) := by
  have hlength := hn.length hrest
  obtain ⟨c, cs, htext, hc⟩ := hn.head
  rw [htext] at hlength ⊢
  exact h.number hc hlength

/-! ## Literals -/

theorem all_isDigit_toString : (toString n).toList.all Char.isDigit = true := by
  rw [all_eq_true]
  intro c hc
  rw [Nat.toString_eq_repr, Nat.toList_repr] at hc
  exact Nat.isDigit_of_mem_toDigits (by decide) (by decide) hc

theorem toString_ne_nil : (toString n).toList ≠ [] := by
  rw [Nat.toString_eq_repr, Nat.toList_repr]
  exact Nat.toDigits_ne_nil

/-- The digits of a natural number. -/
def Numeral.ofNat (n : Nat) (suffix : List Char) : Numeral :=
  { whole := (toString n).toList, suffix := suffix }

theorem Numeral.valid_ofNat {suffix : List Char} (h : suffix = [] ∨ suffix = ['u']) :
    (ofNat n suffix).Valid :=
  ⟨toString_ne_nil n, all_isDigit_toString n, .inl rfl, .inl rfl, h⟩

theorem toList_toString_int (i : Int) : (toString i).toList =
    (if i < 0 then ['-'] else []) ++ (toString i.natAbs).toList := by
  cases i with
  | ofNat n => rfl
  | negSucc n =>
    rw [if_pos (Int.negSucc_lt_zero n)]
    show ("-" ++ (n + 1).repr).toList = _
    rw [String.toList_append]
    rfl

theorem numeral_plain (d : Binary32.Decimal) : ∃ n : Numeral, n.Valid ∧ n.text = d.plain.toList := by
  have hdigits := all_isDigit_toString d.digits
  have hne := toString_ne_nil d.digits
  rw [Binary32.Decimal.plain]
  by_cases hexponent : 0 ≤ d.exponent
  · refine ⟨{ whole := (toString d.digits).toList ++ List.replicate d.exponent.toNat '0',
              fraction := ['.', '0'] }, ⟨?_, ?_, .inr ⟨['0'], rfl, rfl⟩, .inl rfl, .inl rfl⟩, ?_⟩
    · exact append_ne_nil_of_left_ne_nil hne _
    · rw [all_append, hdigits, all_replicate]
      cases d.exponent.toNat <;> rfl
    · rw [if_pos hexponent, String.toList_append, String.toList_ofList]
      rfl
  · obtain ⟨padded, hpadded⟩ : ∃ padded, padded = List.replicate
        ((-d.exponent).toNat + 1 - (toString d.digits).toList.length) '0' ++
          (toString d.digits).toList := ⟨_, rfl⟩
    have hall : padded.all Char.isDigit = true := by
      rw [hpadded, all_append, hdigits, all_replicate]
      split <;> rfl
    have hlength : (-d.exponent).toNat + 1 ≤ padded.length := by
      rw [hpadded, length_append, length_replicate]
      omega
    rw [all_eq_true] at hall
    refine ⟨{ whole := padded.take (padded.length - (-d.exponent).toNat),
              fraction := '.' :: padded.drop (padded.length - (-d.exponent).toNat) },
      ⟨?_, ?_, .inr ⟨_, rfl, ?_⟩, .inl rfl, .inl rfl⟩, ?_⟩
    · rw [ne_eq, take_eq_nil_iff, not_or]
      refine ⟨by omega, ?_⟩
      rintro rfl
      cases hlength
    · exact all_eq_true.2 fun c hc => hall c (mem_of_mem_take hc)
    · exact all_eq_true.2 fun c hc => hall c (mem_of_mem_drop hc)
    · rw [if_neg hexponent]
      simp only [String.toList_append, String.toList_ofList, ← hpadded, Numeral.text]
      simp

theorem numeral_scientific (d : Binary32.Decimal) :
    ∃ n : Numeral, n.Valid ∧ n.text = d.scientific.toList := by
  have hdigits := all_eq_true.1 (all_isDigit_toString d.digits)
  have hne := toString_ne_nil d.digits
  obtain ⟨exponent, hexponent⟩ : ∃ exponent : Int,
      exponent = d.exponent + (toString d.digits).toList.length - 1 := ⟨_, rfl⟩
  obtain ⟨digits, heq⟩ : ∃ digits, digits = (toString d.digits).toList := ⟨_, rfl⟩
  rw [← heq] at hdigits hne
  refine ⟨{ whole := digits.take 1,
            fraction := if (digits.drop 1).isEmpty then [] else '.' :: digits.drop 1,
            exponent := 'e' :: (toString exponent).toList }, ⟨?_, ?_, ?_, .inr ?_, .inl rfl⟩, ?_⟩
  · rw [ne_eq, take_eq_nil_iff, not_or]
    exact ⟨Nat.one_ne_zero, hne⟩
  · exact all_eq_true.2 fun c hc => hdigits c (mem_of_mem_take hc)
  · by_cases hempty : (digits.drop 1).isEmpty = true
    · exact .inl (if_pos hempty)
    · exact .inr ⟨_, if_neg hempty, all_eq_true.2 fun c hc => hdigits c (mem_of_mem_drop hc)⟩
  · refine ⟨_, toString_ne_nil exponent.natAbs, all_isDigit_toString _, ?_⟩
    rw [toList_toString_int]
    by_cases hneg : exponent < 0
    · exact .inr (by rw [if_pos hneg]; rfl)
    · exact .inl (by rw [if_neg hneg]; rfl)
  · rw [Binary32.Decimal.scientific, ← hexponent, ← heq]
    by_cases hempty : (digits.drop 1).isEmpty = true
    · simp only [if_pos hempty, String.toList_append, String.toList_ofList, Numeral.text]
      simp
    · simp only [if_neg hempty, String.toList_append, String.toList_ofList, Numeral.text]
      simp

/-- A finite number without its sign is written as a numeral. -/
theorem numeral_text {bits : Lane} (h : Binary32.isNegative bits = false) :
    ∃ n : Numeral, n.Valid ∧ n.text = (Binary32.text bits).toList := by
  have hsign : (if Binary32.isNegative bits then "-" else "") = "" := by rw [h]; rfl
  rw [Binary32.text, hsign]
  simp only [String.empty_append]
  split
  · exact ⟨{ whole := ['0'], fraction := ['.', '0'] },
      ⟨by simp, rfl, .inr ⟨_, rfl, rfl⟩, .inl rfl, .inl rfl⟩, rfl⟩
  · split
    · exact numeral_plain _
    · exact numeral_scientific _

theorem isNegative_abs : Binary32.isNegative (Binary32.abs bits) = false := by
  rw [Binary32.isNegative, Binary32.abs, BitVec.msb_and]
  exact Bool.and_false _

theorem magnitude_abs : Binary32.magnitude (Binary32.abs bits) = Binary32.magnitude bits := by
  have hmask : (bits &&& 0x7fffffff#32).toNat = bits.toNat % 2 ^ 31 := by
    rw [BitVec.toNat_and, ← Nat.and_two_pow_sub_one_eq_mod]
    rfl
  rw [Binary32.magnitude, Binary32.abs, hmask]
  exact Nat.mod_mod _ _

theorem toList_text : (Binary32.text bits).toList =
    (if Binary32.isNegative bits then ['-'] else []) ++
      (Binary32.text (Binary32.abs bits)).toList := by
  rw [Binary32.text, Binary32.text, isNegative_abs, magnitude_abs]
  cases Binary32.isNegative bits <;>
    by_cases hzero : Binary32.magnitude bits = 0 <;>
      simp [hzero, String.toList_append]

theorem nextToken_minus (hminus : c ≠ '-') (hequal : c ≠ '=') :
    nextToken ('-' :: c :: rest) = some (.symbol ['-'], c :: rest) := by
  have hdigit : ('-'.isDigit || ('-' = '.' && (c :: rest).head?.any Char.isDigit)) = false := rfl
  rw [nextToken, if_neg (by decide), hdigit]
  simp [symbols, List.isPrefixOf, hminus.symm, hequal.symm]

theorem nextToken_not (hequal : c ≠ '=') :
    nextToken ('!' :: c :: rest) = some (.symbol ['!'], c :: rest) := by
  have hdigit : ('!'.isDigit || ('!' = '.' && (c :: rest).head?.any Char.isDigit)) = false := rfl
  rw [nextToken, if_neg (by decide), hdigit]
  simp [symbols, List.isPrefixOf, hequal.symm]

theorem Tokenizes.leading (h : Tokenizes (c :: rest) ts) (s : UnarySymbol)
    (hminus : s = .minus → c ≠ '-') (hequal : c ≠ '=') :
    Tokenizes (s.text.toList ++ c :: rest) (.symbol s.text.toList :: ts) := by
  cases s with
  | minus => exact h.token (by decide) (nextToken_minus (hminus rfl) hequal) (Nat.le_refl _)
  | not => exact h.token (by decide) (nextToken_not hequal) (Nat.le_refl _)
  | complement => exact h.token (by decide) rfl (Nat.le_refl _)

theorem all_isHexDigit : (Nat.toDigits 16 n).all isHexDigit = true := by
  induction n using Nat.strongRecOn with
  | ind n ih =>
    have hdigit : ∀ k : Fin 16, [Nat.digitChar k].all isHexDigit = true := by decide
    by_cases hn : n < 16
    · rw [Nat.toDigits_of_lt_base hn]
      exact hdigit ⟨n, hn⟩
    · rw [Nat.toDigits_of_base_le (by decide) (by omega), all_append, ih (n / 16) (by omega)]
      exact hdigit ⟨n % 16, Nat.mod_lt _ (by decide)⟩

theorem all_isHexDigit_hexText : (hexText 1 n).toList.all isHexDigit = true := by
  rw [hexText, paddedDigits, String.toList_ofList, all_append, all_isHexDigit,
    all_replicate]
  split <;> rfl

theorem Tokenizes.hex (h : Tokenizes rest ts) (n : Nat) :
    Tokenizes (("0x" ++ hexText 1 n ++ "u").toList ++ rest)
      (.number ("0x" ++ hexText 1 n ++ "u").toList :: ts) := by
  obtain ⟨digits, heq⟩ : ∃ digits, digits = (hexText 1 n).toList := ⟨_, rfl⟩
  have hdigits : digits.all isHexDigit = true := by
    rw [heq]
    exact all_isHexDigit_hexText n
  have htext : ("0x" ++ hexText 1 n ++ "u").toList = '0' :: ('x' :: (digits ++ ['u'])) := by
    simp [String.toList_append, heq]
  rw [htext]
  refine h.number rfl ?_
  have hstop : stopsAt isHexDigit ('u' :: rest) = true := rfl
  have htake := (takeWhile_append_stop hdigits hstop).1
  have hsuffix : suffixLength ('u' :: rest) = 1 := rfl
  show 2 + hexLength ((digits ++ ['u']) ++ rest) = _
  rw [append_assoc, singleton_append, hexLength, htake, drop_left, hsuffix]
  simp only [length_cons, length_append, length_nil]
  omega

end Glsl
end Microcode
