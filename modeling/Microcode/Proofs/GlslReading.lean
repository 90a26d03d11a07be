import Microcode.Proofs.GlslGrammar

/-!
Expressions without nested operators read as what they are.

`Tree.tokens` are the tokens of a tree written without brackets.  A tree whose operators are not
nested, except in the arguments of calls and in indices, is grouped from its tokens again; an
expression whose text keeps its tokens apart is therefore read as its tree.  The text that does not
keep them apart is a minus sign before a negative literal.
-/

namespace Microcode

open List
namespace Glsl

/-! ## Tokens of trees -/

mutual

def Tree.tokens : Tree → List Token
  | .name s => [.name s]
  | .number s => [.number s]
  | .field t s => t.tokens ++ [.symbol ['.'], .name s]
  | .element t i => t.tokens ++ .symbol ['['] :: (i.tokens ++ [.symbol [']']])
  | .call s args => .name s :: .symbol ['('] :: (argumentTokens args ++ [.symbol [')']])
  | .before s t => .symbol s :: t.tokens
  | .after t s => t.tokens ++ [.symbol s]
  | .binary s a b => a.tokens ++ .symbol s :: b.tokens
  | .conditional c a b => c.tokens ++ .symbol ['?'] :: (a.tokens ++ .symbol [':'] :: b.tokens)

def argumentTokens : List Tree → List Token
  | [] => []
  | [t] => t.tokens
  | t :: rest => t.tokens ++ .symbol [','] :: argumentTokens rest

end

/-- How tightly a tree is bound: what an index or a field may follow, what an operator may be applied
to, or a whole expression. -/
inductive Level where
  | suffixed
  | operand
  | whole
  deriving DecidableEq

/-- Trees in which operators are applied to operands without operators, except inside brackets. -/
inductive Tree.Flat : Level → Tree → Prop
  | name (s : List Char) : Flat .suffixed (.name s)
  | number (s : List Char) : Flat .suffixed (.number s)
  | field {t : Tree} (s : List Char) (h : Flat .suffixed t) : Flat .suffixed (.field t s)
  | element {t i : Tree} (h : Flat .suffixed t) (hi : Flat .whole i) :
    Flat .suffixed (.element t i)
  | call {args : List Tree} (s : List Char) (h : ∀ a ∈ args, Flat .whole a) :
    Flat .suffixed (.call s args)
  | suffixed {t : Tree} (h : Flat .suffixed t) : Flat .operand t
  | before {s : List Char} {t : Tree} (hs : isLeading s = true) (h : Flat .operand t) :
    Flat .operand (.before s t)
  | operand {t : Tree} (h : Flat .operand t) : Flat .whole t
  | binary {s : List Char} {p : Nat} {a b : Tree} (hs : precedence? s = some p)
      (ha : Flat .operand a) (hb : Flat .operand b) : Flat .whole (.binary s a b)
  | conditional {c a b : Tree} (hc : Flat .operand c) (ha : Flat .operand a)
      (hb : Flat .operand b) : Flat .whole (.conditional c a b)

variable {t a b : Tree} {rest : List Token} {s : List Char} {n level p : Nat}

/-! ## Grouping -/

/-- Nothing that would be a field, an element or the arguments of what stands before it. -/
def endsOperand : List Token → Bool
  | .symbol s :: _ => !([['.'], ['['], ['('], ['+', '+'], ['-', '-']].contains s)
  | .name _ :: _ | .number _ :: _ => false
  | [] => true

/-- A closing bracket, a comma or a colon, or nothing. -/
def endsWhole : List Token → Bool
  | .symbol s :: _ => [[')'], [']'], [','], [':']].contains s
  | .name _ :: _ | .number _ :: _ => false
  | [] => true

theorem parseSuffixes_end (h : endsOperand rest = true) :
    parseSuffixes (n + 1) t rest = some (t, rest) := by
  unfold parseSuffixes
  split
  case h_5 => rfl
  all_goals cases h

theorem parseOperators_end (h : endsWhole rest = true) :
    parseOperators (n + 1) level t rest = some (t, rest) := by
  unfold parseOperators
  split
  case h_1 s rest =>
    have hs : precedence? s = none := by
      simp only [endsWhole, contains_iff_mem, mem_cons, not_mem_nil, or_false] at h
      rcases h with rfl | rfl | rfl | rfl <;> rfl
    rw [hs]
  case h_2 => rfl

/-- An operand goes up to what ends it. -/
def Operand (t : Tree) : Prop :=
  ∀ n rest, 8 * t.tokens.length + 2 ≤ n → endsOperand rest = true →
    parseUnary n (t.tokens ++ rest) = some (t, rest)

/-- A whole expression goes up to what ends it. -/
def Whole (t : Tree) : Prop :=
  ∀ n rest, 8 * t.tokens.length + 4 ≤ n → endsWhole rest = true →
    parseExpr n (t.tokens ++ rest) = some (t, rest)

theorem endsOperand_of_endsWhole (h : endsWhole rest = true) : endsOperand rest = true := by
  unfold endsWhole at h
  split at h
  case h_1 s _ =>
    simp only [contains_iff_mem, mem_cons, not_mem_nil, or_false] at h
    rcases h with rfl | rfl | rfl | rfl <;> rfl
  case h_2 => cases h
  case h_3 => cases h
  case h_4 => rfl

theorem endsOperand_operator (h : precedence? s = some p) :
    endsOperand (.symbol s :: rest) = true := by
  unfold precedence? at h
  split at h <;> first | rfl | cases h

theorem parseBinary_operand (h : Operand t) (hn : 8 * t.tokens.length + 3 ≤ n)
    (hrest : endsWhole rest = true) : parseBinary n level (t.tokens ++ rest) = some (t, rest) := by
  obtain ⟨k, rfl⟩ : ∃ k, n = k + 2 := ⟨n - 2, by omega⟩
  rw [parseBinary, h (k + 1) rest (by omega) (endsOperand_of_endsWhole hrest)]
  exact parseOperators_end hrest

theorem parseExpr_of_binary {ts : List Token} (h : parseBinary n 0 ts = some (t, rest))
    (hrest : endsWhole rest = true) : parseExpr (n + 1) ts = some (t, rest) := by
  rw [parseExpr, h]
  simp only [Bind.bind, Option.bind]
  split
  case h_1 => cases hrest
  case h_2 => rfl

theorem whole_operand (h : Operand t) : Whole t := by
  intro n rest hn hrest
  obtain ⟨k, rfl⟩ : ∃ k, n = k + 1 := ⟨n - 1, by omega⟩
  exact parseExpr_of_binary (parseBinary_operand h (by omega) hrest) hrest

theorem whole_binary (hs : precedence? s = some p) (ha : Operand a) (hb : Operand b) :
    Whole (.binary s a b) := by
  intro n rest hn hrest
  simp only [Tree.tokens, length_append, length_cons] at hn
  obtain ⟨k, rfl⟩ : ∃ k, n = k + 4 := ⟨n - 4, by omega⟩
  have hleft := ha (k + 2) (.symbol s :: (b.tokens ++ rest)) (by omega) (endsOperand_operator hs)
  have hright : parseBinary (k + 1) (p + 1) (b.tokens ++ rest) = some (b, rest) :=
    parseBinary_operand hb (by omega) hrest
  have hoperators : parseOperators (k + 2) 0 a (.symbol s :: (b.tokens ++ rest)) =
      some (.binary s a b, rest) := by
    rw [parseOperators]
    simp only [hs, Nat.zero_le, if_true, hright]
    exact parseOperators_end hrest
  refine parseExpr_of_binary ?_ hrest
  rw [parseBinary, Tree.tokens, append_assoc, cons_append, hleft]
  exact hoperators

theorem whole_conditional {c : Tree} (hc : Operand c) (ha : Operand a) (hb : Operand b) :
    Whole (.conditional c a b) := by
  intro n rest hn hrest
  simp only [Tree.tokens, length_append, length_cons] at hn
  obtain ⟨k, rfl⟩ : ∃ k, n = k + 4 := ⟨n - 4, by omega⟩
  have hcondition : parseBinary (k + 3) 0
      (c.tokens ++ .symbol ['?'] :: (a.tokens ++ .symbol [':'] :: (b.tokens ++ rest))) =
      some (c, .symbol ['?'] :: (a.tokens ++ .symbol [':'] :: (b.tokens ++ rest))) := by
    rw [parseBinary, hc (k + 2) _ (by omega) rfl]
    rfl
  have hfirst := whole_operand ha (k + 3) (.symbol [':'] :: (b.tokens ++ rest)) (by omega) rfl
  have hsecond := whole_operand hb (k + 3) rest (by omega) hrest
  rw [parseExpr, Tree.tokens]
  simp only [append_assoc, cons_append, hcondition, Bind.bind, Option.bind, hfirst, hsecond]
  rfl

/-- Nothing that would make a call of a name. -/
def notCall : List Token → Bool
  | .symbol ['('] :: _ => false
  | _ => true

theorem notCall_of_endsOperand (h : endsOperand rest = true) : notCall rest = true := by
  unfold notCall
  split
  case h_1 => cases h
  case h_2 => rfl

/-- What begins as a tree is grouped to it, and its fields and elements may follow. -/
def Suffixed (t : Tree) : Prop :=
  ∀ n rest, 8 * t.tokens.length + 1 ≤ n → notCall rest = true →
    ∃ m, n ≤ m + 8 * t.tokens.length ∧
      (parsePrimary n (t.tokens ++ rest)).bind (fun r => parseSuffixes n r.1 r.2) =
        parseSuffixes m t rest

theorem suffixed_name : Suffixed (.name s) := by
  intro n rest hn hrest
  obtain ⟨k, rfl⟩ : ∃ k, n = k + 1 := ⟨n - 1, by omega⟩
  refine ⟨k + 1, Nat.le_add_right .., ?_⟩
  have hprimary : parsePrimary (k + 1) (.name s :: rest) = some (.name s, rest) := by
    unfold parsePrimary
    split
    case h_4 heq => cases heq; rfl
    case h_2 heq => cases heq; cases hrest
    case h_3 heq => cases heq; cases hrest
    all_goals simp_all
  rw [Tree.tokens, singleton_append, hprimary]
  rfl

theorem suffixed_number : Suffixed (.number s) := by
  intro n rest hn _
  obtain ⟨k, rfl⟩ : ∃ k, n = k + 1 := ⟨n - 1, by omega⟩
  exact ⟨k + 1, Nat.le_add_right .., rfl⟩

theorem suffixed_field (h : Suffixed t) : Suffixed (.field t s) := by
  intro n rest hn _
  simp only [Tree.tokens, length_append, length_cons, length_nil] at hn ⊢
  obtain ⟨m, hm, heq⟩ := h n (.symbol ['.'] :: .name s :: rest) (by omega) rfl
  obtain ⟨k, rfl⟩ : ∃ k, m = k + 1 := ⟨m - 1, by omega⟩
  refine ⟨k, by omega, ?_⟩
  rw [append_assoc]
  exact heq

theorem suffixed_element {i : Tree} (h : Suffixed t) (hi : Whole i) : Suffixed (.element t i) := by
  intro n rest hn _
  simp only [Tree.tokens, length_append, length_cons, length_nil] at hn ⊢
  obtain ⟨m, hm, heq⟩ := h n (.symbol ['['] :: (i.tokens ++ .symbol [']'] :: rest)) (by omega) rfl
  obtain ⟨k, rfl⟩ : ∃ k, m = k + 1 := ⟨m - 1, by omega⟩
  have hindex := hi k (.symbol [']'] :: rest) (by omega) rfl
  refine ⟨k, by omega, ?_⟩
  simp only [append_assoc, cons_append, nil_append]
  rw [heq, parseSuffixes]
  simp only [hindex, Bind.bind, Option.bind]

/-- A tree does not begin with a closing bracket, and one without operators not with a symbol. -/
theorem Tree.Flat.head {level : Level} (h : Tree.Flat level t) : ∃ tok ts, t.tokens = tok :: ts ∧
    tok ≠ .symbol [')'] ∧ (level = .suffixed → ∀ s, tok ≠ .symbol s) := by
  induction h with
  | name s | number s | call s h _ => exact ⟨_, _, rfl, by simp, by simp⟩
  | field s h ih | element h hi ih _ =>
    obtain ⟨tok, ts, heq, hne, hsymbol⟩ := ih
    exact ⟨tok, ts ++ _, by rw [Tree.tokens, heq]; rfl, hne, hsymbol⟩
  | suffixed h ih | operand h ih =>
    obtain ⟨tok, ts, heq, hne, -⟩ := ih
    exact ⟨tok, ts, heq, hne, by simp⟩
  | before hs h ih =>
    refine ⟨_, _, rfl, ?_, by simp⟩
    rintro ⟨⟩
    cases hs
  | binary hs ha hb iha _ =>
    obtain ⟨tok, ts, heq, hne, -⟩ := iha
    exact ⟨tok, ts ++ _, by rw [Tree.tokens, heq]; rfl, hne, by simp⟩
  | conditional hc ha hb ihc _ _ =>
    obtain ⟨tok, ts, heq, hne, -⟩ := ihc
    exact ⟨tok, ts ++ _, by rw [Tree.tokens, heq]; rfl, hne, by simp⟩

theorem parseArguments_whole {args : List Tree} (hne : args ≠ []) (h : ∀ a ∈ args, Whole a)
    (rest : List Token) (hn : 8 * (argumentTokens args).length + 5 ≤ n) :
    parseArguments n (argumentTokens args ++ .symbol [')'] :: rest) = some (args, rest) := by
  induction args generalizing n with
  | nil => exact absurd rfl hne
  | cons a args ih =>
    obtain ⟨k, rfl⟩ : ∃ k, n = k + 1 := ⟨n - 1, by omega⟩
    have ha := h a mem_cons_self
    cases args with
    | nil =>
      rw [argumentTokens] at hn ⊢
      rw [parseArguments, ha k (.symbol [')'] :: rest) (by omega) rfl]
      rfl
    | cons b args =>
      rw [argumentTokens] at hn ⊢
      · simp only [length_append, length_cons] at hn
        have hrest := ih (cons_ne_nil _ _) (fun c hc => h c (.tail _ hc))
          (n := k) (by omega)
        rw [append_assoc, cons_append, parseArguments,
          ha k (.symbol [','] :: (argumentTokens (b :: args) ++ .symbol [')'] :: rest)) (by omega) rfl]
        simp only [Bind.bind, Option.bind, hrest]
        rfl
      · exact cons_ne_nil _ _
      · exact cons_ne_nil _ _

theorem argumentTokens_head (h : Tree.Flat .whole a) (args : List Tree) :
    ∃ tok ts, argumentTokens (a :: args) = tok :: ts ∧ tok ≠ .symbol [')'] := by
  obtain ⟨tok, ts, heq, hne, -⟩ := h.head
  cases args with
  | nil => exact ⟨tok, ts, by rw [argumentTokens, heq], hne⟩
  | cons b args =>
    refine ⟨tok, ts ++ .symbol [','] :: argumentTokens (b :: args), ?_, hne⟩
    rw [argumentTokens, heq]
    · rfl
    · exact cons_ne_nil _ _

theorem suffixed_call {args : List Tree} (hflat : ∀ a ∈ args, Tree.Flat .whole a)
    (h : ∀ a ∈ args, Whole a) : Suffixed (.call s args) := by
  intro n rest hn _
  simp only [Tree.tokens, length_append, length_cons, length_nil] at hn ⊢
  obtain ⟨k, rfl⟩ : ∃ k, n = k + 1 := ⟨n - 1, by omega⟩
  refine ⟨k + 1, by omega, ?_⟩
  have hprimary : parsePrimary (k + 1)
      (.name s :: .symbol ['('] :: (argumentTokens args ++ .symbol [')'] :: rest)) =
      some (.call s args, rest) := by
    cases args with
    | nil => rfl
    | cons a args =>
      have hargs := parseArguments_whole (n := k) (cons_ne_nil a args) h rest (by omega)
      obtain ⟨tok, ts, heq, hne⟩ := argumentTokens_head (hflat a mem_cons_self) args
      rw [heq, cons_append] at hargs ⊢
      unfold parsePrimary
      split
      case h_2 htok =>
        simp only [List.cons.injEq] at htok
        exact absurd htok.2.2.1 hne
      case h_3 htok =>
        simp only [List.cons.injEq, Token.name.injEq, true_and] at htok
        rw [← htok.1, ← htok.2, hargs]
        rfl
      case h_4 hcall htok =>
        cases htok
        exact absurd rfl (hcall _)
      all_goals simp_all
  simp only [append_assoc, cons_append, nil_append, hprimary]
  rfl

theorem operand_suffixed (hflat : Tree.Flat .suffixed t) (h : Suffixed t) : Operand t := by
  intro n rest hn hrest
  obtain ⟨k, rfl⟩ : ∃ k, n = k + 1 := ⟨n - 1, by omega⟩
  obtain ⟨m, hm, hgroup⟩ := h k rest (by omega) (notCall_of_endsOperand hrest)
  obtain ⟨j, rfl⟩ : ∃ j, m = j + 1 := ⟨m - 1, by omega⟩
  rw [parseSuffixes_end hrest] at hgroup
  obtain ⟨tok, ts, heq, -, hsymbol⟩ := hflat.head
  rw [heq] at hgroup ⊢
  unfold parseUnary
  split
  case h_1 htok => exact absurd (List.cons.inj htok).1 (hsymbol rfl _)
  case h_2 => exact hgroup

theorem operand_before (hs : isLeading s = true) (h : Operand t) : Operand (.before s t) := by
  intro n rest hn hrest
  simp only [Tree.tokens, length_cons] at hn
  obtain ⟨k, rfl⟩ : ∃ k, n = k + 1 := ⟨n - 1, by omega⟩
  rw [Tree.tokens, cons_append, parseUnary]
  simp only [hs, if_true, h k rest (by omega) hrest]
  rfl

/-- What a tree of the level is grouped to. -/
def Groups : Level → Tree → Prop
  | .suffixed, t => Suffixed t
  | .operand, t => Operand t
  | .whole, t => Whole t

theorem Tree.Flat.groups {level : Level} (h : Tree.Flat level t) : Groups level t := by
  induction h with
  | name s => exact suffixed_name
  | number s => exact suffixed_number
  | field s h ih => exact suffixed_field ih
  | element h hi ih ihi => exact suffixed_element ih ihi
  | call s h ih => exact suffixed_call h ih
  | suffixed h ih => exact operand_suffixed h ih
  | before hs h ih => exact operand_before hs ih
  | operand h ih => exact whole_operand ih
  | binary hs ha hb iha ihb => exact whole_binary hs iha ihb
  | conditional hc ha hb ihc iha ihb => exact whole_conditional ihc iha ihb

/-- The tokens of a tree are grouped to it. -/
theorem Tree.Flat.parse (h : Tree.Flat .whole t) :
    parseExpr (8 * t.tokens.length + 8) t.tokens = some (t, []) := by
  have hwhole : Whole t := h.groups
  have := hwhole (8 * t.tokens.length + 8) [] (by omega) rfl
  rwa [append_nil] at this

end Glsl
end Microcode
