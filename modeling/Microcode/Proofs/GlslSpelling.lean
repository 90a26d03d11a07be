import Mathlib.Data.List.Chain
import Microcode.Proofs.GlslTokens

/-!
Expressions are read as what they are.

`Spelled` joins what is needed of a text to put it next to another: it is cut into the tokens of a
tree, it starts with no sign that a sign before it could take up, and it keeps its own minus signs
apart.  Legible expressions are spelled that way, and their trees are flat, so they are read as their
trees.
-/

namespace Microcode

open List
namespace Glsl

variable {minus' : Bool} {n : Numeral} {s : String}

variable {cs ds : List Char} {t u : Tree} {minus : Bool} {ends : List Char → Bool}

/-! ## Minus signs -/

/-- No minus sign stands next to another or at the end. -/
structure Clean (cs : List Char) : Prop where
  apart : cs.IsChain fun a b => ¬ (a = '-' ∧ b = '-')
  last : ∀ c ∈ cs.getLast?, c ≠ '-'

theorem clean_of_all (h : cs.all (· ≠ '-') = true) : Clean cs := by
  have hne : ∀ c ∈ cs, c ≠ '-' := by simpa using h
  refine ⟨?_, fun c hc => hne c (mem_of_getLast? hc)⟩
  clear h
  induction cs with
  | nil => exact .nil
  | cons c cs ih =>
    refine isChain_cons.2 ⟨fun d _ hd => ?_, ih fun d hd => hne d (.tail _ hd)⟩
    exact hne c mem_cons_self hd.1

theorem Clean.append (hcs : Clean cs) (hds : Clean ds) : Clean (cs ++ ds) := by
  refine ⟨isChain_append.2 ⟨hcs.apart, hds.apart, ?_⟩, ?_⟩
  · intro c hc d _ hminus
    exact hcs.last c hc hminus.1
  · intro c hc
    rw [getLast?_append] at hc
    cases hlast : ds.getLast? with
    | none => exact hcs.last c (by simpa [hlast] using hc)
    | some d =>
      have hcd : d = c := by simpa [hlast] using hc
      exact hds.last c (by rw [hlast, hcd]; rfl)

theorem Clean.after_minus {c : Char} (h : Clean (c :: cs)) (hc : c ≠ '-') : Clean ('-' :: c :: cs) :=
  ⟨isChain_cons_cons.2 ⟨fun hminus => hc hminus.2, h.apart⟩,
    fun d hd => h.last d (by simpa using hd)⟩

theorem clean_of_parts (h : cs.all isNamePart = true) : Clean cs := by
  refine clean_of_all (all_eq_true.2 fun c hc => ?_)
  have hpart := all_eq_true.1 h c hc
  rw [decide_eq_true_eq]
  rintro rfl
  cases hpart

theorem clean_name (h : isName s = true) : Clean s.toList :=
  clean_of_parts (all_isNamePart h)

theorem clean_digits (h : cs.all Char.isDigit = true) : Clean cs := by
  refine clean_of_parts (all_eq_true.2 fun c hc => ?_)
  rw [isNamePart, all_eq_true.1 h c hc, Bool.or_true]

theorem Numeral.Valid.clean (h : n.Valid) : Clean n.text := by
  have hfraction : Clean n.fraction := by
    rcases h.fraction with heq | ⟨ds, heq, hds⟩
    · rw [heq]
      exact clean_of_all rfl
    · rw [heq]
      exact (clean_of_all rfl : Clean ['.']).append (clean_digits hds)
  have hexponent : Clean n.exponent := by
    rcases h.exponent with heq | ⟨ds, hne, hds, heq | heq⟩
    · rw [heq]
      exact clean_of_all rfl
    · rw [heq]
      exact (clean_of_all rfl : Clean ['e']).append (clean_digits hds)
    · obtain ⟨d, ds, rfl⟩ := exists_cons_of_ne_nil hne
      have hd : d ≠ '-' := by
        rintro rfl
        exact absurd (all_eq_true.1 hds _ mem_cons_self) (by decide)
      rw [heq]
      exact (clean_of_all rfl : Clean ['e']).append ((clean_digits hds).after_minus hd)
  have hsuffix : Clean n.suffix := by
    rcases h.suffix with heq | heq <;> (rw [heq]; exact clean_of_all rfl)
  exact (clean_digits h.whole).append (hfraction.append (hexponent.append hsuffix))

/-! ## Spelling -/

/-- The text is cut into the tokens of the tree, whatever follows it that meets the condition. -/
structure Spelled (ends : List Char → Bool) (cs : List Char) (t : Tree) (minus : Bool) : Prop where
  tokens : ∀ rest ts, ends rest = true → Tokenizes rest ts → Tokenizes (cs ++ rest) (t.tokens ++ ts)
  /-- Only what is marked so starts with a minus sign. -/
  head : ∃ c rest, cs = c :: rest ∧ c ≠ '=' ∧ (minus = false → c ≠ '-')
  clean : Clean cs

namespace Spelled

theorem mono (h : Spelled (stopsAt isNamePart) cs t minus) : Spelled stops cs t minus :=
  ⟨fun rest ts hrest hts => h.tokens rest ts (stopsAt_name_of_stops hrest) hts, h.head, h.clean⟩

theorem head_append (h : Spelled ends cs t minus) (ds : List Char) :
    ∃ c rest, cs ++ ds = c :: rest ∧ c ≠ '=' ∧ (minus = false → c ≠ '-') := by
  obtain ⟨c, rest, rfl, hc⟩ := h.head
  exact ⟨c, rest ++ ds, rfl, hc⟩

theorem name (h : isName s = true) :
    Spelled (stopsAt isNamePart) s.toList (.name s.toList) false := by
  refine ⟨fun rest ts hrest hts => hts.name h hrest, ?_, clean_name h⟩
  obtain ⟨c, cs, hchars, hstart, -⟩ := cons_of_isName h
  refine ⟨c, cs, hchars, ?_, fun _ => ?_⟩
  · rintro rfl
    cases hstart
  · rintro rfl
    cases hstart

theorem numeral (h : n.Valid) : Spelled stops n.text (.number n.text) false := by
  refine ⟨fun rest ts hrest hts => hts.numeral h hrest, ?_, h.clean⟩
  obtain ⟨c, cs, htext, hc⟩ := h.head
  refine ⟨c, cs, htext, ?_, fun _ => ?_⟩
  · rintro rfl
    cases hc
  · rintro rfl
    cases hc

theorem field (h : Spelled (stopsAt isNamePart) cs t minus) (hs : isName s = true) :
    Spelled (stopsAt isNamePart) (cs ++ '.' :: s.toList) (.field t s.toList) minus := by
  refine ⟨fun rest ts hrest hts => ?_, h.head_append _,
    h.clean.append ((clean_of_all rfl : Clean ['.']).append (clean_name hs))⟩
  have hname := hts.name hs hrest
  obtain ⟨c, cs', hchars, hstart, -⟩ := cons_of_isName hs
  have hpoint : Tokenizes ('.' :: (s.toList ++ rest)) (.symbol ['.'] :: .name s.toList :: ts) := by
    rw [hchars] at hname ⊢
    exact hname.point (by
      rw [Bool.eq_false_iff]
      intro hdigit
      rw [not_isNameStart_of_isDigit hdigit] at hstart
      exact Bool.false_ne_true hstart)
  have := h.tokens _ _ rfl hpoint
  simpa [Tree.tokens] using this

theorem element (h : Spelled (stopsAt isNamePart) cs t minus) (hi : Spelled stops ds u minus') :
    Spelled (stopsAt isNamePart) (cs ++ '[' :: (ds ++ [']'])) (.element t u) minus := by
  have hbracket : Clean (['['] ++ (ds ++ [']'])) :=
    (clean_of_all rfl).append (hi.clean.append (clean_of_all rfl))
  refine ⟨fun rest ts _ hts => ?_, h.head_append _, h.clean.append hbracket⟩
  have hclose : Tokenizes (']' :: rest) (.symbol [']'] :: ts) := hts.bracket (by decide)
  have hopen := (hi.tokens _ _ rfl hclose).bracket (c := '[') (by decide)
  have := h.tokens _ _ rfl hopen
  simpa [Tree.tokens] using this

theorem before {s : UnarySymbol} (h : Spelled stops cs t minus) (hs : s = .minus → minus = false) :
    Spelled stops (s.text.toList ++ cs) (.before s.text.toList t) (s = .minus) := by
  obtain ⟨c, rest', rfl, hequal, hminus⟩ := h.head
  refine ⟨fun rest ts hrest hts => ?_, ?_, ?_⟩
  · have := (h.tokens rest ts hrest hts).leading s (fun heq => hminus (hs heq)) hequal
    simpa [Tree.tokens] using this
  · cases s <;> exact ⟨_, _, rfl, by decide, by decide⟩
  · cases s with
    | minus => exact h.clean.after_minus (hminus (hs rfl))
    | not => exact (clean_of_all rfl : Clean ['!']).append h.clean
    | complement => exact (clean_of_all rfl : Clean ['~']).append h.clean

theorem binary (h : Spelled stops cs t minus) (h' : Spelled stops ds u minus') (s : BinarySymbol) :
    Spelled stops (cs ++ ' ' :: (s.text.toList ++ ' ' :: ds)) (.binary s.text.toList t u) minus := by
  have hsymbol : Clean ([' '] ++ (s.text.toList ++ [' '])) := by
    cases s with
    | minus => exact ⟨by decide, fun c hc => Option.some.inj hc ▸ by decide⟩
    | _ => exact clean_of_all rfl
  have hclean : Clean (' ' :: (s.text.toList ++ ' ' :: ds)) := by
    simpa using hsymbol.append h'.clean
  refine ⟨fun rest ts hrest hts => ?_, h.head_append _, h.clean.append hclean⟩
  have := h.tokens _ _ rfl (((h'.tokens rest ts hrest hts).operator s).space)
  simpa [Tree.tokens] using this

theorem conditional {es : List Char} {v : Tree} {minus'' : Bool} (h : Spelled stops cs t minus)
    (h' : Spelled stops ds u minus') (h'' : Spelled stops es v minus'') :
    Spelled stops (cs ++ (" ? ".toList ++ (ds ++ (" : ".toList ++ es)))) (.conditional t u v)
      minus := by
  have hclean : Clean (" ? ".toList ++ (ds ++ (" : ".toList ++ es))) :=
    (clean_of_all rfl).append (h'.clean.append ((clean_of_all rfl).append h''.clean))
  refine ⟨fun rest ts hrest hts => ?_, h.head_append _, h.clean.append hclean⟩
  have hlast := (h''.tokens rest ts hrest hts).space.bracket (c := ':') (by decide)
  have hmiddle := (h'.tokens _ _ rfl hlast.space).space.bracket (c := '?') (by decide)
  have := h.tokens _ _ rfl hmiddle.space
  simpa [Tree.tokens] using this

theorem call {args : List Tree} (hs : isName s = true) (hclean : Clean cs)
    (hargs : ∀ rest ts, stops rest = true → Tokenizes rest ts →
      Tokenizes (cs ++ rest) (argumentTokens args ++ ts)) :
    Spelled (stopsAt isNamePart) (s.toList ++ '(' :: (cs ++ [')'])) (.call s.toList args) false := by
  have hname := Spelled.name hs
  have hbracket : Clean (['('] ++ (cs ++ [')'])) :=
    (clean_of_all rfl).append (hclean.append (clean_of_all rfl))
  refine ⟨fun rest ts _ hts => ?_, hname.head_append _, hname.clean.append hbracket⟩
  have hclose : Tokenizes (')' :: rest) (.symbol [')'] :: ts) := hts.bracket (by decide)
  have hopen := (hargs _ _ rfl hclose).bracket (c := '(') (by decide)
  have := hname.tokens _ _ rfl hopen
  simpa [Tree.tokens] using this

theorem call_one (hs : isName s = true) (h : Spelled stops cs t minus) :
    Spelled (stopsAt isNamePart) (s.toList ++ '(' :: (cs ++ [')'])) (.call s.toList [t]) false :=
  call hs h.clean h.tokens

theorem signed (h : n.Valid) (negative : Bool) :
    Spelled stops ((if negative then ['-'] else []) ++ n.text) (signedTree negative n.text)
      negative := by
  cases negative with
  | false => exact numeral h
  | true => exact (numeral h).before (s := .minus) fun _ => rfl

theorem hex (n : Nat) : Spelled stops ("0x" ++ hexText 1 n ++ "u").toList
    (.number ("0x" ++ hexText 1 n ++ "u").toList) false := by
  refine ⟨fun rest ts _ hts => hts.hex n, ?_, ?_⟩
  · exact ⟨'0', 'x' :: ((hexText 1 n).toList ++ ['u']), by simp, by decide, fun _ => by decide⟩
  · have hdigits : (hexText 1 n).toList.all isHexDigit = true := all_isHexDigit_hexText n
    simp only [String.toList_append]
    refine ((clean_of_all rfl).append (clean_of_all ?_)).append (clean_of_all rfl)
    refine all_eq_true.2 fun c hc => ?_
    have hdigit := all_eq_true.1 hdigits c hc
    rw [decide_eq_true_eq]
    rintro rfl
    cases hdigit

theorem float (bits : Lane) : Spelled stops (literalText (.f32 bits)).toList
    (literalTree (.f32 bits)) (isNegativeLiteral (.f32 bits)) := by
  by_cases hfinite : Binary32.isFinite bits = true
  · have htext : literalText (.f32 bits) = Binary32.text bits := if_pos hfinite
    have htree : literalTree (.f32 bits) = signedTree (Binary32.isNegative bits)
      (Binary32.text (Binary32.abs bits)).toList := if_pos hfinite
    obtain ⟨n, hn, hdigits⟩ := numeral_text (isNegative_abs bits)
    rw [htext, htree, isNegativeLiteral, hfinite, Bool.true_and, toList_text, ← hdigits]
    exact signed hn _
  · have htext : literalText (.f32 bits) = "uintBitsToFloat(0x" ++ hexText 1 bits.toNat ++ "u)" :=
      if_neg hfinite
    have htree : literalTree (.f32 bits) = .call "uintBitsToFloat".toList
      [.number ("0x" ++ hexText 1 bits.toNat ++ "u").toList] := if_neg hfinite
    have hcall := call_one (s := "uintBitsToFloat") rfl (hex bits.toNat)
    rw [htext, htree, isNegativeLiteral, Bool.eq_false_iff.2 hfinite, Bool.false_and]
    simpa [String.toList_append] using hcall.mono

theorem integer (bits : Lane) : Spelled stops (literalText (.i32 bits)).toList
    (literalTree (.i32 bits)) (isNegativeLiteral (.i32 bits)) := by
  by_cases hmin : bits = BitVec.intMin 32
  · subst hmin
    exact (call_one (s := "int") rfl (hex 0x80000000)).mono
  · have htext : literalText (.i32 bits) = toString bits.toInt := if_neg hmin
    have htree : literalTree (.i32 bits) = signedTree (bits.toInt < 0)
      (toString bits.toInt.natAbs).toList := if_neg hmin
    have hminus : isNegativeLiteral (.i32 bits) = decide (bits.toInt < 0) := by
      simp [isNegativeLiteral, hmin]
    have hsigned := signed (Numeral.valid_ofNat bits.toInt.natAbs (.inl rfl)) (bits.toInt < 0)
    rw [htext, htree, hminus, toList_toString_int]
    simpa [Numeral.text, Numeral.ofNat] using hsigned

theorem literal (c : Constant) :
    Spelled stops (literalText c).toList (literalTree c) (isNegativeLiteral c) := by
  cases c with
  | f32 bits => exact float bits
  | i32 bits => exact integer bits
  | u32 bits =>
    have hnumber := numeral (Numeral.valid_ofNat bits.toNat (.inr rfl))
    simpa [literalText, literalTree, isNegativeLiteral, Numeral.text, Numeral.ofNat] using hnumber
  | bool value => cases value <;> exact (name rfl).mono

theorem member (h : Spelled (stopsAt isNamePart) cs t minus) (i : Nat) :
    Spelled (stopsAt isNamePart) (cs ++ (".data[".toList ++ ((toString i).toList ++ [']'])))
      (elementTree t i) minus := by
  have hindex := numeral (Numeral.valid_ofNat i (.inl rfl))
  have := (h.field (s := "data") rfl).element hindex
  simpa [elementTree, Numeral.text, Numeral.ofNat] using this

end Spelled

/-! ## Places -/

theorem toList_element (l : Location) (i : Nat) : (l.element i).text.toList =
    (l.block?.getD l.text).toList ++ (".data[".toList ++ ((toString i).toList ++ [']'])) := by
  simp [Location.element, String.toList_append]

/-- Elements of what is no block are members of members. -/
theorem spelled_path {l : Location} (hblock : l.block? = none)
    (h : Spelled (stopsAt isNamePart) l.text.toList t minus) (path : List Nat) :
    Spelled (stopsAt isNamePart) (path.foldl Location.element l).text.toList
      (path.foldl elementTree t) minus := by
  induction path generalizing l t with
  | nil => exact h
  | cons i rest ih =>
    refine ih (l := l.element i) hblock ?_
    rw [toList_element, hblock]
    exact h.member i

/-- Of a block only the last index is written. -/
theorem text_block {l : Location} {block : String} {k : Nat} (hblock : l.block? = some block)
    (h : l.text.toList = block.toList ++ (".data[".toList ++ ((toString k).toList ++ [']'])))
    (path : List Nat) : (path.foldl Location.element l).text.toList =
      block.toList ++ (".data[".toList ++ ((toString (path.getLast?.getD k)).toList ++ [']'])) := by
  induction path generalizing l k with
  | nil => exact h
  | cons i rest ih =>
    have hi := toList_element l i
    rw [hblock] at hi
    rw [foldl_cons, ih (l := l.element i) hblock hi, getLast?_cons, Option.getD_some]

theorem isName_builtinName (b : BuiltinVariable) : isName (builtinName b) = true := by
  cases b <;> rfl

theorem spelled_place {v : Variable} (hv : isName v.name = true) (p : Place) :
    Spelled (stopsAt isNamePart) (Location.ofPlace v p).text.toList (placeTree v p) false := by
  obtain ⟨name, shape, storage⟩ := v
  have hname := Spelled.name hv
  cases storage with
  | hidden | input | output => exact spelled_path rfl hname p.path
  | builtinInput b | builtinOutput b =>
    exact spelled_path rfl (Spelled.name (isName_builtinName b)) p.path
  | uniformArray binding length =>
    have htext := text_block (l := Location.ofVariable ⟨name, shape, .uniformArray binding length⟩)
      (k := 0) rfl (by simp [Location.ofVariable]) p.path
    rw [Location.ofPlace, htext]
    exact hname.member _

/-! ## Expressions -/

/-- Whether an expression is written with a minus sign in front. -/
def Expr.startsMinus : Expr → Bool
  | .literal c => isNegativeLiteral c
  | .unary s _ => s = .minus
  | .binary _ a _ => a.startsMinus
  | .conditional c _ _ => c.startsMinus
  | _ => false

/-- Expressions in which operators are applied to operands, and no minus sign follows another. -/
inductive Legible : Level → Expr → Prop
  | literal (c : Constant) : Legible .operand (.literal c)
  | temporary (i : Nat) : Legible .suffixed (.temporary i)
  | location {v : Variable} (named : isName v.name = true) (p : Place) :
    Legible .suffixed (.location v p)
  | component {e : Expr} (h : Legible .suffixed e) (lane : Nat) :
    Legible .suffixed (.component e lane)
  | swizzle {e : Expr} {lanes : List Nat} (h : Legible .suffixed e) (nonempty : lanes ≠ []) :
    Legible .suffixed (.swizzle e lanes)
  | call {name : String} {args : List Expr} (named : isName name = true)
      (h : ∀ a ∈ args, Legible .whole a) : Legible .suffixed (.call name args)
  | unary {s : UnarySymbol} {e : Expr} (h : Legible .operand e)
      (sign : s = .minus → e.startsMinus = false) : Legible .operand (.unary s e)
  | binary {s : BinarySymbol} {a b : Expr} (ha : Legible .operand a) (hb : Legible .operand b) :
    Legible .whole (.binary s a b)
  | conditional {c a b : Expr} (hc : Legible .operand c) (ha : Legible .operand a)
      (hb : Legible .operand b) : Legible .whole (.conditional c a b)
  | word (space : MemorySpace) {e : Expr} (h : Legible .operand e) :
    Legible .suffixed (.word space e)
  | suffixed {e : Expr} (h : Legible .suffixed e) : Legible .operand e
  | operand {e : Expr} (h : Legible .operand e) : Legible .whole e

theorem flat_place (v : Variable) (p : Place) : Tree.Flat .suffixed (placeTree v p) := by
  have hpath {t : Tree} (ht : Tree.Flat .suffixed t) (path : List Nat) :
      Tree.Flat .suffixed (path.foldl elementTree t) := by
    induction path generalizing t with
    | nil => exact ht
    | cons i rest ih => exact ih (.element (.field _ ht) (.operand (.suffixed (.number _))))
  unfold placeTree
  split
  · exact hpath (.name _) _
  · exact hpath (.name _) _
  · exact hpath (.name _) [_]
  all_goals exact hpath (.name _) _

theorem flat_literal (c : Constant) : Tree.Flat .operand (literalTree c) := by
  have hsigned (negative : Bool) (text : List Char) :
      Tree.Flat .operand (signedTree negative text) := by
    cases negative with
    | false => exact .suffixed (.number text)
    | true => exact .before rfl (.suffixed (.number text))
  have hcall (name text : List Char) : Tree.Flat .operand (.call name [.number text]) := by
    refine .suffixed (.call name fun a ha => ?_)
    rw [mem_singleton.1 ha]
    exact .operand (.suffixed (.number text))
  cases c with
  | f32 bits =>
    rw [literalTree]
    split
    · exact hsigned _ _
    · exact hcall _ _
  | i32 bits =>
    rw [literalTree]
    split
    · exact hcall _ _
    · exact hsigned _ _
  | u32 bits => exact .suffixed (.number _)
  | bool value => exact .suffixed (.name _)

theorem mem_argumentTrees {args : List Expr} (h : t ∈ argumentTrees args) :
    ∃ a ∈ args, t = a.tree := by
  induction args with
  | nil => cases h
  | cons e rest ih =>
    rcases mem_cons.1 h with rfl | h
    · exact ⟨e, mem_cons_self, rfl⟩
    · obtain ⟨a, ha, rfl⟩ := ih h
      exact ⟨a, (.tail _ ha), rfl⟩

theorem Legible.flat {level : Level} {e : Expr} (h : Legible level e) : Tree.Flat level e.tree := by
  induction h with
  | literal c => exact flat_literal c
  | temporary i => exact .name _
  | location named p => exact flat_place _ p
  | component h lane ih => exact .field _ ih
  | swizzle h nonempty ih => exact .field _ ih
  | call named h ih =>
    refine .call _ fun t ht => ?_
    obtain ⟨a, ha, rfl⟩ := mem_argumentTrees ht
    exact ih a ha
  | @unary s e h sign ih =>
    refine .before ?_ ih
    cases s <;> rfl
  | @binary s a b ha hb iha ihb =>
    cases s <;> exact .binary rfl iha ihb
  | conditional hc ha hb ihc iha ihb => exact .conditional ihc iha ihb
  | word space h ih =>
    exact .element (.field _ (.name _)) (.binary rfl ih (.suffixed (.number _)))
  | suffixed h ih => exact .suffixed ih
  | operand h ih => exact .operand ih

/-- What may follow an expression of the level. -/
def Level.stops : Level → List Char → Bool
  | .suffixed => stopsAt isNamePart
  | .operand | .whole => Glsl.stops

theorem isName_laneLetter (lane : Nat) : isName (laneLetter lane) = true := by
  unfold laneLetter
  split <;> rfl

theorem isName_letters {lanes : List Nat} (h : lanes ≠ []) :
    isName (String.join (lanes.map laneLetter)) = true := by
  induction lanes with
  | nil => exact absurd rfl h
  | cons k rest ih =>
    rw [map_cons, String.join_cons]
    refine isName_append (isName_laneLetter k) ?_
    cases rest with
    | nil => rfl
    | cons j rest => exact all_isNamePart (ih (cons_ne_nil j rest))

theorem isName_space (space : MemorySpace) : isName space.name = true := by
  cases space <;> rfl

theorem spelled_arguments {args : List Expr}
    (h : ∀ a ∈ args, Spelled stops a.text.toList a.tree a.startsMinus) :
    Clean (argumentsText args).toList ∧ ∀ rest ts, stops rest = true → Tokenizes rest ts →
      Tokenizes ((argumentsText args).toList ++ rest) (argumentTokens (argumentTrees args) ++ ts) := by
  induction args with
  | nil => exact ⟨clean_of_all rfl, fun rest ts _ hts => hts⟩
  | cons e args ih =>
    have he := h e mem_cons_self
    obtain ⟨hclean, htokens⟩ := ih fun a ha => h a (.tail _ ha)
    cases args with
    | nil => exact ⟨he.clean, he.tokens⟩
    | cons e' args =>
      have htext : (argumentsText (e :: e' :: args)).toList =
          e.text.toList ++ ([',', ' '] ++ (argumentsText (e' :: args)).toList) := by
        simp [argumentsText]
      rw [htext]
      refine ⟨he.clean.append ((clean_of_all rfl).append hclean), fun rest ts hrest hts => ?_⟩
      have hcomma := (htokens rest ts hrest hts).space.bracket (c := ',') (by decide)
      have := he.tokens _ _ rfl hcomma
      simpa [argumentTrees, argumentTokens] using this

theorem Legible.startsMinus_suffixed {e : Expr} (h : Legible .suffixed e) :
    e.startsMinus = false := by
  cases h <;> rfl

section Text

variable (e a b c : Expr)

theorem toList_component (lane : Nat) :
    (Expr.component e lane).text.toList = e.text.toList ++ '.' :: (laneLetter lane).toList := by
  show (e.text ++ "." ++ laneLetter lane).toList = _
  simp

theorem toList_swizzle (lanes : List Nat) : (Expr.swizzle e lanes).text.toList =
    e.text.toList ++ '.' :: (String.join (lanes.map laneLetter)).toList := by
  show (e.text ++ "." ++ String.join (lanes.map laneLetter)).toList = _
  simp

theorem toList_call (name : String) (args : List Expr) : (Expr.call name args).text.toList =
    name.toList ++ '(' :: ((argumentsText args).toList ++ [')']) := by
  show (name ++ "(" ++ argumentsText args ++ ")").toList = _
  simp

theorem toList_unary (s : UnarySymbol) :
    (Expr.unary s e).text.toList = s.text.toList ++ e.text.toList := by
  show (s.text ++ e.text).toList = _
  simp

theorem toList_binary (s : BinarySymbol) : (Expr.binary s a b).text.toList =
    a.text.toList ++ ' ' :: (s.text.toList ++ ' ' :: b.text.toList) := by
  show (a.text ++ " " ++ s.text ++ " " ++ b.text).toList = _
  simp

theorem toList_conditional : (Expr.conditional c a b).text.toList =
    c.text.toList ++ (" ? ".toList ++ (a.text.toList ++ (" : ".toList ++ b.text.toList))) := by
  show (c.text ++ " ? " ++ a.text ++ " : " ++ b.text).toList = _
  simp

theorem toList_word (space : MemorySpace) : (Expr.word space e).text.toList =
    (space.name.toList ++ '.' :: "words".toList) ++
      '[' :: ((e.text.toList ++ ' ' :: (">>".toList ++ ' ' :: "2u".toList)) ++ [']']) := by
  show (space.name ++ ".words[" ++ e.text ++ " >> 2u]").toList = _
  simp

end Text

theorem toList_letters (lanes : List Nat) :
    (String.join (lanes.map laneLetter)).toList = letters lanes := by
  rw [String.toList_join, flatMap_map]
  rfl

theorem Legible.spelled {level : Level} {e : Expr} (h : Legible level e) :
    Spelled level.stops e.text.toList e.tree e.startsMinus := by
  induction h with
  | literal c => exact .literal c
  | temporary i =>
    have hname : isName ("_v" ++ toString i) = true := isName_numbered rfl i
    exact .name hname
  | location named p => exact spelled_place named p
  | component h lane ih =>
    rw [h.startsMinus_suffixed] at ih
    rw [toList_component]
    exact ih.field (isName_laneLetter lane)
  | @swizzle e lanes h nonempty ih =>
    have hfield := ih.field (isName_letters nonempty)
    rw [h.startsMinus_suffixed, toList_letters] at hfield
    rw [toList_swizzle, toList_letters]
    exact hfield
  | @call name args named h ih =>
    obtain ⟨hclean, htokens⟩ := spelled_arguments ih
    rw [toList_call]
    exact .call named hclean htokens
  | @unary s e h sign ih =>
    rw [toList_unary]
    exact ih.before sign
  | @binary s a b ha hb iha ihb =>
    rw [toList_binary]
    exact iha.binary ihb s
  | conditional hc ha hb ihc iha ihb =>
    rw [toList_conditional]
    exact ihc.conditional iha ihb
  | word space h ih =>
    have htwo := Spelled.numeral (Numeral.valid_ofNat 2 (.inr rfl))
    have hwords := (Spelled.name (isName_space space)).field (s := "words") rfl
    rw [toList_word]
    exact hwords.element (ih.binary htwo .shiftRight)
  | suffixed h ih => exact ih.mono
  | operand h ih => exact ih

theorem read_of_tokenizes {text : String} (htokens : Tokenizes text.toList t.tokens)
    (hflat : Tree.Flat .whole t) : read text = some t := by
  rw [read, htokens text.length (Nat.le_of_eq String.length_toList)]
  simp [hflat.parse]

theorem Legible.read {e : Expr} (h : Legible .whole e) : read e.text = some e.tree := by
  have htokens := h.spelled.tokens [] [] rfl tokenizes_nil
  rw [append_nil, append_nil] at htokens
  exact read_of_tokenizes htokens h.flat

/-! ## Doubled minus signs -/

/-- A minus sign before an expression that starts with one. -/
def Expr.isDoubled : Expr → Bool
  | .unary .minus e => e.startsMinus
  | _ => false

theorem text_negative {c : Constant} (h : isNegativeLiteral c = true) :
    ∃ n : Numeral, n.Valid ∧ (literalText c).toList = '-' :: n.text := by
  cases c with
  | f32 bits =>
    obtain ⟨hfinite, hnegative⟩ := (Bool.and_eq_true _ _).mp h
    have htext : literalText (.f32 bits) = Binary32.text bits := if_pos hfinite
    obtain ⟨n, hn, hdigits⟩ := numeral_text (isNegative_abs bits)
    refine ⟨n, hn, ?_⟩
    rw [htext, toList_text, if_pos hnegative, hdigits]
    rfl
  | i32 bits =>
    obtain ⟨hmin, hnegative⟩ := (Bool.and_eq_true _ _).mp h
    have htext : literalText (.i32 bits) = toString bits.toInt := if_neg (of_decide_eq_true hmin)
    refine ⟨.ofNat bits.toInt.natAbs [], Numeral.valid_ofNat _ (.inl rfl), ?_⟩
    rw [htext, toList_toString_int, if_pos (of_decide_eq_true hnegative)]
    simp [Numeral.text, Numeral.ofNat]
  | u32 bits | bool value => cases h

/-- A minus sign before a negative literal is read as a decrement of the number without its sign. -/
theorem read_doubled {c : Constant} (h : isNegativeLiteral c = true) : ∃ digits,
    read (Expr.unary .minus (.literal c)).text = some (.before ['-', '-'] (.number digits)) := by
  obtain ⟨n, hn, htext⟩ := text_negative h
  have hnumber := tokenizes_nil.numeral hn rfl
  rw [append_nil] at hnumber
  have hdoubled : Tokenizes ('-' :: '-' :: n.text) [.symbol ['-', '-'], .number n.text] :=
    hnumber.token (by decide) rfl (by simp)
  refine ⟨n.text, read_of_tokenizes ?_ (.operand (.before rfl (.suffixed (.number _))))⟩
  rw [toList_unary, Expr.text, htext]
  exact hdoubled

end Glsl
end Microcode
