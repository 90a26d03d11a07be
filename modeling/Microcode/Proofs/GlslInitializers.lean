import Microcode.Proofs.GlslSpelling
import Microcode.Proofs.GlslTerms
import Microcode.Proofs.TypedAssembly

/-!
Every initializer is read as the operation that was asked for.

The one exception is the negation of a negative literal: the minus sign of the operator and the one of
the literal stand side by side and are read as a decrement.  Nothing else in the text of a module has
two minus signs next to each other.
-/

namespace Microcode

open List
namespace Glsl

variable {cs : List Char} {stage : Stage} {s : Statement} {name : String}

variable {l : Listing} {d : Draft} {t : Term} {shape : Shape} {op : Op} {e x y : Expr} {a b v : Value}
  {known : Statement → Prop}

/-! ## Requests are legible -/

theorem isName_typeName (s : Shape) : isName (typeName s) = true := by
  obtain ⟨scalar, n⟩ := s
  unfold typeName
  by_cases hn : n = 1
  · subst hn
    cases scalar <;> rfl
  · rw [if_neg hn]
    apply isName_numbered
    dsimp only
    cases scalar <;> rfl

theorem isName_bitcastName (source target : Scalar) (s : Shape) :
    isName (bitcastName source target s) = true := by
  unfold bitcastName
  split
  case h_5 => exact isName_typeName s
  all_goals rfl

theorem isName_compareName (op : CompareOp) : isName (compareName op) = true := by
  cases op <;> rfl

theorem isName_builtinFunction (f : Builtin) : isName (builtinFunction f) = true := by
  cases f <;> rfl

theorem isName_helper (h : Helper) : isName h.name = true := by
  cases h with
  | unpack encoding => cases encoding <;> rfl
  | pack encoding => cases encoding <;> rfl

theorem Legible.call_one (named : isName name = true) (h : Legible .operand e) :
    Legible .suffixed (.call name [e]) := by
  refine .call named fun a ha => ?_
  rw [mem_singleton.1 ha]
  exact .operand h

theorem Legible.call_two (named : isName name = true) (hx : Legible .operand x)
    (hy : Legible .operand y) : Legible .suffixed (.call name [x, y]) := by
  refine .call named fun a ha => ?_
  rcases mem_cons.1 ha with rfl | ha
  · exact .operand hx
  · rw [mem_singleton.1 ha]
    exact .operand hy

theorem Legible.inside (named : isName name = true) (h : Legible .whole e) :
    Legible .whole (.call name [e]) := by
  refine .operand (.suffixed (.call named fun a ha => ?_))
  rw [mem_singleton.1 ha]
  exact h

theorem Term.Plain.legible (h : t.Plain) : Legible .operand t.expr := by
  cases h with
  | literal c => exact .literal c
  | temporary i shape => exact .suffixed (.temporary i)
  | component i lane scalar => exact .suffixed (.component (.temporary i) lane)

theorem Widened.legible {n : Nat} (h : Widened known t n e) (ht : t.Plain) : Legible .operand e := by
  cases h with
  | same wide => exact ht.legible
  | repeated scalar h => exact .suffixed (.temporary _)

theorem legible_binaryExpr (op : BinaryOp) (shape : Shape) (hx : Legible .operand x)
    (hy : Legible .operand y) : Legible .whole (binaryExpr op shape x y) := by
  have hnumber {e : Expr} (scalar : Scalar) (he : Legible .operand e) :
      Legible .operand (.call (typeName (withScalar shape scalar)) [e]) :=
    .suffixed (.call_one (isName_typeName _) he)
  unfold binaryExpr
  split
  · exact .operand (.suffixed (.call_two rfl hx hy))
  · exact .operand (.suffixed (.call_two rfl hx hy))
  · exact .inside (isName_typeName _) (.binary (hnumber .u32 hx) (hnumber .u32 hy))
  · exact .inside (isName_typeName _) (.binary (hnumber .u32 hx) hy)
  · exact .inside (isName_typeName _) (.binary (hnumber .i32 hx) hy)
  · exact .binary hx hy

theorem Draft.Matches.plain (hd : d.Matches l) (hv : l.Has v shape) : (d.termOf v).Plain :=
  (hd.has hv).2

theorem Draft.Matches.legible (hd : d.Matches l) (hv : l.Has v shape) :
    Legible .operand (d.termOf v).expr := (hd.plain hv).legible

theorem legible_wordAt {space : MemorySpace} {offset : Value} (hd : d.Matches l)
    (hv : l.Has offset shape) : Legible .suffixed (wordAt d space offset) := by
  refine .word space ?_
  split
  · exact hd.legible hv
  · exact .suffixed (.call_one rfl (hd.legible hv))

theorem legible_location (hd : d.Matches l) (hl : l.Proper) {place : Place}
    (h : l.Declares place) : Legible .suffixed (.location (d.variableAt place) place) := by
  refine .location ?_ place
  rw [Draft.variableAt, hd.vars]
  exact (hl.vars place h).name

theorem legible_pick (ha : (d.termOf a).Plain) (hb : (d.termOf b).Plain) (i : Nat) :
    Legible .operand (pick (d.termOf a) (d.termOf b) i) := by
  rw [pick]
  split
  · exact (ha.component_plain i).legible
  · exact (hb.component_plain _).legible

theorem legible_call_terms {args : List Value} (named : isName name = true)
    (h : ∀ v ∈ args, (d.termOf v).Plain) :
    Legible .suffixed (.call name ((args.map d.termOf).map Term.expr)) := by
  refine .call named fun e he => ?_
  obtain ⟨t, ht, rfl⟩ := mem_map.1 he
  obtain ⟨v, hv, rfl⟩ := mem_map.1 ht
  exact .operand (h v hv).legible

/-- The negation of a literal that is negative already is the one request that is not legible. -/
theorem legible_minus (h : t.Plain) :
    Legible .whole (.unary .minus t.expr) ∨ ∃ c, t.expr = .literal c ∧ isNegativeLiteral c = true := by
  have hlegible := h.legible
  cases h with
  | literal c =>
    cases hc : isNegativeLiteral c with
    | false => exact .inl (.operand (.unary hlegible fun _ => hc))
    | true => exact .inr ⟨c, rfl, hc⟩
  | temporary i shape | component i lane scalar =>
    exact .inl (.operand (.unary hlegible fun _ => rfl))

theorem mem_values_of_operandsOf (h : v ∈ operandsOf op) : v ∈ op.values := by
  cases op with
  | binary | compare => exact h
  | select => exact .tail _ h
  | _ => cases h

theorem Asked.legible (h : Asked known d shape op e) (hd : d.Matches l) (hl : l.Proper)
    (typed : l.Typed op shape) :
    Legible .whole e ∨ ∃ c, e = .unary .minus (.literal c) ∧ isNegativeLiteral c = true := by
  have plain {v : Value} (hv : v ∈ op.values) : (d.termOf v).Plain := by
    obtain ⟨s, hs⟩ := typed.has v hv
    exact hd.plain hs
  have first {v : Value} {rest : List Value} (hv : op.values = v :: rest) : (d.termOf v).Plain :=
    plain (hv ▸ mem_cons_self)
  have second {u v : Value} {rest : List Value} (hv : op.values = u :: v :: rest) :
      (d.termOf v).Plain :=
    plain (hv ▸ mem_cons_of_mem _ mem_cons_self)
  have third {t u v : Value} (hv : op.values = [t, u, v]) : (d.termOf v).Plain :=
    plain (hv ▸ mem_cons_of_mem _ (mem_cons_of_mem _ mem_cons_self))
  have call {name : String} {v : Value} (named : isName name = true) (hv : op.values = [v]) :
      Legible .whole (.call name [(d.termOf v).expr]) :=
    .operand (.suffixed (.call_one named (first hv).legible))
  cases h with
  | widen operand scalar =>
    exact .inl (.operand (.suffixed (.call_one (isName_typeName _)
      (plain (mem_values_of_operandsOf operand)).legible)))
  | construct =>
    exact .inl (.operand (.suffixed (legible_call_terms (isName_typeName _) fun v hv => plain hv)))
  | load =>
    cases typed with
    | load valid => exact .inl (.operand (.suffixed (legible_location hd hl valid.declared)))
  | insert => exact .inl (.operand (first rfl).legible)
  | swizzle vector inside =>
    cases typed with
    | shuffle a_has b_has nonempty width inside =>
      obtain ⟨i, hi⟩ := (first rfl).vector vector
      rw [hi]
      exact .inl (.operand (.suffixed (.swizzle (.temporary i) nonempty)))
  | shuffle =>
    refine .inl (.operand (.suffixed (.call (isName_typeName _) fun e he => ?_)))
    obtain ⟨i, -, rfl⟩ := mem_map.1 he
    exact .operand (legible_pick (first rfl) (second rfl) i)
  | binary left right direct =>
    exact .inl (legible_binaryExpr _ _ (left.legible (first rfl)) (right.legible (second rfl)))
  | bits left right bitwise =>
    exact .inl (legible_binaryExpr _ _ (.suffixed (.call_one rfl (left.legible (first rfl))))
      (.suffixed (.call_one rfl (right.legible (second rfl)))))
  | ofBits left right h =>
    exact .inl (.operand (.suffixed (.call_one rfl (.suffixed (.temporary _)))))
  | negate number =>
    rcases legible_minus (first rfl) with h | ⟨c, hc, hnegative⟩
    · exact .inl h
    · exact .inr ⟨c, by rw [hc], hnegative⟩
  | abs | notTruths => exact .inl (call rfl rfl)
  | notTruth truth | complement integer =>
    exact .inl (.operand (.unary (first rfl).legible fun h => nomatch h))
  | complementBits float =>
    exact .inl (.inside rfl (.operand (.unary (.suffixed (.call_one rfl (first rfl).legible))
      fun h => nomatch h)))
  | compareOne scalar left right =>
    exact .inl (.binary (left.legible (first rfl)) (right.legible (second rfl)))
  | compare vector left right =>
    exact .inl (.operand (.suffixed (.call_two (isName_compareName _) (left.legible (first rfl))
      (right.legible (second rfl)))))
  | selectOne scalar left right =>
    exact .inl (.conditional (first rfl).legible (left.legible (second rfl))
      (right.legible (third rfl)))
  | select vector left right =>
    refine .inl (.operand (.suffixed (.call rfl ?_)))
    simp only [forall_mem_cons, not_mem_nil, false_implies, implies_true, and_true]
    exact ⟨.operand (right.legible (third rfl)), .operand (left.legible (second rfl)),
      .operand (first rfl).legible⟩
  | product scalar => exact .inl (.binary (first rfl).legible (second rfl).legible)
  | builtin =>
    refine .inl (.operand (.suffixed (legible_call_terms (isName_builtinFunction _) fun v hv => ?_)))
    cases typed with
    | dot a_has b_has => exact plain hv
    | builtin notDot arity args_have => exact hd.plain (args_have v hv)
  | bitcast => exact .inl (call (isName_bitcastName _ _ _) rfl)
  | convert => exact .inl (call (isName_typeName _) rfl)
  | helper => exact .inl (call (isName_helper _) rfl)
  | fetch =>
    cases typed with
    | fetch has integer =>
      exact .inl (.operand (.suffixed (.call_one rfl (.suffixed (legible_wordAt hd has)))))

/-! ## Names in a draft -/

/-- A declaration of a well-formed name. -/
def Declaration.isNamed : Declaration → Bool
  | .hidden _ name | .input _ _ _ name | .output _ _ name | .uniformBlock _ _ _ name => isName name
  | .memoryBlock _ => true

/-- Everything that has a name in a draft has a well-formed one. -/
structure Draft.Named (d : Draft) : Prop where
  declarations : ∀ x ∈ d.module.declarations, x.isNamed = true
  functions : ∀ f ∈ d.module.functions, isName f.name = true
  opened : ∀ name ∈ d.opened.map Function.name, isName name = true
  entry : isName d.module.entry.name = true
  names : ∀ name ∈ d.names, isName name = true

variable {base d' : Draft} {entry : Entry}

theorem Draft.Named.adds (h : d.Named) (hadds : Adds base entry d d') : d'.Named where
  declarations x hx := by
    rcases hadds.declarations x hx with hold | ⟨space, rfl⟩
    · exact h.declarations x hold
    · rfl
  functions := by
    rw [hadds.functions]
    exact h.functions
  opened := by
    rw [hadds.opened]
    exact h.opened
  entry := by
    rw [hadds.entryName]
    exact h.entry
  names := by
    rw [hadds.names]
    exact h.names

theorem Draft.Named.closed (h : d.Named) : d.closed.Named := by
  cases hopened : d.opened with
  | none =>
    rw [closed_none hopened]
    exact h
  | some f =>
    have hf : isName f.name = true := h.opened f.name (by rw [hopened]; rfl)
    rw [closed_some hopened]
    refine ⟨h.declarations, fun g hg => ?_, fun _ hg => (nomatch hg), h.entry, h.names⟩
    rcases Array.mem_push.1 hg with hg | rfl
    · exact h.functions g hg
    · exact hf

theorem Draft.Named.declared (h : d.Named) {x : Declaration} (hx : x.isNamed = true)
    (v : Variable) :
    Draft.Named { d with
      module := { d.module with declarations := d.module.declarations.push x }
      vars := d.vars.push v } := by
  refine ⟨fun y hy => ?_, h.functions, h.opened, h.entry, h.names⟩
  rcases Array.mem_push.1 hy with hy | rfl
  · exact h.declarations y hy
  · exact hx

theorem Draft.Named.wrote (h : d.Named) (hd : d.Matches l) (hl : l.Proper) (he : l.Admits entry) :
    (d.wrote entry).Named := by
  cases he with
  | define typed =>
    have hadds := h.adds (draws_define hd hl typed).1
    exact ⟨hadds.declarations, hadds.functions, hadds.opened, hadds.entry, hadds.names⟩
  | reuse typed has => exact h
  | @declare x fits =>
    obtain ⟨name, shape, storage⟩ := x
    cases storage with
    | hidden => exact h.declared (x := .hidden shape name) fits.name _
    | input location => exact h.declared (x := .input location _ shape name) fits.name _
    | output location => exact h.declared (x := .output location shape name) fits.name _
    | uniformArray binding => exact h.declared (x := .uniformBlock binding _ shape name) fits.name _
    | builtinInput | builtinOutput => exact ⟨h.declarations, h.functions, h.opened, h.entry, h.names⟩
  | element declared inside => exact h
  | store valid has => exact h.adds (draws_store _ _).1
  | storeMemory offset_has integer has => exact h.adds (draws_storeMemory _ _ _).1
  | @beginFunction name phase named =>
    have hclosed := h.closed
    refine ⟨hclosed.declarations, hclosed.functions, fun _ hname => ?_, hclosed.entry,
      fun n hn => ?_⟩
    · obtain rfl : name = _ := Option.some.inj hname
      exact named
    · rcases Array.mem_push.1 hn with hn | rfl
      · exact hclosed.names n hn
      · exact named
  | endFunction phase => exact h.closed
  | beginEntry phase => exact h.closed
  | call phase known => exact h.adds (draws_call _).1

theorem named_ofListing (stage : Stage) (h : l.WellTyped) : (Draft.ofListing stage l).Named := by
  induction h with
  | empty target =>
    have hmain : isName "main" = true := rfl
    exact ⟨fun x hx => absurd hx (Array.not_mem_empty x), fun f hf => absurd hf (Array.not_mem_empty f),
      fun _ hname => (nomatch hname), hmain, fun n hn => absurd hn (Array.not_mem_empty n)⟩
  | add before admitted ih =>
    rw [ofListing_add]
    exact ih.wrote (matches_ofListing stage before) before.proper admitted

/-! ## Minus signs in the text of a module -/

/-- A text without minus signs. -/
def isPlain (s : String) : Bool := s.toList.all (· ≠ '-')

theorem isPlain_append (s t : String) : isPlain (s ++ t) = (isPlain s && isPlain t) := by
  rw [isPlain, String.toList_append, all_append]
  rfl

theorem isPlain_name {s : String} (h : isName s = true) : isPlain s = true := by
  refine all_eq_true.2 fun c hc => ?_
  have hpart := all_eq_true.1 (all_isNamePart h) c hc
  rw [decide_eq_true_eq]
  rintro rfl
  cases hpart

theorem isPlain_nat (n : Nat) : isPlain (toString n) = true := by
  refine all_eq_true.2 fun c hc => ?_
  have hdigit := all_eq_true.1 (all_isDigit_toString n) c hc
  rw [decide_eq_true_eq]
  rintro rfl
  cases hdigit

theorem isPlain_typeName (s : Shape) : isPlain (typeName s) = true :=
  isPlain_name (isName_typeName s)

theorem isPlain_zeroText (s : Shape) : isPlain (zeroText s) = true := by
  have hzero (scalar : Scalar) : isPlain (literalText (.zero scalar)) = true := by
    cases scalar <;> rfl
  unfold zeroText
  by_cases hn : s.count = 1
  · rw [if_pos hn]
    exact hzero _
  · rw [if_neg hn]
    simp only [isPlain_append, isPlain_typeName, hzero]
    rfl

theorem isPlain_declaration {x : Declaration} (h : x.isNamed = true) : isPlain x.text = true := by
  cases x with
  | hidden shape name =>
    simp only [Declaration.text, isPlain_append, isPlain_typeName, isPlain_zeroText, isPlain_name h]
    rfl
  | input location flat shape name =>
    simp only [Declaration.text, layoutText, isPlain_append, isPlain_typeName, isPlain_nat,
      isPlain_name h]
    cases flat <;> rfl
  | output location shape name =>
    simp only [Declaration.text, layoutText, isPlain_append, isPlain_typeName, isPlain_nat,
      isPlain_name h]
    rfl
  | uniformBlock binding length shape name =>
    simp only [Declaration.text, layoutText, blockText, isPlain_append, isPlain_typeName,
      isPlain_nat, isPlain_name h]
    rfl
  | memoryBlock space => cases space <;> rfl

theorem isPlain_helperText (h : Helper) : isPlain (helperText h) = true := by
  cases h with
  | unpack encoding => cases encoding <;> rfl
  | pack encoding => cases encoding <;> rfl

theorem clean_of_isPlain {s : String} (h : isPlain s = true) : Clean s.toList := clean_of_all h

theorem clean_append {s t : String} (hs : Clean s.toList) (ht : Clean t.toList) :
    Clean (s ++ t).toList := by
  rw [String.toList_append]
  exact hs.append ht

theorem clean_join {texts : List String} (h : ∀ s ∈ texts, Clean s.toList) :
    Clean (String.join texts).toList := by
  induction texts with
  | nil => exact clean_of_all rfl
  | cons s rest ih =>
    rw [String.join_cons]
    exact clean_append (h s mem_cons_self) (ih fun t ht => h t (.tail _ ht))

/-- The declaration of a temporary as the negation of a negative literal. -/
def Statement.isDoubled : Statement → Bool
  | .temporary _ _ value => value.isDoubled
  | .assign _ _ | .call _ => false

theorem clean_temporary {i : Nat} (h : Clean e.text.toList) :
    Clean (Statement.temporary shape i e).text.toList := by
  have hi : isPlain (Expr.temporary i).text = true := by
    rw [Expr.text, isPlain_append, isPlain_nat]
    rfl
  have hbefore : isPlain (typeName shape ++ " " ++ (Expr.temporary i).text ++ " = ") = true := by
    simp only [isPlain_append, isPlain_typeName, hi]
    rfl
  exact clean_append (clean_append (clean_of_isPlain hbefore) h) (clean_of_isPlain rfl)

theorem clean_assign (hx : Clean x.text.toList) (hy : Clean y.text.toList) :
    Clean (Statement.assign x y).text.toList :=
  clean_append (clean_append (clean_append hx (clean_of_isPlain rfl)) hy) (clean_of_isPlain rfl)

theorem Legible.clean {level : Level} (h : Legible level e) : Clean e.text.toList := h.spelled.clean

/-- What is asked for keeps minus signs apart, with the one exception. -/
theorem Requested.clean (h : Requested known d entry s) (hd : d.Matches l) (hl : l.Proper)
    (hn : d.Named) (he : l.Admits entry) (hs : s.isDoubled = false) : Clean s.text.toList := by
  cases h with
  | temporary h =>
    cases he with
    | define typed =>
      rcases h.legible hd hl typed with h | ⟨c, rfl, hc⟩
      · exact clean_temporary h.clean
      · exact absurd (hc.symm.trans hs) Bool.noConfusion
  | @insert shape v part i index =>
    cases he with
    | define typed =>
      cases typed with
      | insert has part_has inside =>
        refine clean_assign ?_ (hd.legible part_has).clean
        exact ((Term.Plain.temporary i _).component_plain index).legible.clean
  | store =>
    cases he with
    | store valid has =>
      exact clean_assign (legible_location hd hl valid.declared).clean (hd.legible has).clean
  | @storeMemory space offset v cast h =>
    have hcast : isName cast = true := by rcases h with rfl | rfl <;> rfl
    cases he with
    | storeMemory offset_has integer has =>
      exact clean_assign (legible_wordAt hd offset_has).clean
        (Legible.call_one hcast (hd.legible has)).clean
  | @call f =>
    refine clean_append (clean_of_isPlain ?_) (clean_of_isPlain rfl)
    rw [Array.getD_eq_getD_getElem?]
    cases hname : d.names[f.index]? with
    | none => rfl
    | some name => exact isPlain_name (hn.names name (Array.mem_of_getElem? hname))

/-! ## Modules -/

/-- Every statement of a module. -/
def Module.statements (m : Module) : List Statement :=
  m.functions.toList.flatMap (fun f => f.body.toList) ++ m.entry.body.toList

theorem ofListing_eq (stage : Stage) (l : Listing) :
    Module.ofListing stage l = (Draft.ofListing stage l).closed.module := rfl

theorem mem_statements :
    s ∈ (Module.ofListing stage l).statements ↔ s ∈ (Draft.ofListing stage l).statements := by
  rw [← mem_closed, ofListing_eq, Draft.statements, opened_closed]
  simp [Module.statements]

theorem clean_function {f : Function} (hname : isName f.name = true)
    (h : ∀ s ∈ f.body, Clean s.text.toList) : Clean f.text.toList := by
  have hhead : isPlain ("void " ++ f.name ++ "() \x7b\n") = true := by
    rw [isPlain_append, isPlain_append, isPlain_name hname]
    rfl
  refine clean_append (clean_append (clean_of_isPlain hhead) (clean_join fun line hline => ?_))
    (clean_of_isPlain rfl)
  obtain ⟨s, hs, rfl⟩ := mem_map.1 hline
  exact clean_append (clean_append (clean_of_isPlain rfl) (h s (Array.mem_toList_iff.1 hs)))
    (clean_of_isPlain rfl)

theorem clean_module {m : Module} (hdeclarations : ∀ x ∈ m.declarations, x.isNamed = true)
    (hfunctions : ∀ f ∈ m.functions, isName f.name = true) (hentry : isName m.entry.name = true)
    (h : ∀ s ∈ m.statements, Clean s.text.toList) : Clean m.text.toList := by
  have hdeclared : Clean (String.join (m.declarations.toList.map fun d => d.text ++ "\n")).toList := by
    refine clean_join fun text ht => ?_
    obtain ⟨x, hx, rfl⟩ := mem_map.1 ht
    exact clean_append (clean_of_isPlain (isPlain_declaration
      (hdeclarations x (Array.mem_toList_iff.1 hx)))) (clean_of_isPlain rfl)
  have hhelpers : Clean (String.join (m.helpers.toList.map helperText)).toList := by
    refine clean_join fun text ht => ?_
    obtain ⟨x, -, rfl⟩ := mem_map.1 ht
    exact clean_of_isPlain (isPlain_helperText x)
  have hblank : Clean (if m.helpers.isEmpty then "" else "\n").toList := by
    split <;> exact clean_of_isPlain rfl
  have hbodies : Clean (String.join (m.functions.toList.map fun f => f.text ++ "\n")).toList := by
    refine clean_join fun text ht => ?_
    obtain ⟨f, hf, rfl⟩ := mem_map.1 ht
    refine clean_append (clean_function (hfunctions f (Array.mem_toList_iff.1 hf)) fun s hs => ?_)
      (clean_of_isPlain rfl)
    exact h s (mem_append_left _ (mem_flatMap.2 ⟨f, hf, Array.mem_toList_iff.2 hs⟩))
  have hlast : Clean m.entry.text.toList :=
    clean_function hentry fun s hs => h s (mem_append_right _ (Array.mem_toList_iff.2 hs))
  have hversion : Clean "#version 450\n\n".toList := clean_of_isPlain rfl
  have hnewline : Clean "\n".toList := clean_of_isPlain rfl
  unfold Module.text
  refine clean_append (clean_append (clean_append ?_ hblank) hbodies) hlast
  exact clean_append (clean_append (clean_append hversion hdeclared) hnewline) hhelpers

theorem infix_join {s : String} {texts : List String} (h : s ∈ texts) :
    s.toList <:+: (String.join texts).toList := by
  rw [String.toList_join]
  obtain ⟨before, after, rfl⟩ := append_of_mem h
  exact ⟨before.flatMap String.toList, after.flatMap String.toList, by simp⟩

theorem infix_append_left {s t : String} (h : cs <:+: s.toList) : cs <:+: (s ++ t).toList := by
  rw [String.toList_append]
  exact h.trans (prefix_append ..).isInfix

theorem infix_append_right {s t : String} (h : cs <:+: t.toList) : cs <:+: (s ++ t).toList := by
  rw [String.toList_append]
  exact h.trans (suffix_append ..).isInfix

theorem infix_function {f : Function} (hs : s ∈ f.body) (h : cs <:+: s.text.toList) :
    cs <:+: f.text.toList := by
  have hline : cs <:+: ("    " ++ s.text ++ "\n").toList :=
    infix_append_left (infix_append_right h)
  refine infix_append_left (infix_append_right (hline.trans (infix_join ?_)))
  exact mem_map.2 ⟨s, Array.mem_toList_iff.2 hs, rfl⟩

theorem infix_module {m : Module} (hs : s ∈ m.statements) (h : cs <:+: s.text.toList) :
    cs <:+: m.text.toList := by
  unfold Module.text
  rw [Module.statements, mem_append] at hs
  rcases hs with hs | hs
  · obtain ⟨f, hf, hs⟩ := mem_flatMap.1 hs
    have htext : cs <:+: (f.text ++ "\n").toList :=
      infix_append_left (infix_function (Array.mem_toList_iff.1 hs) h)
    have hmem : f.text ++ "\n" ∈ m.functions.toList.map fun f => f.text ++ "\n" :=
      mem_map.2 ⟨f, hf, rfl⟩
    exact infix_append_left (infix_append_right (htext.trans (infix_join hmem)))
  · exact infix_append_right (infix_function (Array.mem_toList_iff.1 hs) h)

theorem Clean.not_doubled (h : Clean cs) : ¬ ['-', '-'] <:+: cs := by
  intro hinfix
  have hchain := List.IsChain.infix h.apart hinfix
  exact (isChain_cons_cons.1 hchain).1 ⟨rfl, rfl⟩

theorem read_doubled_ne {c : Constant} (h : isNegativeLiteral c = true) :
    read (Expr.unary .minus (.literal c)).text ≠ some (Expr.unary .minus (.literal c)).tree := by
  obtain ⟨digits, hread⟩ := read_doubled h
  rw [hread]
  intro heq
  have hsymbol : ['-', '-'] = ['-'] := (Tree.before.inj (Option.some.inj heq)).1
  cases hsymbol

theorem infix_doubled {c : Constant} (h : isNegativeLiteral c = true) (i : Nat) :
    ['-', '-'] <:+: (Statement.temporary shape i (.unary .minus (.literal c))).text.toList := by
  obtain ⟨n, -, htext⟩ := text_negative h
  refine infix_append_left (infix_append_right ?_)
  rw [toList_unary, Expr.text, htext]
  exact (prefix_append ['-', '-'] n.text).isInfix

/-- An initializer in the module of a well-typed listing is what an entry asked for, and is read so
unless it doubles a minus sign. -/
theorem read_initializer (h : l.WellTyped) {i : Nat} {value : Expr}
    (hs : .temporary shape i value ∈ (Module.ofListing stage l).statements) :
    (∃ n shape' op, l.entries[n]? = some (.define shape' op) ∧
      Asked (· ∈ (Module.ofListing stage l).statements) (Draft.ofListing stage (l.upTo n)) shape' op
        value) ∧
    (Legible .whole value ∨ ∃ c, value = .unary .minus (.literal c) ∧ isNegativeLiteral c = true) := by
  obtain ⟨n, e, hentry, hrequested⟩ := statements_requested stage h (mem_statements.1 hs)
  obtain ⟨hn, rfl⟩ := Array.getElem?_eq_some_iff.1 hentry
  have hadmits := h.admits n hn
  have hbefore := h.upTo n
  have hrequested := hrequested.mono fun s hs => mem_statements.2 hs
  generalize hdefine : l.entries[n] = e at hrequested hadmits hentry
  cases hrequested with
  | @temporary shape' _ op _ _ hasked =>
    refine ⟨⟨n, shape', op, hentry, hasked⟩, ?_⟩
    cases hadmits with
    | define typed => exact hasked.legible (matches_ofListing stage hbefore) hbefore.proper typed

theorem Legible.isDoubled {level : Level} (h : Legible level e) : e.isDoubled = false := by
  induction h with
  | @unary s e h sign =>
    cases s with
    | minus => exact sign rfl
    | not | complement => rfl
  | suffixed _ ih | operand _ ih => exact ih
  | _ => rfl

theorem eq_of_isDoubled (h : l.WellTyped) (hs : s ∈ (Module.ofListing stage l).statements)
    (hdoubled : s.isDoubled = true) :
    ∃ shape i c, s = .temporary shape i (.unary .minus (.literal c)) ∧ isNegativeLiteral c = true := by
  cases s with
  | temporary shape i value =>
    obtain ⟨-, hlegible | ⟨c, rfl, hc⟩⟩ := read_initializer h hs
    · exact absurd (hdoubled.symm.trans hlegible.isDoubled) Bool.noConfusion
    · exact ⟨shape, i, c, rfl, hc⟩
  | assign target value | call name => cases hdoubled

theorem clean_ofListing (h : l.WellTyped)
    (hs : ∀ s ∈ (Module.ofListing stage l).statements, s.isDoubled = false) :
    Clean (l.glsl stage).toList := by
  have hnamed := (named_ofListing stage h).closed
  refine clean_module hnamed.declarations hnamed.functions hnamed.entry fun s hmem => ?_
  obtain ⟨n, e, hentry, hrequested⟩ := statements_requested stage h (mem_statements.1 hmem)
  obtain ⟨hn, rfl⟩ := Array.getElem?_eq_some_iff.1 hentry
  have hbefore := h.upTo n
  exact hrequested.clean (matches_ofListing stage hbefore) hbefore.proper
    (named_ofListing stage hbefore) (h.admits n hn) (hs s hmem)

/-- Every initializer that is emitted was asked for by an operation, and is read as the operator or
the call of that operation on its operands, unless it is the negation of a negative literal.  Those
are also the only places in the text where two minus signs meet. -/
theorem initializers_read (ctx : Context) (stage : Stage) :
    (∀ shape i value,
      .temporary shape i value ∈ (Module.ofListing stage (emitted ctx .glsl)).statements →
        (∃ n shape' op, (emitted ctx .glsl).entries[n]? = some (.define shape' op) ∧
          Asked (· ∈ (Module.ofListing stage (emitted ctx .glsl)).statements)
            (Draft.ofListing stage ((emitted ctx .glsl).upTo n)) shape' op value) ∧
        (read value.text = some value.tree ↔ value.isDoubled = false) ∧
        (value.isDoubled = true → ∃ c, value = .unary .minus (.literal c) ∧
          isNegativeLiteral c = true)) ∧
    (['-', '-'] <:+: ((emitted ctx .glsl).glsl stage).toList ↔
      ∃ s ∈ (Module.ofListing stage (emitted ctx .glsl)).statements, s.isDoubled = true) := by
  have htyped := wellTyped_emitted ctx .glsl
  refine ⟨fun shape i value hs => ?_, ?_, ?_⟩
  · obtain ⟨hasked, hlegible | ⟨c, rfl, hc⟩⟩ := read_initializer htyped hs
    · have hsingle := hlegible.isDoubled
      refine ⟨hasked, ⟨fun _ => hsingle, fun _ => hlegible.read⟩, fun hdoubled => ?_⟩
      exact absurd (hdoubled.symm.trans hsingle) Bool.noConfusion
    · refine ⟨hasked, ⟨fun hread => absurd hread (read_doubled_ne hc), fun hsingle => ?_⟩,
        fun _ => ⟨c, rfl, hc⟩⟩
      exact absurd (hc.symm.trans hsingle) Bool.noConfusion
  · intro hinfix
    by_contra hnone
    refine (clean_ofListing htyped fun s hs => ?_).not_doubled hinfix
    exact Bool.eq_false_iff.2 fun hdoubled => hnone ⟨s, hs, hdoubled⟩
  · rintro ⟨s, hs, hdoubled⟩
    obtain ⟨shape, i, c, rfl, hc⟩ := eq_of_isDoubled htyped hs hdoubled
    exact infix_module hs (infix_doubled hc i)

/-- A multiplication by a constant that is negated, where the constant is minus one. -/
def negatedConstant : Context where
  shader :=
    { primary := [0x000200a040000000#64]
      temporaries := 4
      primaryAttributes := 4
      secondaryAttributes := 4
      outputs := 4
      fragment := { native := true } }
  constants := { f32 := [#[0xbf800000#32]] }

theorem doubled_negatedConstant :
    ((Module.ofListing .fragment (emitted negatedConstant .glsl)).statements.any
      Statement.isDoubled) = true := by
  decide +kernel

theorem initializers_read_negatedConstant :
    ['-', '-'] <:+: ((emitted negatedConstant .glsl).glsl .fragment).toList :=
  (initializers_read negatedConstant .fragment).2.2 (List.any_eq_true.1 doubled_negatedConstant)

/-- An initializer that is not read as the negation it stands for. -/
theorem misread_negatedConstant : ∃ shape i value,
    .temporary shape i value ∈
        (Module.ofListing .fragment (emitted negatedConstant .glsl)).statements ∧
      read value.text ≠ some value.tree := by
  have htyped := wellTyped_emitted negatedConstant .glsl
  obtain ⟨s, hs, hdoubled⟩ := List.any_eq_true.1 doubled_negatedConstant
  obtain ⟨shape, i, c, rfl, hc⟩ := eq_of_isDoubled htyped hs hdoubled
  exact ⟨shape, i, _, hs, read_doubled_ne hc⟩

end Glsl
end Microcode
