import Microcode.Glsl.Writer
import Microcode.Proofs.Contract

/-!
What the GLSL writer makes of a request.

A value is written as a literal, as a temporary or as a component of one.  `Asked` lists the
initializers that an operation gives rise to: a scalar operand may first be repeated in a temporary
of its own, and a bitwise operation on floats takes two temporaries, one for the bits.  A well-typed
operation adds only such temporaries, and its value has the shape that the front end knows.
-/

namespace Microcode

open List Listing Glsl.Draft Shape
namespace Glsl

variable (space : MemorySpace) (stage : Stage) {m : Nat} {scalar : Scalar} {s : Statement}

/-! ## Terms -/

/-- A literal, a temporary, or a component of a temporary. -/
inductive Term.Plain : Term → Prop
  | literal (c : Constant) : Plain ⟨.literal c, ⟨c.scalar, 1⟩⟩
  | temporary (i : Nat) (shape : Shape) : Plain ⟨.temporary i, shape⟩
  | component (i lane : Nat) (scalar : Scalar) :
    Plain ⟨.component (.temporary i) lane, ⟨scalar, 1⟩⟩

theorem Term.Plain.vector {t : Term} (h : t.Plain) (hcount : t.shape.count ≠ 1) :
    ∃ i, t.expr = .temporary i := by
  cases h with
  | literal c => exact absurd rfl hcount
  | temporary i shape => exact ⟨i, rfl⟩
  | component i lane scalar => exact absurd rfl hcount

theorem Term.Plain.component_plain {t : Term} (h : t.Plain) (lane : Nat) :
    Term.Plain ⟨t.component lane, ⟨t.shape.scalar, 1⟩⟩ := by
  by_cases hcount : t.shape.count = 1
  · have hshape : (⟨t.shape.scalar, 1⟩ : Shape) = t.shape := by rw [← hcount]
    rw [Term.component, isScalar, if_pos (decide_eq_true hcount), hshape]
    exact h
  · obtain ⟨i, hi⟩ := h.vector hcount
    rw [Term.component, isScalar, if_neg (by simpa using hcount), hi]
    exact .component i lane _

/-! ## Drafts -/

/-- Every statement that has been written. -/
def Draft.statements (d : Draft) : List Statement :=
  d.module.functions.toList.flatMap (fun f => f.body.toList) ++
    (d.opened.elim [] fun f => f.body.toList) ++ d.module.entry.body.toList

def Draft.termOf (d : Draft) (v : Value) : Term := d.terms.getD v.index default

def Draft.variableAt (d : Draft) (p : Place) : Variable := d.vars.getD p.variableIndex default

/-- A value with `n` components: its own expression, or a temporary in which a scalar is repeated. -/
inductive Widened (known : Statement → Prop) (t : Term) (n : Nat) : Expr → Prop
  | same (wide : n ≤ t.shape.count) : Widened known t n t.expr
  | repeated {i : Nat} (scalar : t.shape.count = 1)
      (h : known (.temporary ⟨t.shape.scalar, n⟩ i (.call (typeName ⟨t.shape.scalar, n⟩) [t.expr]))) :
    Widened known t n (.temporary i)

/-- What a shuffle picks. -/
def pick (a b : Term) (i : Nat) : Expr :=
  if i < a.shape.count then a.component i else b.component (i - a.shape.count)

/-- Values that an operation is applied to, one component each. -/
def operandsOf : Op → List Value
  | .binary _ a b | .compare _ a b => [a, b]
  | .select _ a b => [a, b]
  | _ => []

/-- The bits of a float. -/
def bitsOf (e : Expr) : Expr := .call "floatBitsToUint" [e]

/-- The word of a memory that an entry refers to. -/
def wordAt (d : Draft) (space : MemorySpace) (offset : Value) : Expr :=
  .word space
    (if (d.termOf offset).shape.scalar = .u32 then (d.termOf offset).expr
      else .call "uint" [(d.termOf offset).expr])

/-- An initializer that an operation asks for, to give a value of the shape. -/
inductive Asked (known : Statement → Prop) (d : Draft) (shape : Shape) : Op → Expr → Prop
  | widen {op : Op} {v : Value} (operand : v ∈ operandsOf op)
      (scalar : (d.termOf v).shape.count = 1) :
    Asked known d shape op
      (.call (typeName ⟨(d.termOf v).shape.scalar, shape.count⟩) [(d.termOf v).expr])
  | construct {parts : List Value} :
    Asked known d shape (.construct parts)
      (.call (typeName shape) ((parts.map d.termOf).map Term.expr))
  | load {place : Place} : Asked known d shape (.load place) (.location (d.variableAt place) place)
  | insert {v part : Value} {index : Nat} :
    Asked known d shape (.insert v part index) (d.termOf v).expr
  | swizzle {a b : Value} {indices : List Nat} (vector : (d.termOf a).shape.count ≠ 1)
      (inside : ∀ i ∈ indices, i < (d.termOf a).shape.count) :
    Asked known d shape (.shuffle a b indices) (.swizzle (d.termOf a).expr indices)
  | shuffle {a b : Value} {indices : List Nat} :
    Asked known d shape (.shuffle a b indices)
      (.call (typeName shape) (indices.map (pick (d.termOf a) (d.termOf b))))
  | binary {op : BinaryOp} {a b : Value} {x y : Expr}
      (left : Widened known (d.termOf a) shape.count x)
      (right : Widened known (d.termOf b) shape.count y)
      (direct : ¬ (shape.scalar = .f32 ∧ isBitwise op = true)) :
    Asked known d shape (.binary op a b) (binaryExpr op shape x y)
  | bits {op : BinaryOp} {a b : Value} {x y : Expr}
      (left : Widened known (d.termOf a) shape.count x)
      (right : Widened known (d.termOf b) shape.count y) (bitwise : isBitwise op = true) :
    Asked known d shape (.binary op a b)
      (binaryExpr op (withScalar shape .u32) (bitsOf x) (bitsOf y))
  | ofBits {op : BinaryOp} {a b : Value} {i : Nat} {x y : Expr}
      (left : Widened known (d.termOf a) shape.count x)
      (right : Widened known (d.termOf b) shape.count y)
      (h : known (.temporary (withScalar shape .u32) i
        (binaryExpr op (withScalar shape .u32) (bitsOf x) (bitsOf y)))) :
    Asked known d shape (.binary op a b) (.call "uintBitsToFloat" [.temporary i])
  | negate {a : Value} (number : shape.scalar ≠ .bool) :
    Asked known d shape (.unary .neg a) (.unary .minus (d.termOf a).expr)
  | abs {a : Value} : Asked known d shape (.unary .abs a) (.call "abs" [(d.termOf a).expr])
  | notTruth {a : Value} (truth : shape = bool) :
    Asked known d shape (.unary .not a) (.unary .not (d.termOf a).expr)
  | notTruths {a : Value} (truth : shape.scalar = .bool) :
    Asked known d shape (.unary .not a) (.call "not" [(d.termOf a).expr])
  | complement {a : Value} (integer : shape.scalar.isInteger = true) :
    Asked known d shape (.unary .not a) (.unary .complement (d.termOf a).expr)
  | complementBits {a : Value} (float : shape.scalar = .f32) :
    Asked known d shape (.unary .not a)
      (.call "uintBitsToFloat" [.unary .complement (bitsOf (d.termOf a).expr)])
  | compareOne {op : CompareOp} {a b : Value} {x y : Expr} (scalar : shape.count = 1)
      (left : Widened known (d.termOf a) shape.count x)
      (right : Widened known (d.termOf b) shape.count y) :
    Asked known d shape (.compare op a b) (.binary (compareSymbol op) x y)
  | compare {op : CompareOp} {a b : Value} {x y : Expr} (vector : shape.count ≠ 1)
      (left : Widened known (d.termOf a) shape.count x)
      (right : Widened known (d.termOf b) shape.count y) :
    Asked known d shape (.compare op a b) (.call (compareName op) [x, y])
  | selectOne {c a b : Value} {x y : Expr} (scalar : (d.termOf c).shape.count = 1)
      (left : Widened known (d.termOf a) shape.count x)
      (right : Widened known (d.termOf b) shape.count y) :
    Asked known d shape (.select c a b) (.conditional (d.termOf c).expr x y)
  | select {c a b : Value} {x y : Expr} (vector : (d.termOf c).shape.count ≠ 1)
      (left : Widened known (d.termOf a) shape.count x)
      (right : Widened known (d.termOf b) shape.count y) :
    Asked known d shape (.select c a b) (.call "mix" [y, x, (d.termOf c).expr])
  | product {a b : Value} (scalar : (d.termOf a).shape.count = 1) :
    Asked known d shape (.builtin .dot [a, b])
      (.binary .times (d.termOf a).expr (d.termOf b).expr)
  | builtin {f : Builtin} {args : List Value} :
    Asked known d shape (.builtin f args)
      (.call (builtinFunction f) ((args.map d.termOf).map Term.expr))
  | bitcast {v : Value} {target : Scalar} :
    Asked known d shape (.convert .bitcast v target)
      (.call (bitcastName (d.termOf v).shape.scalar target shape) [(d.termOf v).expr])
  | convert {v : Value} {target : Scalar} :
    Asked known d shape (.convert .numeric v target)
      (.call (typeName shape) [(d.termOf v).expr])
  | helper {h : Helper} {v : Value} :
    Asked known d shape (.helper h v) (.call h.name [(d.termOf v).expr])
  | fetch {space : MemorySpace} {offset : Value} :
    Asked known d shape (.fetch space offset) (.call "uintBitsToFloat" [wordAt d space offset])

/-- A statement that an entry asks for. -/
inductive Requested (known : Statement → Prop) (d : Draft) : Entry → Statement → Prop
  | temporary {shape shape' : Shape} {op : Op} {i : Nat} {value : Expr}
      (h : Asked known d shape op value) :
    Requested known d (.define shape op) (.temporary shape' i value)
  | insert {shape : Shape} {v part : Value} {i index : Nat} :
    Requested known d (.define shape (.insert v part index))
      (.assign (Term.component ⟨.temporary i, shape⟩ index) (d.termOf part).expr)
  | store {place : Place} {v : Value} :
    Requested known d (.store place v)
      (.assign (.location (d.variableAt place) place) (d.termOf v).expr)
  | storeMemory {space : MemorySpace} {offset v : Value} {cast : String}
      (h : cast = "floatBitsToUint" ∨ cast = "uint") :
    Requested known d (.storeMemory space offset v)
      (.assign (wordAt d space offset) (.call cast [(d.termOf v).expr]))
  | call {f : Microcode.Function} :
    Requested known d (.call f) (.call (d.names.getD f.index ""))

variable {known known' : Statement → Prop} {d : Draft} {t : Term} {n : Nat} {shape : Shape} {e : Expr}

theorem Widened.mono (h : Widened known t n e) (hk : ∀ s, known s → known' s) :
    Widened known' t n e := by
  cases h with
  | same wide => exact .same wide
  | repeated scalar h => exact .repeated scalar (hk _ h)

theorem Asked.mono {op : Op} (h : Asked known d shape op e) (hk : ∀ s, known s → known' s) :
    Asked known' d shape op e := by
  cases h with
  | widen operand scalar => exact .widen operand scalar
  | construct => exact .construct
  | load => exact .load
  | insert => exact .insert
  | swizzle vector inside => exact .swizzle vector inside
  | shuffle => exact .shuffle
  | binary left right direct => exact .binary (left.mono hk) (right.mono hk) direct
  | bits left right bitwise => exact .bits (left.mono hk) (right.mono hk) bitwise
  | ofBits left right h => exact .ofBits (left.mono hk) (right.mono hk) (hk _ h)
  | negate number => exact .negate number
  | abs => exact .abs
  | notTruth truth => exact .notTruth truth
  | notTruths truth => exact .notTruths truth
  | complement integer => exact .complement integer
  | complementBits float => exact .complementBits float
  | compareOne scalar left right => exact .compareOne scalar (left.mono hk) (right.mono hk)
  | compare vector left right => exact .compare vector (left.mono hk) (right.mono hk)
  | selectOne scalar left right => exact .selectOne scalar (left.mono hk) (right.mono hk)
  | select vector left right => exact .select vector (left.mono hk) (right.mono hk)
  | product scalar => exact .product scalar
  | builtin => exact .builtin
  | bitcast => exact .bitcast
  | convert => exact .convert
  | helper => exact .helper
  | fetch => exact .fetch

theorem Requested.mono {entry : Entry} (h : Requested known d entry s)
    (hk : ∀ s, known s → known' s) : Requested known' d entry s := by
  cases h with
  | temporary h => exact .temporary (h.mono hk)
  | insert => exact .insert
  | store => exact .store
  | storeMemory h => exact .storeMemory h
  | call => exact .call

/-! ## Additions to a draft -/

/-- The second draft has what the first has, and statements that the entry asks for. -/
structure Adds (base : Draft) (entry : Entry) (d d' : Draft) : Prop where
  stage : d'.stage = d.stage
  vars : d'.vars = d.vars
  names : d'.names = d.names
  terms : d'.terms = d.terms
  functions : d'.module.functions = d.module.functions
  opened : d'.opened.map Function.name = d.opened.map Function.name
  entryName : d'.module.entry.name = d.module.entry.name
  declarations : ∀ x ∈ d'.module.declarations,
    x ∈ d.module.declarations ∨ ∃ space, x = .memoryBlock space
  old : ∀ s ∈ d.statements, s ∈ d'.statements
  new : ∀ s ∈ d'.statements, s ∈ d.statements ∨ Requested (· ∈ d'.statements) base entry s

variable {base d' d'' : Draft} {entry : Entry}

theorem Adds.refl (d : Draft) : Adds base entry d d where
  stage := rfl
  vars := rfl
  names := rfl
  terms := rfl
  functions := rfl
  opened := rfl
  entryName := rfl
  declarations _ h := .inl h
  old _ h := h
  new _ h := .inl h

theorem Adds.trans (h : Adds base entry d d') (h' : Adds base entry d' d'') :
    Adds base entry d d'' where
  stage := h'.stage.trans h.stage
  vars := h'.vars.trans h.vars
  names := h'.names.trans h.names
  terms := h'.terms.trans h.terms
  functions := h'.functions.trans h.functions
  opened := h'.opened.trans h.opened
  entryName := h'.entryName.trans h.entryName
  declarations x hx := by
    rcases h'.declarations x hx with hx | hx
    · exact h.declarations x hx
    · exact .inr hx
  old s hs := h'.old s (h.old s hs)
  new s hs := by
    rcases h'.new s hs with hs | hs
    · rcases h.new s hs with hs | hs
      · exact .inl hs
      · exact .inr (hs.mono h'.old)
    · exact .inr hs

theorem Adds.termOf (h : Adds base entry d d') (v : Value) : d'.termOf v = d.termOf v := by
  rw [Draft.termOf, h.terms, Draft.termOf]

/-- The computation adds what the entry asks for, and its result has the property. -/
def Draws {α : Type} (base : Draft) (entry : Entry) (x : Draw α) (d : Draft)
    (Q : α → Draft → Prop) : Prop :=
  Adds base entry d (x.run d).2 ∧ Q (x.run d).1 (x.run d).2

namespace Draws

variable {α β : Type} {x : Draw α} {f : α → Draw β} {Q Q' : α → Draft → Prop}
  {R : β → Draft → Prop}

theorem pure {a : α} (h : Q a d) : Draws base entry (Pure.pure a) d Q := ⟨.refl d, h⟩

theorem bind (hx : Draws base entry x d Q)
    (hf : ∀ a d', Adds base entry d d' → Q a d' → Draws base entry (f a) d' R) :
    Draws base entry (x >>= f) d R := by
  obtain ⟨hadds, hQ⟩ := hx
  obtain ⟨hadds', hR⟩ := hf _ _ hadds hQ
  exact ⟨hadds.trans hadds', hR⟩

theorem mono (hx : Draws base entry x d Q)
    (h : ∀ a d', Adds base entry d d' → Q a d' → Q' a d') : Draws base entry x d Q' :=
  ⟨hx.1, h _ _ hx.1 hx.2⟩

theorem ite {p : Prop} [Decidable p] {y : Draw α} (hx : p → Draws base entry x d Q)
    (hy : ¬ p → Draws base entry y d Q) : Draws base entry (if p then x else y) d Q :=
  iteInduction (motive := (Draws base entry · d Q)) hx hy

theorem get {f : Draft → Draw β} (h : Draws base entry (f d) d R) :
    Draws base entry (MonadState.get >>= f) d R := h

theorem term {v : Value} {f : Term → Draw β} (h : Draws base entry (f (d.termOf v)) d R) :
    Draws base entry (Glsl.term v >>= f) d R := h

theorem declaredAt {p : Place} {f : Variable → Draw β}
    (h : Draws base entry (f (d.variableAt p)) d R) :
    Draws base entry (Glsl.declaredAt p >>= f) d R := h

end Draws

theorem Draws.of_run {β γ : Type} {x : Draw β} {b : β} {f : β → Draw γ} {R : γ → Draft → Prop}
    (hx : x.run d = (b, d)) (h : Draws base entry (f b) d R) : Draws base entry (x >>= f) d R := by
  rw [Draws, StateT.run_bind, hx]
  exact h

theorem run_mapM_term (parts : List Value) (d : Draft) :
    (parts.mapM term).run d = (parts.map d.termOf, d) := run_mapM_of_run fun _ _ => rfl

/-! ## Statements -/

/-- The draft with one more statement. -/
def Draft.emitted (d : Draft) (s : Statement) : Draft := ((emit s).run d).2

theorem emitted_some {f : Function} (h : d.opened = some f) :
    d.emitted s = { d with opened := some { f with body := f.body.push s } } := by
  cases d
  subst h
  rfl

theorem emitted_none (h : d.opened = none) :
    d.emitted s = { d with module := { d.module with
      entry := { d.module.entry with body := d.module.entry.body.push s } } } := by
  cases d
  subst h
  rfl

theorem mem_emitted {s' : Statement} :
    s' ∈ (d.emitted s).statements ↔ s' ∈ d.statements ∨ s' = s := by
  cases h : d.opened with
  | none =>
    rw [emitted_none h]
    simp [statements, h, or_assoc]
  | some f =>
    rw [emitted_some h]
    simp only [statements, h, Option.elim_some, Array.toList_push, mem_append,
      mem_singleton]
    tauto

theorem adds_emitted (hs : Requested (· ∈ d.statements) base entry s) :
    Adds base entry d (d.emitted s) := by
  have hold : ∀ s' ∈ d.statements, s' ∈ (d.emitted s).statements :=
    fun _ h => mem_emitted.2 (.inl h)
  have hnew : ∀ s' ∈ (d.emitted s).statements,
      s' ∈ d.statements ∨ Requested (· ∈ (d.emitted s).statements) base entry s' := by
    intro s' hs'
    rcases mem_emitted.1 hs' with h | rfl
    · exact .inl h
    · exact .inr (hs.mono hold)
  cases h : d.opened with
  | none =>
    rw [emitted_none h] at hold hnew ⊢
    exact ⟨rfl, rfl, rfl, rfl, rfl, rfl, rfl, fun _ h => .inl h, hold, hnew⟩
  | some f =>
    rw [emitted_some h] at hold hnew ⊢
    exact ⟨rfl, rfl, rfl, rfl, rfl, by rw [h]; rfl, rfl, fun _ h => .inl h, hold, hnew⟩

theorem draws_emit (hs : Requested (· ∈ d.statements) base entry s) :
    Draws base entry (emit s) d fun _ d' => s ∈ d'.statements :=
  ⟨adds_emitted hs, mem_emitted.2 (.inr rfl)⟩

variable {op : Op} {shape' : Shape}

theorem draws_bind {value : Expr} (h : Asked (· ∈ d.statements) base shape op value) :
    Draws base (.define shape op) (bind shape' value) d fun t d' =>
      ∃ i, t = ⟨.temporary i, shape'⟩ ∧ .temporary shape' i value ∈ d'.statements := by
  have hcount : Adds base (.define shape op) d { d with temporaries := d.temporaries + 1 } :=
    ⟨rfl, rfl, rfl, rfl, rfl, rfl, rfl, fun _ h => .inl h, fun _ h => h, fun _ h => .inl h⟩
  have hs : Requested (· ∈ d.statements) base (.define shape op)
    (.temporary shape' d.temporaries value) := .temporary h
  obtain ⟨hadds, hmem⟩ := draws_emit (d := { d with temporaries := d.temporaries + 1 }) hs
  exact ⟨hcount.trans hadds, d.temporaries, rfl, hmem⟩

/-! ## Operations -/

theorem draws_widen {v : Value} (hv : v ∈ operandsOf op) (hplain : (base.termOf v).Plain)
    (hwidth : (base.termOf v).shape.count = 1 ∨ shape.count ≤ (base.termOf v).shape.count) :
    Draws base (.define shape op) (widen (base.termOf v) shape.count) d fun t d' =>
      Widened (· ∈ d'.statements) (base.termOf v) shape.count t.expr ∧ t.Plain ∧
        t.shape = ⟨(base.termOf v).shape.scalar, max (base.termOf v).shape.count shape.count⟩ := by
  rw [widen]
  refine .ite (fun h => ?_) fun h => ?_
  · exact .pure ⟨.same h, hplain, by rw [Nat.max_eq_left h]⟩
  · have hone : (base.termOf v).shape.count = 1 := by omega
    rw [isScalar, if_pos (decide_eq_true hone)]
    refine (draws_bind (.widen hv hone)).mono ?_
    rintro t d' _ ⟨i, rfl, hmem⟩
    exact ⟨.repeated hone hmem, .temporary i _, by rw [Nat.max_eq_right (by omega)]⟩

/-- A term of the shape, in the form that later requests rely on. -/
def Fits (shape : Shape) (t : Term) : Prop := t.shape = shape ∧ t.Plain

/-- The terms of a draft are those of the values of a listing. -/
structure Draft.Matches (d : Draft) (l : Listing) : Prop where
  size : d.terms.size = l.shapes.size
  terms : ∀ v, l.Defines v → Fits (l.shapeOf v) (d.termOf v)
  vars : d.vars = l.vars

variable {l : Listing} {a b c v : Value}

theorem Draft.Matches.has (h : d.Matches l) (hv : l.Has v shape) : Fits shape (d.termOf v) :=
  hv.shape ▸ h.terms v hv.defined

/-- A temporary of the shape that was asked for is what is needed. -/
theorem draws_fitting {value : Expr} (h : Asked (· ∈ d.statements) base shape op value) :
    Draws base (.define shape op) (bind shape value) d fun t _ => Fits shape t := by
  refine (draws_bind h).mono ?_
  rintro t d' _ ⟨i, rfl, -⟩
  exact ⟨rfl, .temporary i shape⟩

/-- Two operands are brought to the wider of their widths. -/
theorem draws_widenPair {n : Nat} (hd : d.Matches l) (hl : l.Proper) (ha : l.Has a ⟨scalar, m⟩)
    (hb : l.Has b ⟨scalar, n⟩) (hwidths : Compatible m n) (hcount : shape.count = max m n)
    (hop : operandsOf op = [a, b]) :
    Draws d (.define shape op) (widenPair (d.termOf a) (d.termOf b)) d fun r d' =>
      (Widened (· ∈ d'.statements) (d.termOf a) shape.count r.1.expr ∧
        Widened (· ∈ d'.statements) (d.termOf b) shape.count r.2.expr) ∧
      r.1.shape = ⟨scalar, shape.count⟩ := by
  obtain ⟨hshapeA, hplainA⟩ := hd.has ha
  obtain ⟨hshapeB, hplainB⟩ := hd.has hb
  have hm : 0 < m := (hl.has ha).1
  have hn : 0 < n := (hl.has hb).1
  rw [Compatible] at hwidths
  rw [widenPair, hshapeA, hshapeB, ← hcount]
  refine (draws_widen (v := a) (by simp [hop]) hplainA (by simp only [hshapeA]; omega)).bind ?_
  intro wideA d1 _ hA
  refine (draws_widen (v := b) (by simp [hop]) hplainB (by simp only [hshapeB]; omega)).bind ?_
  intro wideB d2 h2 hB
  refine .pure ⟨⟨hA.1.mono h2.old, hB.1⟩, ?_⟩
  rw [hA.2.2, hshapeA, hcount, Nat.max_eq_right (Nat.le_max_left m n)]

theorem draws_binary {n : Nat} (op : BinaryOp) (hd : d.Matches l) (hl : l.Proper)
    (ha : l.Has a ⟨scalar, m⟩) (hb : l.Has b ⟨scalar, n⟩) (hwidths : Compatible m n) :
    Draws d (.define ⟨scalar, max m n⟩ (.binary op a b)) (binary op (d.termOf a) (d.termOf b)) d
      fun t _ => Fits ⟨scalar, max m n⟩ t := by
  rw [binary]
  refine (draws_widenPair hd hl ha hb hwidths rfl rfl).bind ?_
  rintro ⟨wideA, wideB⟩ d1 _ ⟨⟨hA, hB⟩, hshape⟩
  dsimp only at hshape ⊢
  rw [hshape]
  refine .ite (fun h => ?_) fun h => ?_
  · simp only [Bool.and_eq_true, decide_eq_true_eq] at h
    refine (draws_bind (.bits hA hB h.2)).bind ?_
    rintro t d2 h2 ⟨i, rfl, hmem⟩
    exact draws_fitting (.ofBits (hA.mono h2.old) (hB.mono h2.old) hmem)
  · simp only [Bool.and_eq_true, decide_eq_true_eq] at h
    exact draws_fitting (.binary hA hB h)

theorem draws_unary (op : UnaryOp) (hd : d.Matches l) (ha : l.Has a shape) :
    Draws d (.define shape (.unary op a)) (unary op (d.termOf a)) d fun t _ => Fits shape t := by
  have hfits := hd.has ha
  obtain ⟨scalar, n⟩ := shape
  unfold unary
  rw [hfits.1]
  cases op with
  | neg =>
    cases scalar with
    | bool => exact .pure hfits
    | f32 | i32 | u32 => exact draws_fitting (.negate (by simp))
  | abs =>
    cases scalar with
    | u32 | bool => exact .pure hfits
    | f32 | i32 => exact draws_fitting .abs
  | not =>
    cases scalar with
    | bool =>
      by_cases hn : n = 1
      · subst hn
        exact draws_fitting (.notTruth rfl)
      · dsimp only
        rw [isScalar, if_neg (by simpa using hn)]
        exact draws_fitting (.notTruths rfl)
    | f32 => exact draws_fitting (.complementBits rfl)
    | i32 | u32 => exact draws_fitting (.complement rfl)

theorem draws_compare {n : Nat} (op : CompareOp) (hd : d.Matches l) (hl : l.Proper)
    (ha : l.Has a ⟨scalar, m⟩) (hb : l.Has b ⟨scalar, n⟩) (hwidths : Compatible m n) :
    Draws d (.define ⟨.bool, max m n⟩ (.compare op a b)) (compare op (d.termOf a) (d.termOf b)) d
      fun t _ => Fits ⟨.bool, max m n⟩ t := by
  rw [compare]
  refine (draws_widenPair hd hl ha hb hwidths rfl rfl).bind ?_
  rintro ⟨wideA, wideB⟩ d1 _ ⟨⟨hA, hB⟩, hshape⟩
  dsimp only at hshape ⊢
  rw [hshape, isScalar]
  by_cases hone : max m n = 1
  · rw [if_pos (decide_eq_true hone)]
    exact draws_fitting (.compareOne hone hA hB)
  · rw [if_neg (by simpa using hone)]
    exact draws_fitting (.compare hone hA hB)

theorem draws_select {k n : Nat} (hd : d.Matches l) (hl : l.Proper) (hc : l.Has c ⟨.bool, k⟩)
    (ha : l.Has a ⟨scalar, m⟩) (hb : l.Has b ⟨scalar, n⟩) (hwidths : Compatible m n)
    (hcondition : k = 1 ∨ k = max m n) :
    Draws d (.define ⟨scalar, max m n⟩ (.select c a b))
      (select (d.termOf c) (d.termOf a) (d.termOf b)) d fun t _ => Fits ⟨scalar, max m n⟩ t := by
  obtain ⟨hshapeA, hplainA⟩ := hd.has ha
  obtain ⟨hshapeB, hplainB⟩ := hd.has hb
  obtain ⟨hshapeC, -⟩ := hd.has hc
  have hm : 0 < m := (hl.has ha).1
  have hn : 0 < n := (hl.has hb).1
  have hcount : max (max m n) k = max m n := by omega
  have hleft : (d.termOf a).shape.count = 1 ∨
      (⟨scalar, max m n⟩ : Shape).count ≤ (d.termOf a).shape.count := by
    rw [hshapeA]
    rw [Compatible] at hwidths
    dsimp only
    omega
  have hright : (d.termOf b).shape.count = 1 ∨
      (⟨scalar, max m n⟩ : Shape).count ≤ (d.termOf b).shape.count := by
    rw [hshapeB]
    rw [Compatible] at hwidths
    dsimp only
    omega
  rw [select]
  simp only [hshapeA, hshapeB, hshapeC, hcount]
  refine (draws_widen (by simp [operandsOf]) hplainA hleft).bind ?_
  intro wideA d1 _ hA
  refine (draws_widen (by simp [operandsOf]) hplainB hright).bind ?_
  intro wideB d2 h2 hB
  have hshape : wideA.shape = ⟨scalar, max m n⟩ := by
    rw [hA.2.2, hshapeA]
    exact congrArg (mk scalar) (Nat.max_eq_right (Nat.le_max_left m n))
  rw [hshape, isScalar]
  have hleft := hA.1.mono h2.old
  by_cases hone : k = 1
  · rw [if_pos (decide_eq_true hone)]
    exact draws_fitting (.selectOne (by rw [hshapeC]; exact hone) hleft hB.1)
  · rw [if_neg (by simpa using hone)]
    exact draws_fitting (.select (by rw [hshapeC]; exact hone) hleft hB.1)

theorem mapM_widen {terms : List Term} {n : Nat} (h : ∀ t ∈ terms, n ≤ t.shape.count) :
    (terms.mapM (widen · n)).run d = (terms, d) := by
  have hrun := run_mapM_of_run (d := d) (g := id) fun t ht =>
    congrArg (·.run d) (if_pos (h t ht) : widen t n = pure t)
  rwa [map_id] at hrun

theorem draws_dot {n : Nat} (hd : d.Matches l) (ha : l.Has a ⟨.f32, n⟩) (hb : l.Has b ⟨.f32, n⟩) :
    Draws d (.define f32 (.builtin .dot [a, b])) (builtin .dot [d.termOf a, d.termOf b]) d
      fun t _ => Fits f32 t := by
  obtain ⟨hshapeA, -⟩ := hd.has ha
  obtain ⟨hshapeB, -⟩ := hd.has hb
  have hcount : (([d.termOf a, d.termOf b].map fun t => t.shape.count).max?).getD 1 = n := by
    simp [hshapeA, hshapeB]
  rw [builtin, hcount]
  refine .of_run (mapM_widen (by simp [hshapeA, hshapeB])) ?_
  dsimp only
  refine draws_fitting ?_
  by_cases hn : n = 1
  · rw [if_pos hn]
    exact .product (by rw [hshapeA]; exact hn)
  · rw [if_neg hn]
    exact .builtin

theorem draws_builtin {f : Builtin} {args : List Value} {n : Nat} (hd : d.Matches l) (hf : f ≠ .dot)
    (hne : args ≠ []) (hargs : ∀ v ∈ args, l.Has v ⟨.f32, n⟩) :
    Draws d (.define ⟨.f32, n⟩ (.builtin f args)) (builtin f (args.map d.termOf)) d
      fun t _ => Fits ⟨.f32, n⟩ t := by
  have hshape : ∀ t ∈ args.map d.termOf, t.shape = ⟨.f32, n⟩ := by
    intro t ht
    obtain ⟨v, hv, rfl⟩ := mem_map.1 ht
    exact (hd.has (hargs v hv)).1
  have hcounts : (args.map d.termOf).map (fun t => t.shape.count) = List.replicate args.length n :=
    eq_replicate_iff.2 ⟨by simp, fun k hk => by
      obtain ⟨t, ht, rfl⟩ := mem_map.1 hk
      rw [hshape t ht]⟩
  have hcount : (((args.map d.termOf).map fun t => t.shape.count).max?).getD 1 = n := by
    rw [hcounts, max?_replicate _ (length_pos_iff.2 hne), Option.getD_some]
  rw [builtin, hcount]
  refine .of_run (mapM_widen fun t ht => Nat.le_of_eq (by rw [hshape t ht])) ?_
  obtain ⟨v, rest, rfl⟩ := exists_cons_of_ne_nil hne
  have hfirst := hshape (d.termOf v) mem_cons_self
  have hbind : Draws d (.define ⟨.f32, n⟩ (.builtin f (v :: rest)))
      (bind ((((v :: rest).map d.termOf).head?.map Term.shape).getD f32)
        (.call (builtinFunction f) (((v :: rest).map d.termOf).map Term.expr))) d
      fun t _ => Fits ⟨.f32, n⟩ t := by
    simp only [map_cons, head?_cons, Option.map_some, Option.getD_some, hfirst]
    exact draws_fitting .builtin
  cases f with
  | dot => exact absurd rfl hf
  | _ => exact hbind

theorem draws_convert {conversion : Conversion} {source target : Scalar} {n : Nat} (hd : d.Matches l)
    (hv : l.Has v ⟨source, n⟩) (hsource : source ≠ .bool) (htarget : target ≠ .bool) :
    Draws d (.define ⟨target, n⟩ (.convert conversion v target))
      (convert conversion (d.termOf v) target) d fun t _ => Fits ⟨target, n⟩ t := by
  obtain ⟨hshape, hplain⟩ := hd.has hv
  rw [convert]
  simp only [hshape]
  refine .ite (fun h => .pure ⟨?_, hplain⟩) fun _ => ?_
  · rw [hshape, h]
  · cases conversion with
    | bitcast =>
      have hasked : Asked (· ∈ d.statements) d ⟨target, n⟩ (.convert .bitcast v target)
          (.call (bitcastName source target ⟨target, n⟩) [(d.termOf v).expr]) := by
        have hsource : source = (d.termOf v).shape.scalar := by rw [hshape]
        rw [hsource]
        exact .bitcast
      simpa [hsource, htarget, withScalar] using draws_fitting hasked
    | numeric => exact draws_fitting .convert

theorem draws_shuffle {n : Nat} {indices : List Nat} (hd : d.Matches l) (ha : l.Has a ⟨scalar, m⟩)
    (hb : l.Has b ⟨scalar, n⟩) :
    Draws d (.define ⟨scalar, indices.length⟩ (.shuffle a b indices))
      (shuffle (d.termOf a) (d.termOf b) indices) d fun t _ => Fits ⟨scalar, indices.length⟩ t := by
  obtain ⟨hshapeA, hplainA⟩ := hd.has ha
  obtain ⟨hshapeB, hplainB⟩ := hd.has hb
  have hpick (i : Nat) : Fits ⟨scalar, 1⟩ ⟨pick (d.termOf a) (d.termOf b) i, ⟨scalar, 1⟩⟩ := by
    refine ⟨rfl, ?_⟩
    rw [pick]
    split
    · have := hplainA.component_plain i
      rwa [hshapeA] at this
    · have := hplainB.component_plain (i - (d.termOf a).shape.count)
      rwa [hshapeB] at this
  have hmany : Draws d (.define ⟨scalar, indices.length⟩ (.shuffle a b indices))
      (if !(d.termOf a).shape.isScalar && indices.all (· < (d.termOf a).shape.count) then
        bind ⟨scalar, indices.length⟩ (.swizzle (d.termOf a).expr indices)
      else bind ⟨scalar, indices.length⟩ (.call (typeName ⟨scalar, indices.length⟩)
        (indices.map (pick (d.termOf a) (d.termOf b))))) d
      fun t _ => Fits ⟨scalar, indices.length⟩ t := by
    refine .ite (fun h => ?_) fun _ => draws_fitting .shuffle
    simp only [Bool.and_eq_true, Bool.not_eq_true', isScalar, decide_eq_false_iff_not,
      all_eq_true, decide_eq_true_eq] at h
    exact draws_fitting (.swizzle h.1 h.2)
  have hscalar : (d.termOf a).shape.scalar = scalar := by rw [hshapeA]
  unfold shuffle
  rw [hscalar]
  cases indices with
  | nil => exact hmany
  | cons i rest =>
    cases rest with
    | nil => exact ⟨.refl d, hpick i⟩
    | cons => exact hmany

theorem draws_callHelper (h : Helper) (v : Value) :
    Draws d (.define h.shape (.helper h v)) (callHelper h (d.termOf v)) d
      fun t _ => Fits h.shape t := by
  rw [callHelper]
  refine Draws.bind (Q := fun _ _ => True) ⟨?_, trivial⟩ fun _ d1 _ _ => draws_fitting .helper
  show Adds _ _ d (if d.module.helpers.contains h then d else _)
  split
  · exact .refl d
  · exact ⟨rfl, rfl, rfl, rfl, rfl, rfl, rfl, fun _ h => .inl h, fun _ h => h, fun _ h => .inl h⟩

theorem adds_declare {x : Declaration} (hx : x = .memoryBlock space) :
    Draws base entry (declare x) d fun _ _ => True := by
  refine ⟨⟨rfl, rfl, rfl, rfl, rfl, rfl, rfl, fun y hy => ?_, fun _ h => h, fun _ h => .inl h⟩, trivial⟩
  rcases Array.mem_push.1 hy with hy | hy
  · exact .inl hy
  · exact .inr ⟨space, hy.trans hx⟩

theorem draws_memoryWord (offset : Value) :
    Draws base entry (memoryWord space (base.termOf offset)) d fun e _ =>
      e = wordAt base space offset := by
  have hlast (d' : Draft) : Draws base entry (pure (wordAt base space offset)) d' fun e _ =>
    e = wordAt base space offset := .pure rfl
  rw [memoryWord]
  refine .get ?_
  exact .ite (fun _ => (adds_declare space rfl).bind fun _ d' _ _ => hlast d') fun _ => hlast d

/-- A well-typed operation gives a term of its shape, and adds what it asks for. -/
theorem draws_define (hd : d.Matches l) (hl : l.Proper) (h : l.Typed op shape) :
    Draws d (.define shape op) (define shape op) d fun t _ => Fits shape t := by
  cases h with
  | constant c => exact ⟨.refl d, rfl, .literal c⟩
  | construct parts_have nonempty width =>
    exact .of_run (run_mapM_term ..) (draws_fitting .construct)
  | @load place shape valid =>
    have hshape : (d.variableAt place).shape = shape := by
      rw [Draft.variableAt, hd.vars]
      exact valid.shape
    refine .declaredAt ?_
    rw [hshape]
    exact draws_fitting .load
  | @extract v scalar n i has inside =>
    obtain ⟨hshape, hplain⟩ := hd.has has
    refine ⟨.refl d, rfl, ?_⟩
    have := hplain.component_plain i
    rwa [hshape] at this
  | insert has part_has inside =>
    refine .term ((draws_bind .insert).bind ?_)
    rintro copy d1 h1 ⟨i, rfl, -⟩
    refine .term ?_
    rw [h1.termOf]
    exact (draws_emit .insert).bind fun _ _ _ _ => .pure ⟨rfl, .temporary i _⟩
  | shuffle a_has b_has nonempty width inside => exact .term (.term (draws_shuffle hd a_has b_has))
  | binary a_has b_has widths => exact .term (.term (draws_binary _ hd hl a_has b_has widths))
  | unary has => exact .term (draws_unary _ hd has)
  | compare a_has b_has widths => exact .term (.term (draws_compare _ hd hl a_has b_has widths))
  | select c_has a_has b_has widths condition =>
    exact .term (.term (.term (draws_select hd hl c_has a_has b_has widths condition)))
  | dot a_has b_has => exact .of_run (run_mapM_term ..) (draws_dot hd a_has b_has)
  | @builtin f args n notDot arity args_have =>
    have hne : args ≠ [] := by
      rintro rfl
      cases f <;> exact absurd arity (by decide)
    exact .of_run (run_mapM_term ..) (draws_builtin hd notDot hne args_have)
  | convert has source_number target_number =>
    exact .term (draws_convert hd has source_number target_number)
  | @unpack encoding v has => exact .term (draws_callHelper (.unpack encoding) v)
  | @pack encoding v has => exact .term (draws_callHelper (.pack encoding) v)
  | fetch has integer =>
    refine .term ((draws_memoryWord _ _).bind ?_)
    rintro word d1 _ rfl
    exact draws_fitting .fetch

/-! ## Whole listings -/

/-- The draft of a listing, before the last function is closed. -/
def Draft.ofListing (stage : Stage) (l : Listing) : Draft :=
  ((l.entries.forM write).run { stage := stage }).2

/-- The draft after one more entry. -/
def Draft.wrote (d : Draft) (e : Entry) : Draft := ((write e).run d).2

theorem ofListing_add (l : Listing) (e : Entry) :
    ofListing stage (l.add e) = (ofListing stage l).wrote e := by
  rw [ofListing, entries_add, Array.forM, Array.foldlM_push]
  rfl

/-- Closing a function leaves its statements. -/
def Draft.closed (d : Draft) : Draft := (closeFunction.run d).2

theorem closed_some {f : Function} (h : d.opened = some f) : d.closed =
    { d with opened := none, module := { d.module with functions := d.module.functions.push f } } := by
  cases d
  subst h
  rfl

theorem closed_none (h : d.opened = none) : d.closed = d := by
  cases d
  subst h
  rfl

theorem opened_closed (d : Draft) : d.closed.opened = none := by
  cases h : d.opened with
  | none => rw [closed_none h, h]
  | some f => rw [closed_some h]

theorem mem_closed : s ∈ d.closed.statements ↔ s ∈ d.statements := by
  cases h : d.opened with
  | none => rw [closed_none h]
  | some f =>
    rw [closed_some h]
    simp [statements, h]

theorem terms_closed (d : Draft) : d.closed.terms = d.terms := by
  cases h : d.opened with
  | none => rw [closed_none h]
  | some f => rw [closed_some h]

theorem vars_closed (d : Draft) : d.closed.vars = d.vars := by
  cases h : d.opened with
  | none => rw [closed_none h]
  | some f => rw [closed_some h]

/-- One entry adds to the statements what it asks for. -/
structure Draft.Step (d : Draft) (e : Entry) (d' : Draft) : Prop where
  old : ∀ s ∈ d.statements, s ∈ d'.statements
  new : ∀ s ∈ d'.statements, s ∈ d.statements ∨ Requested (· ∈ d'.statements) d e s

theorem Adds.step (h : Adds d entry d d') : d.Step entry d' := ⟨h.old, h.new⟩

theorem Draft.Step.of_mem (h : ∀ s, s ∈ d'.statements ↔ s ∈ d.statements) : d.Step entry d' :=
  ⟨fun s hs => (h s).2 hs, fun s hs => .inl ((h s).1 hs)⟩

theorem draws_storeMemory (offset v : Value) :
    Draws d (.storeMemory space offset v) (write (.storeMemory space offset v)) d
      fun _ _ => True := by
  rw [write]
  refine .term ((draws_memoryWord space offset).bind ?_)
  rintro word d1 h1 rfl
  refine .term ?_
  rw [h1.termOf]
  refine (draws_emit (.storeMemory ?_)).mono fun _ _ _ _ => trivial
  by_cases hfloat : (d.termOf v).shape.scalar = .f32
  · exact .inl (if_pos hfloat)
  · exact .inr (if_neg hfloat)

theorem draws_store (place : Place) (v : Value) :
    Draws d (.store place v) (write (.store place v)) d fun _ _ => True :=
  (draws_emit .store).mono fun _ _ _ _ => trivial

theorem draws_call (f : Microcode.Function) :
    Draws d (.call f) (write (.call f)) d fun _ _ => True :=
  (draws_emit .call).mono fun _ _ _ _ => trivial

theorem mem_beginFunction {name : String} :
    s ∈ (d.wrote (.beginFunction name)).statements ↔ s ∈ d.statements := by
  have hclosed : s ∈ (d.wrote (.beginFunction name)).statements ↔ s ∈ d.closed.statements := by
    show s ∈ statements { d.closed with opened := some { name := name }, names := _ } ↔ _
    simp [statements, opened_closed]
  exact hclosed.trans mem_closed

theorem step_wrote (hd : d.Matches l) (hl : l.Proper) (h : l.Admits entry) :
    d.Step entry (d.wrote entry) := by
  cases h with
  | define typed =>
    have h := (draws_define hd hl typed).1
    exact ⟨h.old, h.new⟩
  | reuse typed has | element declared inside => exact .of_mem fun _ => Iff.rfl
  | @declare x fits =>
    obtain ⟨name, shape, storage⟩ := x
    cases storage <;> exact .of_mem fun _ => Iff.rfl
  | store valid has => exact (draws_store _ _).1.step
  | storeMemory offset_has integer has => exact (draws_storeMemory _ _ _).1.step
  | beginFunction phase named => exact .of_mem fun s => mem_beginFunction
  | endFunction phase | beginEntry phase => exact .of_mem fun s => mem_closed
  | call phase known => exact (draws_call _).1.step

theorem Draft.Matches.define {t : Term} (hd : d.Matches l) (h : Adds base entry d d')
    (ht : Fits shape t) :
    Matches { d' with terms := d'.terms.push t } (l.add (.define shape op)) where
  size := by
    show (d'.terms.push t).size = (l.shapes.push shape).size
    rw [Array.size_push, Array.size_push, h.terms, hd.size]
  terms v hv := by
    show Fits _ ((d'.terms.push t).getD v.index default)
    rw [h.terms]
    by_cases hlt : l.Defines v
    · rw [(l.extends_add _).shapeOf hlt, getD_push_of_lt _ _ _ (by rw [hd.size]; exact hlt)]
      exact hd.terms v hlt
    · have hv' : v.index < l.shapes.size + 1 := by simpa [Defines, add] using hv
      have heq : v.index = l.shapes.size := by simp only [Defines] at hlt; omega
      have hshape : (l.add (.define shape op)).shapeOf v = shape := by
        rw [shapeOf, heq]
        simp [add]
      rw [hshape, heq, ← hd.size]
      simpa using ht
  vars := h.vars.trans hd.vars

theorem Draft.Matches.of_eq {l' : Listing} (hd : d.Matches l) (hterms : d'.terms = d.terms)
    (hvars : d'.vars = l'.vars) (hshapes : l'.shapes = l.shapes) : d'.Matches l' where
  size := by rw [hterms, hshapes, hd.size]
  terms v hv := by
    rw [Defines, hshapes] at hv
    rw [shapeOf, hshapes, termOf, hterms]
    exact hd.terms v hv
  vars := hvars

theorem matches_wrote (hd : d.Matches l) (hl : l.Proper) (h : l.Admits entry) :
    (d.wrote entry).Matches (l.add entry) := by
  cases h with
  | define typed =>
    obtain ⟨hadds, hfits⟩ := draws_define hd hl typed
    exact hd.define hadds hfits
  | reuse typed has | element declared inside => exact hd.of_eq rfl hd.vars rfl
  | @declare x fits =>
    have hvars : d.vars.push x = l.vars.push x := by rw [hd.vars]
    obtain ⟨name, shape, storage⟩ := x
    cases storage <;> exact hd.of_eq rfl hvars rfl
  | @store place v _ valid has =>
    have h := (draws_store (d := d) place v).1
    exact hd.of_eq h.terms (h.vars.trans hd.vars) rfl
  | @storeMemory space offset v _ _ offset_has integer has =>
    have h := (draws_storeMemory (d := d) space offset v).1
    exact hd.of_eq h.terms (h.vars.trans hd.vars) rfl
  | beginFunction phase named | endFunction phase | beginEntry phase =>
    exact hd.of_eq (terms_closed d) ((vars_closed d).trans hd.vars) rfl
  | @call f phase known =>
    have h := (draws_call (d := d) f).1
    exact hd.of_eq h.terms (h.vars.trans hd.vars) rfl

theorem matches_ofListing (h : l.WellTyped) : (ofListing stage l).Matches l := by
  induction h with
  | empty target => exact ⟨rfl, fun v hv => absurd hv (Nat.not_lt_zero _), rfl⟩
  | add before admitted ih =>
    rw [ofListing_add]
    exact matches_wrote ih before.proper admitted

theorem statements_requested (h : l.WellTyped) (hs : s ∈ (ofListing stage l).statements) :
    ∃ n e, l.entries[n]? = some e ∧
      Requested (· ∈ (ofListing stage l).statements) (ofListing stage (l.upTo n)) e s := by
  induction h with
  | empty target => cases hs
  | @add l e before admitted ih =>
    have hstep := step_wrote (matches_ofListing stage before) before.proper admitted
    rw [ofListing_add] at hs ⊢
    rcases hstep.new s hs with hold | hnew
    · obtain ⟨n, e', hentry, hrequested⟩ := ih hold
      have hn : n < l.entries.size := (Array.getElem?_eq_some_iff.1 hentry).1
      refine ⟨n, e', ?_, ?_⟩
      · rw [entries_add, Array.getElem?_push_lt hn, ← Array.getElem?_eq_getElem hn]
        exact hentry
      · rw [l.upTo_add e (Nat.le_of_lt hn)]
        exact hrequested.mono hstep.old
    · refine ⟨l.entries.size, e, by simp, ?_⟩
      rw [l.upTo_add e (Nat.le_refl _), before.upTo_size]
      exact hnew

end Glsl
end Microcode
