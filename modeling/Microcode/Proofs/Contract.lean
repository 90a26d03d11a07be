import Microcode.Proofs.Bindings
import Microcode.Proofs.Names

/-!
The contract between the front end and the readers of its listings.

A reader takes the entries one after the other and assumes of each that its operands fit: that they
are values of the function that is being written, that their scalars agree and their widths do, and
that indices are within them.  `Listing.Typed` gives the shape of an operation whose operands fit,
and says the same for every target.  An entry is admitted by the listing before it, and a listing is
well typed when each of its entries was admitted.
-/

namespace Microcode

open Machine List

variable {n : Nat} {scalar : Scalar}

/-- What is being written: declarations, a function, or the entry point. -/
inductive Phase where
  | outside
  | function
  | entry
  deriving DecidableEq, Repr

/-- How far a listing has come: the values there are, and those there were when the function that is
being written began. -/
structure Scope where
  values : Nat := 0
  start : Nat := 0
  phase : Phase := .outside
  deriving DecidableEq, Repr

def Scope.add (s : Scope) : Entry → Scope
  | .define _ _ => { s with values := s.values + 1 }
  | .beginFunction _ => { s with start := s.values, phase := .function }
  | .endFunction => { s with start := s.values, phase := .outside }
  | .beginEntry => { s with start := s.values, phase := .entry }
  | _ => s

/-- Between one and four components. -/
def Shape.Proper (s : Shape) : Prop := 0 < s.count ∧ s.count ≤ 4

theorem Shape.proper_scalar (scalar : Scalar) : (⟨scalar, 1⟩ : Shape).Proper :=
  ⟨Nat.one_pos, by simp⟩

theorem Shape.proper_group : Shape.group.Proper := ⟨by decide, by decide⟩

/-- A variable that can be declared. -/
structure Variable.Fits (v : Variable) : Prop where
  shape : v.shape.Proper
  name : isName v.name = true

/-- Arguments of a builtin function. -/
def Builtin.arity : Builtin → Nat
  | floor | fract | round | sign | inverseSqrt | exp2 | log2 | dfdx | dfdy => 1
  | step | dot => 2
  | mix | clamp => 3

/-- Two widths that an operation can bring together: a scalar is repeated. -/
def Compatible (m n : Nat) : Prop := m = n ∨ m = 1 ∨ n = 1

namespace Listing

def scope (l : Listing) : Scope := l.entries.foldl Scope.add {}

/-- The listing of the first `n` entries. -/
def upTo (l : Listing) (n : Nat) : Listing :=
  (l.entries.toList.take n).foldl add { target := l.target }

/-- The variables that the host sees, and those with long names. -/
def outer (l : Listing) : List Variable := l.vars.toList.filter fun v => !v.isInner

/-- A value of the function that is being written, with its shape. -/
structure Has (l : Listing) (v : Value) (shape : Shape) : Prop where
  inScope : l.scope.start ≤ v.index
  defined : l.Defines v
  shape : l.shapeOf v = shape

/-- The operation has operands that fit, and gives a value of the shape. -/
inductive Typed (l : Listing) : Op → Shape → Prop
  | constant (c : Constant) : Typed l (.constant c) ⟨c.scalar, 1⟩
  | construct {parts : List Value} {scalar : Scalar} {counts : List Nat}
      (parts_have : List.Forall₂ (fun v n => l.Has v ⟨scalar, n⟩) parts counts)
      (nonempty : parts ≠ []) (width : counts.sum ≤ 4) :
    Typed l (.construct parts) ⟨scalar, counts.sum⟩
  | load {place : Place} {shape : Shape} (valid : place.Valid l shape) :
    Typed l (.load place) shape
  | extract {v : Value} {scalar : Scalar} {n i : Nat} (has : l.Has v ⟨scalar, n⟩) (inside : i < n) :
    Typed l (.extract v i) ⟨scalar, 1⟩
  | insert {v part : Value} {scalar : Scalar} {n i : Nat} (has : l.Has v ⟨scalar, n⟩)
      (part_has : l.Has part ⟨scalar, 1⟩) (inside : i < n) :
    Typed l (.insert v part i) ⟨scalar, n⟩
  | shuffle {a b : Value} {scalar : Scalar} {m n : Nat} {indices : List Nat}
      (a_has : l.Has a ⟨scalar, m⟩) (b_has : l.Has b ⟨scalar, n⟩) (nonempty : indices ≠ [])
      (width : indices.length ≤ 4) (inside : ∀ i ∈ indices, i < m + n) :
    Typed l (.shuffle a b indices) ⟨scalar, indices.length⟩
  | binary {op : BinaryOp} {a b : Value} {scalar : Scalar} {m n : Nat}
      (a_has : l.Has a ⟨scalar, m⟩) (b_has : l.Has b ⟨scalar, n⟩) (widths : Compatible m n) :
    Typed l (.binary op a b) ⟨scalar, max m n⟩
  | unary {op : UnaryOp} {a : Value} {shape : Shape} (has : l.Has a shape) :
    Typed l (.unary op a) shape
  | compare {op : CompareOp} {a b : Value} {scalar : Scalar} {m n : Nat}
      (a_has : l.Has a ⟨scalar, m⟩) (b_has : l.Has b ⟨scalar, n⟩) (widths : Compatible m n) :
    Typed l (.compare op a b) ⟨.bool, max m n⟩
  | select {c a b : Value} {scalar : Scalar} {k m n : Nat} (c_has : l.Has c ⟨.bool, k⟩)
      (a_has : l.Has a ⟨scalar, m⟩) (b_has : l.Has b ⟨scalar, n⟩) (widths : Compatible m n)
      (condition : k = 1 ∨ k = max m n) :
    Typed l (.select c a b) ⟨scalar, max m n⟩
  | dot {a b : Value} {n : Nat} (a_has : l.Has a ⟨.f32, n⟩) (b_has : l.Has b ⟨.f32, n⟩) :
    Typed l (.builtin .dot [a, b]) Shape.f32
  | builtin {f : Builtin} {args : List Value} {n : Nat} (notDot : f ≠ .dot)
      (arity : args.length = f.arity) (args_have : ∀ v ∈ args, l.Has v ⟨.f32, n⟩) :
    Typed l (.builtin f args) ⟨.f32, n⟩
  | convert {conversion : Conversion} {v : Value} {source target : Scalar} {n : Nat}
      (has : l.Has v ⟨source, n⟩) (source_number : source ≠ .bool) (target_number : target ≠ .bool) :
    Typed l (.convert conversion v target) ⟨target, n⟩
  | unpack {encoding : HalfEncoding} {v : Value} (has : l.Has v Shape.f32) :
    Typed l (.helper (.unpack encoding) v) ⟨.f32, 2⟩
  | pack {encoding : HalfEncoding} {v : Value} (has : l.Has v ⟨.f32, 2⟩) :
    Typed l (.helper (.pack encoding) v) Shape.f32
  | fetch {space : MemorySpace} {offset : Value} {scalar : Scalar} (has : l.Has offset ⟨scalar, 1⟩)
      (integer : scalar.isInteger = true) :
    Typed l (.fetch space offset) Shape.f32

/-- The entry may follow.  A value that is stored has the shape of its place, and functions are
written one after the other before the entry point, which calls them. -/
inductive Admits (l : Listing) : Entry → Prop
  | define {op : Op} {shape : Shape} (typed : l.Typed op shape) : Admits l (.define shape op)
  | reuse {op : Op} {v : Value} {shape : Shape} (typed : l.Typed op shape) (has : l.Has v shape) :
    Admits l (.reuse op v)
  | declare {v : Variable} (fits : v.Fits) : Admits l (.declare v)
  | element {place : Place} {index : Nat} (declared : l.Declares place)
      (inside : index < (l.variableAt place).length) : Admits l (.element place index)
  | store {place : Place} {v : Value} {shape : Shape} (valid : place.Valid l shape)
      (has : l.Has v shape) : Admits l (.store place v)
  | storeMemory {space : MemorySpace} {offset v : Value} {scalar scalar' : Scalar}
      (offset_has : l.Has offset ⟨scalar, 1⟩) (integer : scalar.isInteger = true)
      (has : l.Has v ⟨scalar', 1⟩) : Admits l (.storeMemory space offset v)
  | beginFunction {name : String} (phase : l.scope.phase = .outside) (named : isName name = true) :
    Admits l (.beginFunction name)
  | endFunction (phase : l.scope.phase = .function) : Admits l .endFunction
  | beginEntry (phase : l.scope.phase = .outside) : Admits l .beginEntry
  | call {f : Function} (phase : l.scope.phase = .entry) (known : f.index < l.functions.size) :
    Admits l (.call f)

/-- A listing each of whose entries was admitted by the ones before it. -/
inductive WellTyped : Listing → Prop
  | empty (target : Target) : WellTyped { target := target }
  | add {l : Listing} {e : Entry} (before : WellTyped l) (admitted : l.Admits e) :
    WellTyped (l.add e)

/-! ## Adding entries -/

variable {l : Listing} {e : Entry} {op : Op} {shape : Shape} {v : Value}

@[simp] theorem target_add (l : Listing) (e : Entry) : (l.add e).target = l.target := by
  cases e <;> rfl

theorem scope_add (l : Listing) (e : Entry) : (l.add e).scope = l.scope.add e := by
  rw [scope, entries_add, Array.foldl_push]
  rfl

theorem outer_declare (l : Listing) (v : Variable) :
    (l.add (.declare v)).outer = l.outer ++ if v.isInner then [] else [v] := by
  show ((l.vars.push v).toList.filter _) = _
  rw [Array.toList_push, filter_append]
  cases h : v.isInner <;> simp [outer, h]

theorem Has.mono {l' : Listing} (h : l.Has v shape) (hl : l.Extends l')
    (hstart : l'.scope.start = l.scope.start) : l'.Has v shape where
  inScope := by rw [hstart]; exact h.inScope
  defined := hl.defines h.defined
  shape := (hl.shapeOf h.defined).trans h.shape

/-! ## What is true of every well-typed listing -/

theorem WellTyped.scope_values (h : l.WellTyped) : l.scope.values = l.shapes.size := by
  induction h with
  | empty => rfl
  | @add l e _ _ ih =>
    rw [scope_add]
    cases e <;> simp [Scope.add, Listing.add, Listing.push, ih]

theorem WellTyped.start_le (h : l.WellTyped) : l.scope.start ≤ l.shapes.size := by
  induction h with
  | empty => exact Nat.le_refl _
  | @add l e before _ ih =>
    have hvalues := before.scope_values
    rw [scope_add]
    cases e <;> simp only [Scope.add, Listing.add, Listing.push, Array.size_push] <;> omega

theorem upTo_add (l : Listing) (e : Entry) (h : n ≤ l.entries.size) :
    (l.add e).upTo n = l.upTo n := by
  rw [upTo, upTo, entries_add, target_add, Array.toList_push,
    take_append_of_le_length (by simpa using h)]

theorem WellTyped.upTo_size (h : l.WellTyped) : l.upTo l.entries.size = l := by
  induction h with
  | empty => rfl
  | @add l e _ _ ih =>
    rw [upTo, take_of_length_le (by simp)] at ih
    rw [upTo, take_of_length_le (by simp), entries_add, target_add, Array.toList_push,
      foldl_append, ih]
    rfl

theorem WellTyped.upTo (h : l.WellTyped) (n : Nat) : (l.upTo n).WellTyped := by
  induction h with
  | empty target =>
    rw [Listing.upTo, take_of_length_le (Nat.zero_le n)]
    exact .empty target
  | @add l e before admitted ih =>
    by_cases hn : n ≤ l.entries.size
    · rw [l.upTo_add e hn]
      exact ih
    · have hall : (l.add e).upTo n = (l.add e).upTo (l.add e).entries.size := by
        rw [Listing.upTo, Listing.upTo, take_of_length_le (by simp; omega),
          take_of_length_le (by simp)]
      rw [hall, (WellTyped.add before admitted).upTo_size]
      exact .add before admitted

theorem WellTyped.admits (h : l.WellTyped) (i : Nat) (hi : i < l.entries.size) :
    (l.upTo i).Admits (l.entries[i]) := by
  induction h with
  | empty => exact absurd hi (Nat.not_lt_zero i)
  | @add l e before admitted ih =>
    rw [entries_add, Array.size_push] at hi
    rw [l.upTo_add e (by omega)]
    simp only [entries_add, Array.getElem_push]
    split
    case isTrue hlt => exact ih hlt
    case isFalse hge =>
      have hlast : i = l.entries.size := by omega
      rw [hlast, before.upTo_size]
      exact admitted

/-- Every value has between one and four components, and every variable fits. -/
structure Proper (l : Listing) : Prop where
  shapes : ∀ v, l.Defines v → (l.shapeOf v).Proper
  vars : ∀ place, l.Declares place → (l.variableAt place).Fits

theorem Proper.has (hl : l.Proper) (h : l.Has v shape) : shape.Proper :=
  h.shape ▸ hl.shapes v h.defined

theorem sum_pos {parts : List Value} {counts : List Nat} {R : Value → Nat → Prop}
    (h : List.Forall₂ R parts counts) (hne : parts ≠ []) (hR : ∀ v n, R v n → 0 < n) :
    0 < counts.sum := by
  cases h with
  | nil => exact absurd rfl hne
  | cons hv _ =>
    have := hR _ _ hv
    rw [sum_cons]
    omega

theorem Typed.proper (h : l.Typed op shape) (hl : l.Proper) : shape.Proper := by
  have two {scalar scalar' : Scalar} {a b : Value} {m n : Nat} (ha : l.Has a ⟨scalar, m⟩)
      (hb : l.Has b ⟨scalar, n⟩) : (⟨scalar', max m n⟩ : Shape).Proper := by
    have hm := hl.has ha
    have hn := hl.has hb
    simp only [Shape.Proper] at hm hn ⊢
    omega
  cases h with
  | constant c | extract has inside | dot a_has b_has | pack has | fetch has integer =>
    exact Shape.proper_scalar _
  | construct parts_have nonempty width =>
    exact ⟨sum_pos parts_have nonempty fun v n hv => (hl.has hv).1, width⟩
  | load valid => exact valid.shape ▸ (hl.vars _ valid.declared).shape
  | insert has part_has inside => exact hl.has has
  | shuffle a_has b_has nonempty width inside => exact ⟨length_pos_iff.2 nonempty, width⟩
  | binary a_has b_has widths => exact two a_has b_has
  | unary has => exact hl.has has
  | compare a_has b_has widths => exact two a_has b_has
  | select c_has a_has b_has widths condition => exact two a_has b_has
  | @builtin f args n notDot arity args_have =>
    cases args with
    | nil => cases f <;> exact absurd arity (by decide)
    | cons a rest => exact hl.has (args_have a mem_cons_self)
  | @convert _ _ source target n has source_number target_number =>
    have h : (⟨source, n⟩ : Shape).Proper := hl.has has
    exact h
  | unpack has => exact ⟨by decide, by decide⟩

theorem exists_of_forall₂ {α β : Type} {R : α → β → Prop} {as : List α} {bs : List β}
    (h : List.Forall₂ R as bs) {a : α} (ha : a ∈ as) : ∃ b, R a b := by
  induction h with
  | nil => cases ha
  | cons hR _ ih =>
    rcases mem_cons.1 ha with rfl | ha
    · exact ⟨_, hR⟩
    · exact ih ha

theorem Typed.has (h : l.Typed op shape) : ∀ v ∈ op.values, ∃ s, l.Has v s := by
  have two {a b : Value} {s s' : Shape} (ha : l.Has a s) (hb : l.Has b s') :
      ∀ v ∈ [a, b], ∃ s, l.Has v s := by
    simp only [forall_mem_cons, not_mem_nil, false_implies, implies_true, and_true]
    exact ⟨⟨s, ha⟩, s', hb⟩
  have one {a : Value} {s : Shape} (ha : l.Has a s) : ∀ v ∈ [a], ∃ s, l.Has v s :=
    forall_mem_singleton.2 ⟨s, ha⟩
  cases h with
  | constant | load => exact fun v hv => nomatch hv
  | construct parts_have nonempty width =>
    intro v hv
    obtain ⟨n, hn⟩ := exists_of_forall₂ parts_have hv
    exact ⟨_, hn⟩
  | extract has inside => exact one has
  | insert has part_has inside => exact two has part_has
  | shuffle a_has b_has nonempty width inside => exact two a_has b_has
  | binary a_has b_has widths => exact two a_has b_has
  | unary has => exact one has
  | compare a_has b_has widths => exact two a_has b_has
  | select c_has a_has b_has widths condition =>
    exact forall_mem_cons.2 ⟨⟨_, c_has⟩, two a_has b_has⟩
  | dot a_has b_has => exact two a_has b_has
  | @builtin f args n notDot arity args_have =>
    have hvalues : (Op.builtin f args).values = args := by
      cases f with
      | dot => exact absurd rfl notDot
      | _ => rfl
    rw [hvalues]
    exact fun v hv => ⟨_, args_have v hv⟩
  | convert has source_number target_number => exact one has
  | unpack has => exact one has
  | pack has => exact one has
  | fetch has integer => exact one has

theorem Proper.define (hl : l.Proper) (h : shape.Proper) : (l.add (.define shape op)).Proper where
  shapes v hv := by
    by_cases hlt : l.Defines v
    · rw [(l.extends_add _).shapeOf hlt]
      exact hl.shapes v hlt
    · have hv' : v.index < l.shapes.size + 1 := by simpa [Defines, add] using hv
      have heq : v.index = l.shapes.size := by simp only [Defines] at hlt; omega
      rw [shapeOf, heq]
      simpa [add] using h
  vars := hl.vars

theorem Proper.declare {x : Variable} (hl : l.Proper) (h : x.Fits) :
    (l.add (.declare x)).Proper where
  shapes := hl.shapes
  vars place hp := by
    by_cases hlt : l.Declares place
    · rw [(l.extends_add _).variableAt hlt]
      exact hl.vars place hlt
    · have hp' : place.variableIndex < l.vars.size + 1 := by simpa [Declares, add] using hp
      have heq : place.variableIndex = l.vars.size := by simp only [Declares] at hlt; omega
      rw [variableAt, heq]
      simpa [add] using h

theorem WellTyped.proper (h : l.WellTyped) : l.Proper := by
  induction h with
  | empty => exact ⟨fun v hv => absurd hv (Nat.not_lt_zero _), fun p hp => absurd hp (Nat.not_lt_zero _)⟩
  | add before admitted ih =>
    cases admitted with
    | define typed => exact ih.define (typed.proper ih)
    | declare fits => exact ih.declare fits
    | _ => exact ⟨ih.shapes, ih.vars⟩

/-! ## Shapes of operations -/

theorem Has.countOf (h : l.Has v ⟨scalar, n⟩) : l.countOf v = n := by
  rw [Listing.countOf, h.shape]

theorem Has.scalarOf (h : l.Has v ⟨scalar, n⟩) : l.scalarOf v = scalar := by
  rw [Listing.scalarOf, h.shape]

theorem foldr_countOf {parts : List Value} {counts : List Nat}
    (h : List.Forall₂ (fun v n => l.Has v ⟨scalar, n⟩) parts counts) :
    parts.foldr (fun v n => l.countOf v + n) 0 = counts.sum := by
  induction h with
  | nil => rfl
  | cons hv _ ih => rw [foldr_cons, ih, hv.countOf, sum_cons]

theorem widest_pair_of_has {a b : Value} {m : Nat} (ha : l.Has a ⟨scalar, m⟩)
    (hb : l.Has b ⟨scalar, n⟩) : l.widest [a, b] = ⟨scalar, max m n⟩ := by
  simp [widest, ha.scalarOf, ha.countOf, hb.countOf]

theorem max?_replicate (k : Nat) (hk : 0 < k) : (List.replicate k n).max? = some n := by
  rw [max?_eq_some_iff]
  exact ⟨mem_replicate.2 ⟨by omega, rfl⟩, fun b hb => Nat.le_of_eq (eq_of_mem_replicate hb)⟩

theorem widest_of_has {args : List Value} (hne : args ≠ []) (h : ∀ v ∈ args, l.Has v ⟨scalar, n⟩) :
    l.widest args = ⟨scalar, n⟩ := by
  have hcounts : args.map l.countOf = List.replicate args.length n :=
    eq_replicate_iff.2 ⟨by simp, fun k hk => by
      obtain ⟨v, hv, rfl⟩ := mem_map.1 hk
      exact (h v hv).countOf⟩
  obtain ⟨a, rest, rfl⟩ := exists_cons_of_ne_nil hne
  rw [widest, hcounts, max?_replicate _ (by simp)]
  simp [(h a mem_cons_self).scalarOf]

/-- The listing as it would be for another target. -/
def retarget (l : Listing) (t : Target) : Listing := { l with target := t }

@[simp] theorem retarget_self (l : Listing) : l.retarget l.target = l := rfl

/-- The shape of an operation depends on the target in three places. -/
theorem opShape_retarget (l : Listing) (t : Target) : (l.retarget t).opShape op =
    match op with
    | .construct parts =>
      ⟨(parts.head?.map l.scalarOf).getD .f32,
        constructCount t (parts.foldr (fun v n => l.countOf v + n) 0)⟩
    | .shuffle a b indices => (l.retarget t).shuffleShape a b indices
    | .select c a b => (l.retarget t).selectShape c a b
    | _ => l.opShape op := by
  cases op with
  | builtin f args => cases f <;> rfl
  | _ => rfl

/-- Every target gives an operation whose operands fit the same shape. -/
theorem Typed.opShape_retarget (h : l.Typed op shape) (hl : l.Proper) (t : Target) :
    (l.retarget t).opShape op = shape := by
  rw [Listing.opShape_retarget]
  cases h with
  | constant c => rfl
  | @construct parts scalar counts parts_have nonempty width =>
    have hcount : constructCount t counts.sum = counts.sum := by
      cases t with
      | machine => exact Nat.min_eq_right width
      | glsl | spirv => rfl
    simp only [foldr_countOf parts_have, hcount]
    cases parts_have with
    | nil => exact absurd rfl nonempty
    | cons hv _ => simp [hv.scalarOf]
  | load valid => exact valid.shape
  | extract has inside => simp only [opShape, has.scalarOf]
  | insert has part_has inside => exact has.shape
  | @shuffle a b scalar m n indices a_has b_has nonempty width inside =>
    have ha : (l.retarget t).scalarOf a = scalar := a_has.scalarOf
    have hb : (l.retarget t).scalarOf b = scalar := b_has.scalarOf
    simp only [shuffleShape, ha, hb, ite_self]
    split <;> rfl
  | binary a_has b_has widths => exact widest_pair_of_has a_has b_has
  | unary has => exact has.shape
  | compare a_has b_has widths => simp only [opShape, widest_pair_of_has a_has b_has]
  | @select c a b scalar k m n c_has a_has b_has widths condition =>
    have hwidest : l.widest [a, b] = ⟨scalar, max m n⟩ := widest_pair_of_has a_has b_has
    cases t with
    | machine | spirv => exact hwidest
    | glsl =>
      have hm : 0 < m := (hl.has a_has).1
      have hk : max (max m n) k = max m n := by omega
      show (⟨l.scalarOf a, max (max (l.countOf a) (l.countOf b)) (l.countOf c)⟩ : Shape) = _
      rw [a_has.scalarOf, a_has.countOf, b_has.countOf, c_has.countOf, hk]
  | dot a_has b_has => rfl
  | @builtin f args n notDot arity args_have =>
    have hne : args ≠ [] := by
      rintro rfl
      cases f <;> exact absurd arity (by decide)
    cases f with
    | dot => exact absurd rfl notDot
    | _ => exact widest_of_has hne args_have
  | convert has source_number target_number => simp only [opShape, has.countOf]
  | unpack has => rfl
  | pack has => rfl
  | fetch has integer => rfl

theorem Typed.opShape (h : l.Typed op shape) (hl : l.Proper) : l.opShape op = shape :=
  h.opShape_retarget hl l.target

end Listing
/-- Readers that only look leave what they look at. -/
theorem run_mapM_of_run {σ α β : Type} {f : α → StateM σ β} {g : α → β} {d : σ} {xs : List α}
    (h : ∀ x ∈ xs, (f x).run d = (g x, d)) : (xs.mapM f).run d = (xs.map g, d) := by
  induction xs with
  | nil => rfl
  | cons x rest ih =>
    rw [mapM_cons, StateT.run_bind, h x mem_cons_self]
    show (let r := (rest.mapM f).run d; (g x :: r.1, r.2)) = _
    rw [ih fun y hy => h y (.tail _ hy)]
    rfl

end Microcode
