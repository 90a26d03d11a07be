import Microcode.Proofs.Contract

/-!
Evaluating an operation in two states.

Two listings may number their values and variables differently, and a value may have anything past
its components.  An operation whose operands fit reads no more of a value than its components, so
that it gives the same components in two states in which its operands have the same ones.
-/

namespace Microcode

open Machine List State Listing

/-- Operations of one kind on corresponding values and places. -/
inductive Op.Alike (V : Value → Value → Prop) (P : Place → Place → Prop) : Op → Op → Prop
  | constant (c : Constant) : Alike V P (.constant c) (.constant c)
  | construct {parts parts' : List Value} (h : List.Forall₂ V parts parts') :
    Alike V P (.construct parts) (.construct parts')
  | load {p p' : Place} (h : P p p') : Alike V P (.load p) (.load p')
  | extract {v v' : Value} (h : V v v') (index : Nat) :
    Alike V P (.extract v index) (.extract v' index)
  | insert {v v' u u' : Value} (hv : V v v') (hu : V u u') (index : Nat) :
    Alike V P (.insert v u index) (.insert v' u' index)
  | shuffle {a a' b b' : Value} (ha : V a a') (hb : V b b') (indices : List Nat) :
    Alike V P (.shuffle a b indices) (.shuffle a' b' indices)
  | binary {a a' b b' : Value} (op : BinaryOp) (ha : V a a') (hb : V b b') :
    Alike V P (.binary op a b) (.binary op a' b')
  | unary {a a' : Value} (op : UnaryOp) (ha : V a a') : Alike V P (.unary op a) (.unary op a')
  | compare {a a' b b' : Value} (op : CompareOp) (ha : V a a') (hb : V b b') :
    Alike V P (.compare op a b) (.compare op a' b')
  | select {c c' a a' b b' : Value} (hc : V c c') (ha : V a a') (hb : V b b') :
    Alike V P (.select c a b) (.select c' a' b')
  | builtin {args args' : List Value} (f : Builtin) (h : List.Forall₂ V args args')
      (nonempty : args ≠ []) : Alike V P (.builtin f args) (.builtin f args')
  | convert {v v' : Value} (conversion : Conversion) (h : V v v') (scalar : Scalar) :
    Alike V P (.convert conversion v scalar) (.convert conversion v' scalar)
  | helper {v v' : Value} (helper : Helper) (h : V v v') :
    Alike V P (.helper helper v) (.helper helper v')
  | fetch {v v' : Value} (space : MemorySpace) (h : V v v') :
    Alike V P (.fetch space v) (.fetch space v')

section

variable {V : Value → Value → Prop} {P : Place → Place → Prop} {l l' : Listing} {s s' : State}
  {op op' : Op} {shape : Shape} {v v' : Value}

/-! ## Scopes -/

theorem forall₂_mem {α β : Type} {R : α → β → Prop} {p : α → Prop} {q : β → Prop} {as : List α}
    {bs : List β} (h : List.Forall₂ R as bs) (hR : ∀ a b, R a b → p a ∧ q b) :
    (∀ a ∈ as, p a) ∧ ∀ b ∈ bs, q b := by
  induction h with
  | nil => simp
  | cons hab _ ih =>
    rw [forall_mem_cons, forall_mem_cons]
    exact ⟨⟨(hR _ _ hab).1, ih.1⟩, (hR _ _ hab).2, ih.2⟩

/-- An argument of a dot product that is missing stands for the first value there is. -/
theorem Listing.defines_args {args : List Value} (h : ∀ v ∈ args, l.Defines v) (hne : args ≠ [])
    (i : Nat) : l.Defines (args.getD i default) := by
  obtain ⟨a, rest, rfl⟩ := exists_cons_of_ne_nil hne
  rw [getD_eq_getElem?_getD]
  cases hi : (a :: rest)[i]? with
  | none =>
    have ha : a.index < l.shapes.size := h a mem_cons_self
    show 0 < l.shapes.size
    omega
  | some v => exact h v (mem_of_getElem? hi)

theorem Op.Alike.scoped (h : Op.Alike V P op op')
    (hV : ∀ v v', V v v' → l.Defines v ∧ l'.Defines v')
    (hP : ∀ p p', P p p' → l.Declares p ∧ l'.Declares p') : l.Scoped op ∧ l'.Scoped op' := by
  have values {vs vs' : List Value} (h : List.Forall₂ V vs vs') := forall₂_mem h hV
  have one {v v' : Value} (h : V v v') := values (.cons h .nil)
  have two {a a' b b' : Value} (ha : V a a') (hb : V b b') := values (.cons ha (.cons hb .nil))
  have pure {op : Op} {m : Listing} (h : ∀ v ∈ op.values, m.Defines v) (hp : op.place? = .none) :
      m.Scoped op := ⟨h, fun p hmem => by rw [hp] at hmem; cases hmem⟩
  cases h with
  | constant c => exact ⟨pure (by simp [Op.values]) rfl, pure (by simp [Op.values]) rfl⟩
  | construct h => exact ⟨pure (values h).1 rfl, pure (values h).2 rfl⟩
  | load h =>
    have hplace := hP _ _ h
    constructor
    · exact ⟨by simp [Op.values], fun p hp => Option.some.inj hp ▸ hplace.1⟩
    · exact ⟨by simp [Op.values], fun p hp => Option.some.inj hp ▸ hplace.2⟩
  | extract h index | convert conversion h scalar | helper helper h | fetch space h =>
    exact ⟨pure (one h).1 rfl, pure (one h).2 rfl⟩
  | insert hv hu index => exact ⟨pure (two hv hu).1 rfl, pure (two hv hu).2 rfl⟩
  | shuffle ha hb indices | binary op ha hb | compare op ha hb =>
    exact ⟨pure (two ha hb).1 rfl, pure (two ha hb).2 rfl⟩
  | unary op ha => exact ⟨pure (one ha).1 rfl, pure (one ha).2 rfl⟩
  | select hc ha hb =>
    have three := values (.cons hc (.cons ha (.cons hb .nil)))
    exact ⟨pure three.1 rfl, pure three.2 rfl⟩
  | @builtin args args' f h nonempty =>
    have nonempty' : args' ≠ [] := by
      rintro rfl
      cases h
      exact nonempty rfl
    have dot {m : Listing} {args : List Value} (h : ∀ v ∈ args, m.Defines v) (hne : args ≠ []) :
        ∀ v ∈ [args.getD 0 default, args.getD 1 default], m.Defines v := by
      simp only [forall_mem_cons, not_mem_nil, false_implies, implies_true, and_true]
      exact ⟨defines_args h hne 0, defines_args h hne 1⟩
    cases f with
    | dot => exact ⟨pure (dot (values h).1 nonempty) rfl, pure (dot (values h).2 nonempty') rfl⟩
    | _ => exact ⟨pure (values h).1 rfl, pure (values h).2 rfl⟩

/-! ## Shapes -/

theorem Listing.widest_alike {values values' : List Value} (h : List.Forall₂ V values values')
    (hshape : ∀ {v v'}, V v v' → l'.shapeOf v' = l.shapeOf v) :
    l'.widest values' = l.widest values := by
  have hcounts : values'.map l'.countOf = values.map l.countOf := by
    induction h with
    | nil => rfl
    | cons hv _ ih => rw [map_cons, map_cons, ih, countOf, countOf, hshape hv]
  have hscalar : values'.head?.map l'.scalarOf = values.head?.map l.scalarOf := by
    cases h with
    | nil => rfl
    | cons hv _ => rw [head?_cons, head?_cons, Option.map_some, Option.map_some, scalarOf,
        scalarOf, hshape hv]
  rw [widest, widest, hcounts, hscalar]

theorem Op.Alike.opShape (h : Op.Alike V P op op') (htarget : l'.target = l.target)
    (hshape : ∀ {v v'}, V v v' → l'.shapeOf v' = l.shapeOf v)
    (hplace : ∀ {p p'}, P p p' → (l'.variableAt p').shape = (l.variableAt p).shape) :
    l'.opShape op' = l.opShape op := by
  have hcount {v v' : Value} (hv : V v v') : l'.countOf v' = l.countOf v :=
    congrArg Shape.count (hshape hv)
  have hscalar {v v' : Value} (hv : V v v') : l'.scalarOf v' = l.scalarOf v :=
    congrArg Shape.scalar (hshape hv)
  have two {a a' b b' : Value} (ha : V a a') (hb : V b b') : l'.widest [a', b'] = l.widest [a, b] :=
    widest_alike (.cons ha (.cons hb .nil)) hshape
  cases h with
  | constant c => rfl
  | @construct parts parts' h =>
    have htotal : parts'.foldr (fun v n => l'.countOf v + n) 0 =
        parts.foldr (fun v n => l.countOf v + n) 0 := by
      induction h with
      | nil => rfl
      | cons hv _ ih => rw [foldr_cons, foldr_cons, ih, hcount hv]
    have hhead : parts'.head?.map l'.scalarOf = parts.head?.map l.scalarOf := by
      cases h with
      | nil => rfl
      | cons hv _ => rw [head?_cons, head?_cons, Option.map_some, Option.map_some,
          hscalar hv]
    simp only [opShape, htarget, htotal, hhead]
  | load h => exact hplace h
  | extract h index => simp only [opShape, hscalar h]
  | insert hv hu index => exact hshape hv
  | shuffle ha hb indices =>
    simp only [opShape, shuffleShape, htarget, hscalar ha, hscalar hb, hcount ha]
  | binary op ha hb => exact two ha hb
  | unary op ha => exact hshape ha
  | compare op ha hb => simp only [opShape, two ha hb]
  | select hc ha hb =>
    simp only [opShape, selectShape, htarget, two ha hb, hscalar ha, hcount ha,
      hcount hb, hcount hc]
  | builtin f h nonempty =>
    cases f with
    | dot => rfl
    | _ => exact widest_alike h hshape
  | convert conversion h scalar => simp only [opShape, hcount h]
  | helper helper h => rfl
  | fetch space h => rfl

/-! ## Lanes -/

theorem State.lane_eq (hshape : l'.shapeOf v' = l.shapeOf v)
    (hlanes : ∀ i, i < l.countOf v → (s'.lanes v').get i = (s.lanes v).get i) {i : Nat}
    (hi : i < l.countOf v ∨ l.countOf v = 1) :
    s'.lane (.ofShapes l'.shapes) v' i = s.lane (.ofShapes l.shapes) v i := by
  have hcount : (Program.ofShapes l'.shapes).countOf v' = l.countOf v :=
    congrArg Shape.count hshape
  rw [lane, lane, hcount]
  show _ = if l.countOf v = 1 then _ else _
  by_cases h1 : l.countOf v = 1
  · rw [if_pos h1, if_pos h1]
    exact hlanes 0 (by omega)
  · rw [if_neg h1, if_neg h1]
    exact hlanes i (by omega)

theorem State.fill_congr {n : Nat} {f g : Nat → Lane} (h : ∀ i, i < n → f i = g i) :
    fill n f = fill n g := by
  have hfun : (fun i => if i < n then f i else 0#32) = fun i => if i < n then g i else 0#32 := by
    funext i
    by_cases hi : i < n
    · rw [if_pos hi, if_pos hi, h i hi]
    · rw [if_neg hi, if_neg hi]
  rw [fill, fill, hfun]

/-- Lanes of the wider of two operands are read within each, or it is a scalar. -/
theorem Listing.Proper.reads (hl : l.Proper) {a b : Value} {scalar scalar' : Scalar} {m n i : Nat}
    (ha : l.Has a ⟨scalar, m⟩) (hb : l.Has b ⟨scalar', n⟩) (widths : Compatible m n)
    (hi : i < max m n) : (i < m ∨ m = 1) ∧ (i < n ∨ n = 1) := by
  have hm : 0 < m := (hl.has ha).1
  have hn : 0 < n := (hl.has hb).1
  rcases widths with rfl | rfl | rfl <;> omega

theorem Quad.get_set {α : Type} (q : Quad α) (a : α) {i j : Nat} (hi : i < 4) (hj : j < 4) :
    (q.set i a).get j = if i = j then a else q.get j := by
  by_cases h : i = j
  · rw [if_pos h, h, Quad.get_set_self]
  · rw [if_neg h, Quad.get_set_ne _ _ hi hj h]

/-- An operation whose operands fit gives the same components where its operands have the same. -/
theorem Op.Alike.eval (h : Op.Alike V P op op') (hl : l.Proper) (typed : l.Typed op shape)
    (hshape : ∀ {v v'}, V v v' → l'.shapeOf v' = l.shapeOf v)
    (hlanes : ∀ {v v'}, V v v' → ∀ i, i < l.countOf v → (s'.lanes v').get i = (s.lanes v).get i)
    (hread : ∀ {p p'}, P p p' → elementIndex p < (l.variableAt p).length →
      ∀ i, i < (l.variableAt p).shape.count → (s'.read p').get i = (s.read p).get i)
    (hmemory : s'.memory = s.memory) {i : Nat} (hi : i < shape.count) :
    (s'.eval (.ofShapes l'.shapes) shape op').get i = (s.eval (.ofShapes l.shapes) shape op).get i := by
  have hprogram {v v' : Value} (hv : V v v') :
      (Program.ofShapes l'.shapes).shapeOf v' = (Program.ofShapes l.shapes).shapeOf v := hshape hv
  have hcount {v v' : Value} {shape : Shape} (hv : V v v') (has : l.Has v shape) :
      (Program.ofShapes l'.shapes).countOf v' = shape.count ∧
        (Program.ofShapes l.shapes).countOf v = shape.count :=
    ⟨congrArg Shape.count ((hshape hv).trans has.shape), congrArg Shape.count has.shape⟩
  have hlane {v v' : Value} {shape : Shape} {j : Nat} (hv : V v v') (has : l.Has v shape)
      (hj : j < shape.count ∨ shape.count = 1) :
      s'.lane (.ofShapes l'.shapes) v' j = s.lane (.ofShapes l.shapes) v j := by
    apply State.lane_eq (hshape hv) (hlanes hv)
    rw [countOf, has.shape]
    exact hj
  have filled {n : Nat} {f g : Nat → Lane} (h : ∀ j, j < n → f j = g j) :
      (fill n f).get i = (fill n g).get i := by
    rw [State.fill_congr h]
  cases h with
  | constant c => rfl
  | @construct parts parts' h =>
    cases typed with
    | @construct _ scalar counts parts_have nonempty width =>
      have hjoined : (parts'.flatMap fun v => (List.range ((Program.ofShapes l'.shapes).countOf v)).map
            (s'.lane (.ofShapes l'.shapes) v)) =
          parts.flatMap fun v => (List.range ((Program.ofShapes l.shapes).countOf v)).map
            (s.lane (.ofShapes l.shapes) v) := by
        clear nonempty width hi
        induction h generalizing counts with
        | nil => rfl
        | cons hv _ ih =>
          cases parts_have with
          | cons has rest =>
            rw [flatMap_cons, flatMap_cons, ih rest, (hcount hv has).1, (hcount hv has).2]
            congr 1
            apply map_congr_left
            intro j hj
            exact hlane hv has (.inl (mem_range.1 hj))
      simp only [eval, hjoined]
  | load h =>
    cases typed with
    | load valid =>
      apply hread h valid.element
      rw [valid.shape]
      exact hi
  | extract h index =>
    cases typed with
    | extract has inside => simp only [eval, hlane h has (.inl inside)]
  | insert hv hu index =>
    cases typed with
    | insert has part_has inside =>
      have hfour := (hl.has has).2
      have hold := hlanes hv i (by rw [has.countOf]; exact hi)
      simp only [eval, hlane hu part_has (j := 0) (.inl Nat.one_pos)]
      simp only at hi hfour
      rw [Quad.get_set _ _ (by omega) (by omega), Quad.get_set _ _ (by omega) (by omega), hold]
  | @shuffle a a' b b' ha hb indices =>
    cases typed with
    | @shuffle _ _ scalar m n _ a_has b_has nonempty width inside =>
      have hpicked : (indices.map fun i => if i < m then s'.lane (.ofShapes l'.shapes) a' i
            else s'.lane (.ofShapes l'.shapes) b' (i - m)) =
          indices.map fun i => if i < m then s.lane (.ofShapes l.shapes) a i
            else s.lane (.ofShapes l.shapes) b (i - m) := by
        apply map_congr_left
        intro j hj
        have hin := inside j hj
        by_cases hlt : j < m
        · rw [if_pos hlt, if_pos hlt, hlane ha a_has (.inl hlt)]
        · have hlt' : j - m < n := by omega
          rw [if_neg hlt, if_neg hlt, hlane hb b_has (.inl hlt')]
      simp only [eval, (hcount ha a_has).1, (hcount ha a_has).2, hpicked]
  | binary op ha hb | compare op ha hb =>
    cases typed
    rename_i widths a_has b_has
    simp only [eval, hprogram ha]
    refine filled fun j hj => ?_
    obtain ⟨hfirst, hsecond⟩ := hl.reads a_has b_has widths hj
    rw [hlane ha a_has hfirst, hlane hb b_has hsecond]
  | unary op ha =>
    cases typed with
    | unary has =>
      simp only [eval, hprogram ha]
      exact filled fun j hj => by rw [hlane ha has (.inl hj)]
  | select hc ha hb =>
    cases typed with
    | @select _ _ _ scalar k m n c_has a_has b_has widths condition =>
      simp only [eval]
      refine filled fun j hj => ?_
      obtain ⟨hfirst, hsecond⟩ := hl.reads a_has b_has widths hj
      have hcondition : j < k ∨ k = 1 := by omega
      rw [hlane hc c_has hcondition, hlane ha a_has hfirst, hlane hb b_has hsecond]
  | @builtin args args' f h nonempty =>
    cases typed with
    | @dot a b n a_has b_has =>
      obtain _ | ⟨ha, _ | ⟨hb, _ | _⟩⟩ := h
      rename_i a' b'
      have hpairs : ((List.range n).map fun i =>
            (s'.lane (.ofShapes l'.shapes) a' i, s'.lane (.ofShapes l'.shapes) b' i)) =
          (List.range n).map fun i =>
            (s.lane (.ofShapes l.shapes) a i, s.lane (.ofShapes l.shapes) b i) := by
        apply map_congr_left
        intro j hj
        have hj := mem_range.1 hj
        rw [hlane ha a_has (.inl hj), hlane hb b_has (.inl hj)]
      simp only [eval, getD_cons_zero, getD_cons_succ, (hcount ha a_has).1,
        (hcount ha a_has).2, hpairs]
    | @builtin _ _ n notDot arity args_have =>
      have hargs (j : Nat) (hj : j < n) : (args'.map fun v => s'.lane (.ofShapes l'.shapes) v j) =
          args.map fun v => s.lane (.ofShapes l.shapes) v j := by
        clear arity nonempty
        induction h with
        | nil => rfl
        | cons hv _ ih =>
          rw [map_cons, map_cons, hlane hv (args_have _ mem_cons_self) (.inl hj),
            ih fun v hv => args_have v (.tail _ hv)]
      cases f with
      | dot => exact absurd rfl notDot
      | _ => exact filled fun j hj => congrArg (Machine.builtin _) (hargs j hj)
  | convert conversion h scalar =>
    cases typed with
    | convert has source_number target_number =>
      simp only [eval, hprogram h]
      exact filled fun j hj => by rw [hlane h has (.inl hj)]
  | helper helper h =>
    cases typed with
    | unpack has => simp only [eval, hlane h has (j := 0) (.inl Nat.one_pos)]
    | pack has =>
      have hlane (j : Nat) (hj : j < 2) := hlane h has (j := j) (.inl hj)
      simp only [eval, hlane 0 (by decide), hlane 1 (by decide)]
  | fetch space h =>
    cases typed with
    | fetch has integer => simp only [eval, hlane h has (j := 0) (.inl Nat.one_pos), hmemory]

/-! ## Well-typed listings on the way -/

theorem Listing.add_inj {e e' : Entry} (h : l.add e = l'.add e') : l = l' ∧ e = e' := by
  have hentries : l.entries.push e = l'.entries.push e' := by
    rw [← entries_add, ← entries_add, h]
  obtain ⟨hlast, hbefore⟩ := Array.push_eq_push.1 hentries
  subst hlast
  refine ⟨?_, rfl⟩
  obtain ⟨target, entries, shapes, vars, functions⟩ := l
  obtain ⟨target', entries', shapes', vars', functions'⟩ := l'
  cases e <;> simp_all [add, push, Array.push_eq_push]

theorem Listing.WellTyped.of_add {e : Entry} (h : (l.add e).WellTyped) :
    l.WellTyped ∧ l.Admits e := by
  generalize hadd : l.add e = m at h
  cases h with
  | empty target =>
    have hsize := congrArg (fun m : Listing => m.entries.size) hadd
    simp at hsize
  | add before admitted =>
    obtain ⟨rfl, rfl⟩ := add_inj hadd
    exact ⟨before, admitted⟩

theorem Machine.Steps.wellTyped {start : Nat → Nat → Lanes} (h : Steps start l s l' s')
    (hl : l'.WellTyped) : l.WellTyped := by
  induction h with
  | refl => exact hl
  | tail _ step ih =>
    obtain ⟨e, rfl⟩ := step.eq_add
    exact ih hl.of_add.1

end

end Microcode
