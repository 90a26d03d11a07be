import Microcode.Proofs.SpirvDeclarations

/-!
Code of a SPIR-V module: what each operation of a listing becomes.

An operation may take several instructions.  Each of them refers to terms that can be used in the
function that is being written, and the last gives a term of the shape of the operation.
-/

namespace Microcode

open List
namespace Spirv

variable (op : CompareOp) (c : Constant) {args : List Id} {β : Type}

variable {d d' : Draft} {t a b : Term} {shape : Shape} {opcode : Opcode}

/-! ## Terms -/

/-- A term that can be used in the function that is being written. -/
structure Draft.Holds (d : Draft) (t : Term) : Prop where
  proper : t.shape.Proper
  visible : d.Visible t.id

theorem Draft.Holds.mono (h : d.Holds t) (hd : d.Grows d') : d'.Holds t :=
  ⟨h.proper, hd.visible h.visible⟩

/-- The step gives a term that can be used. -/
abbrev Gives (x : Draw Term) (d : Draft) : Prop := Draws x d fun t d' => d'.Holds t

theorem visible_math (d : Draft) : d.Visible mathId := .inl (.inl rfl)

/-- Opcodes with a type and a result that may stand in a function. -/
def Opcode.isComputation (o : Opcode) : Bool := o.layout.type && o.layout.result && o.isCode

/-- Computations on ids only. -/
def Opcode.isOrdinary (o : Opcode) : Bool := o.layout = .ordinary && o.isCode

theorem draws_result {args : List Argument} (hshape : shape.Proper)
    (hopcode : opcode.isComputation = true)
    (hargs : Follows opcode.layout.rest opcode.layout.places args) (hshort : args.length ≤ 16)
    (huses : ∀ u, .id u ∈ args → d.Visible u) : Gives (result opcode shape args) d := by
  rw [Opcode.isComputation, Bool.and_eq_true, Bool.and_eq_true] at hopcode
  obtain ⟨⟨htyped, hresult⟩, hcode⟩ := hopcode
  rw [result]
  refine (draws_typeId hshape).bind fun type d1 h1 htype => ?_
  refine .emit
    (i := fun id => { opcode := opcode, type? := some type, result? := some id, arguments := args })
    rfl ⟨⟨htyped.symm, hresult.symm, hargs⟩, hshort⟩ hcode (forall_uses ?_ ?_) ?_
  · intro u hu
    rw [← Option.some.inj hu]
    exact visible_of_declared htype.2
  · intro u hu
    exact h1.visible (huses u hu)
  · intro d2 _ hid
    exact .pure ⟨hshape, hid⟩

theorem proper_withScalar (scalar : Scalar) (h : shape.Proper) :
    (withScalar shape scalar).Proper := h

theorem draws_ordinary (hshape : shape.Proper) (hopcode : opcode.isOrdinary = true)
    (hshort : args.length ≤ 16) (huses : ∀ u ∈ args, d.Visible u) :
    Gives (result opcode shape (ids args)) d := by
  rw [Opcode.isOrdinary, Bool.and_eq_true, decide_eq_true_eq] at hopcode
  obtain ⟨hlayout, hcode⟩ := hopcode
  apply draws_result hshape
  · rw [Opcode.isComputation, hlayout, hcode]
    rfl
  · rw [hlayout]
    exact follows_ids args
  · simpa [ids] using hshort
  · intro u hu
    exact huses u (mem_ids.1 hu)

theorem draws_mathResult {f : MathFunction} (hshape : shape.Proper) (hshort : args.length ≤ 14)
    (huses : ∀ u ∈ args, d.Visible u) : Gives (mathResult f shape args) d := by
  refine draws_result hshape rfl ?_ ?_ ?_
  · exact .id mathId (.number f.code (follows_ids args))
  · simp only [length_cons, ids, length_map]
    omega
  · intro u hu
    simp only [mem_cons, Argument.id.injEq, reduceCtorEq, mem_ids, false_or] at hu
    rcases hu with rfl | hu
    · exact visible_math d
    · exact huses u hu

theorem forall_one {P : Id → Prop} {x : Id} (h : P x) : ∀ u ∈ [x], P u := by
  intro u hu
  rw [mem_singleton.1 hu]
  exact h

theorem forall_two {P : Id → Prop} {x y : Id} (hx : P x) (hy : P y) : ∀ u ∈ [x, y], P u := by
  intro u hu
  rcases mem_cons.1 hu with rfl | hu
  · exact hx
  · exact forall_one hy u hu

/-! ## Widths and scalars -/

theorem draws_widen {count : Nat} (ht : d.Holds t) (hcount : count ≤ 4) : Gives (widen t count) d := by
  rw [widen]
  refine .ite (fun _ => .pure ht) fun hlt => ?_
  have hshape : (⟨t.shape.scalar, count⟩ : Shape).Proper :=
    ⟨Nat.zero_lt_of_lt (Nat.lt_of_not_le hlt), hcount⟩
  refine .ite (fun _ => ?_) fun _ => ?_
  · refine draws_ordinary hshape rfl (by simp; omega) fun u hu => ?_
    rw [(mem_replicate.1 hu).2]
    exact ht.visible
  · refine draws_result hshape rfl ?_ ?_ ?_
    · exact .id _ (.id _ (follows_plain _))
    · simp [ids, plain]
      omega
    · intro u hu
      have hu : u = t.id := by simpa [ids] using hu
      rw [hu]
      exact ht.visible

theorem draws_widenPair (ha : d.Holds a) (hb : d.Holds b) :
    Draws (widenPair a b) d fun r d' => d'.Holds r.1 ∧ d'.Holds r.2 := by
  have hcount : max a.shape.count b.shape.count ≤ 4 := Nat.max_le.2 ⟨ha.proper.2, hb.proper.2⟩
  rw [widenPair]
  refine (draws_widen ha hcount).bind fun wideA d1 h1 hA => ?_
  refine (draws_widen (hb.mono h1) hcount).bind fun wideB d2 h2 hB => ?_
  exact .pure ⟨hA.mono h2, hB⟩

theorem draws_bitcast (target : Scalar) (ht : d.Holds t) : Gives (bitcast t target) d := by
  rw [bitcast]
  exact .ite (fun _ => .pure ht) fun _ =>
    draws_ordinary (proper_withScalar target ht.proper) rfl (by simp) (forall_one ht.visible)

theorem isBits_constant : IsBits c.scalar c.lane := by
  intro hscalar
  cases c with
  | f32 bits | i32 bits | u32 bits => cases hscalar
  | bool value =>
    cases value with
    | false => exact .inl rfl
    | true => exact .inr rfl

theorem draws_constant : Gives (constant c) d :=
  (draws_constantId (isBits_constant c)).bind fun _ _ _ hid =>
    .pure ⟨Shape.proper_scalar _, visible_of_declared hid⟩

theorem draws_splatConstant (hshape : shape.Proper) : Gives (splatConstant c shape.count) d := by
  rw [splatConstant]
  refine (draws_constant c).bind fun t d1 _ ht => ?_
  refine .ite (fun _ => .pure ht) fun _ => ?_
  refine draws_ordinary (proper_withScalar c.scalar hshape) rfl ?_ fun u hu => ?_
  · have hcount := hshape.2
    rw [length_replicate]
    omega
  · rw [(mem_replicate.1 hu).2]
    exact ht.visible

theorem draws_extract (index : Nat) (ht : d.Holds t) : Gives (extract t index) d := by
  rw [extract]
  refine .ite (fun _ => .pure ht) fun _ => ?_
  refine draws_result (Shape.proper_scalar _) rfl ?_ (by simp) fun u hu => ?_
  · exact .id _ (follows_plain [index])
  · have hu : u = t.id := by simpa using hu
    rw [hu]
    exact ht.visible

theorem draws_shuffle {indices : List Nat} (ha : d.Holds a) (hb : d.Holds b)
    (hne : indices ≠ []) (hlength : indices.length ≤ 4) : Gives (shuffle a b indices) d := by
  have hmany : Gives (do
      let wideA ← widen a 2
      let wideB ← widen b 2
      let picks := indices.map fun i =>
        if i < a.shape.count then i else i - a.shape.count + wideA.shape.count
      result .vectorShuffle ⟨a.shape.scalar, indices.length⟩
        (ids [wideA.id, wideB.id] ++ plain picks)) d := by
    refine (draws_widen ha (by decide)).bind fun wideA d1 h1 hA => ?_
    refine (draws_widen (hb.mono h1) (by decide)).bind fun wideB d2 h2 hB => ?_
    refine draws_result ⟨length_pos_iff.2 hne, hlength⟩ rfl ?_ ?_ ?_
    · exact .id _ (.id _ (follows_plain _))
    · simp [ids, plain]
      omega
    · intro u hu
      have hu : u = wideA.id ∨ u = wideB.id := by simpa [ids] using hu
      rcases hu with rfl | rfl
      · exact h2.visible hA.visible
      · exact hB.visible
  unfold shuffle
  cases indices with
  | nil => exact absurd rfl hne
  | cons i rest =>
    cases rest with
    | nil => exact .ite (fun _ => draws_extract i ha) fun _ => draws_extract _ hb
    | cons => exact hmany

/-! ## Operators -/

theorem isOrdinary_integerOp {op : BinaryOp} {signed : Bool} {o : Opcode}
    (h : integerOp op signed = .inl o) : o.isOrdinary = true := by
  cases op <;> cases signed <;> cases h <;> rfl

theorem isOrdinary_floatOp {op : BinaryOp} {o : Opcode} (h : floatOp? op = some (.inl o)) :
    o.isOrdinary = true := by
  cases op <;> cases h <;> rfl

theorem isOrdinary_truthOp (op : BinaryOp) : (truthOp op).isOrdinary = true := by
  cases op <;> rfl

theorem isOrdinary_compareOpcode (scalar : Scalar) :
    (compareOpcode op scalar).isOrdinary = true := by
  cases op <;> cases scalar <;> rfl

theorem isOrdinary_convertOpcode (conversion : Conversion) (source target : Scalar) :
    (convertOpcode conversion source target).isOrdinary = true := by
  cases conversion <;> cases source <;> cases target <;> rfl

theorem draws_apply {op : Opcode ⊕ MathFunction} (hshape : shape.Proper)
    (hop : ∀ o, op = .inl o → o.isOrdinary = true) (hshort : args.length ≤ 14)
    (huses : ∀ u ∈ args, d.Visible u) : Gives (apply op shape args) d := by
  cases op with
  | inl o => exact draws_ordinary hshape (hop o rfl) (by omega) huses
  | inr f => exact draws_mathResult hshape hshort huses

theorem draws_binary (op : BinaryOp) (ha : d.Holds a) (hb : d.Holds b) :
    Gives (binary op a b) d := by
  rw [binary]
  refine (draws_widenPair ha hb).bind ?_
  rintro ⟨wideA, wideB⟩ d1 - ⟨hA, hB⟩
  have hids : ∀ u ∈ [wideA.id, wideB.id], d1.Visible u := forall_two hA.visible hB.visible
  dsimp only
  cases wideA.shape.scalar with
  | i32 | u32 => exact draws_apply hA.proper (fun o h => isOrdinary_integerOp h) (by simp) hids
  | bool => exact draws_ordinary hA.proper (isOrdinary_truthOp op) (by simp) hids
  | f32 =>
    cases hop : floatOp? op with
    | some o =>
      refine draws_apply hA.proper (fun o' h => ?_) (by simp) hids
      rw [h] at hop
      exact isOrdinary_floatOp hop
    | none =>
      -- the operation is done on the bits of both operands
      refine (draws_bitcast .u32 hA).bind fun x d2 h2 hx => ?_
      refine (draws_bitcast .u32 (hB.mono h2)).bind fun y d3 h3 hy => ?_
      refine (draws_apply hx.proper (fun o h => isOrdinary_integerOp h) (by simp)
        (forall_two (h3.visible hx.visible) hy.visible)).bind fun bits d4 _ hbits => ?_
      exact draws_bitcast .f32 hbits

theorem draws_unary (op : UnaryOp) (ha : d.Holds a) : Gives (unary op a) d := by
  have one (o : Opcode) (ho : o.isOrdinary = true) : Gives (result o a.shape (ids [a.id])) d :=
    draws_ordinary ha.proper ho (by simp) (forall_one ha.visible)
  have math (f : MathFunction) : Gives (mathResult f a.shape [a.id]) d :=
    draws_mathResult ha.proper (by simp) (forall_one ha.visible)
  unfold unary
  split
  case h_1 => exact one .fNegate rfl
  case h_2 | h_3 => exact one .sNegate rfl
  case h_4 => exact math .fAbs
  case h_5 => exact math .sAbs
  case h_6 => exact one .logicalNot rfl
  case h_7 | h_8 => exact one .not rfl
  case h_9 =>
    refine (draws_bitcast .u32 ha).bind fun bits d1 _ hbits => ?_
    refine (draws_ordinary hbits.proper rfl (by simp) (forall_one hbits.visible)).bind
      fun flipped d2 _ hflipped => ?_
    exact draws_bitcast .f32 hflipped
  all_goals exact .pure ha

theorem draws_select {c : Term} (hc : d.Holds c) (ha : d.Holds a) (hb : d.Holds b) :
    Gives (select c a b) d := by
  rw [select]
  refine (draws_widenPair ha hb).bind ?_
  rintro ⟨wideA, wideB⟩ d1 h1 ⟨hA, hB⟩
  dsimp only
  refine (draws_widen (hc.mono h1) hA.proper.2).bind fun condition d2 h2 hcondition => ?_
  refine draws_ordinary hA.proper rfl (by simp) fun u hu => ?_
  rcases mem_cons.1 hu with rfl | hu
  · exact hcondition.visible
  · exact forall_two (h2.visible hA.visible) (h2.visible hB.visible) u hu

theorem draws_ofTruth (scalar : Scalar) (ht : d.Holds t) : Gives (ofTruth t scalar) d := by
  rw [ofTruth]
  refine (draws_splatConstant _ ht.proper).bind fun one d1 h1 hone => ?_
  refine (draws_splatConstant _ ht.proper).bind fun zero d2 h2 hzero => ?_
  exact draws_select (ht.mono (h1.trans h2)) (hone.mono h2) hzero

theorem draws_comparePair (ha : d.Holds a) (hb : d.Holds b) : Gives (comparePair op a b) d := by
  rw [comparePair]
  exact draws_ordinary (proper_withScalar .bool ha.proper) (isOrdinary_compareOpcode op _) (by simp)
    (forall_two ha.visible hb.visible)

theorem draws_asNumber (ht : d.Holds t) : Gives (asNumber t) d := by
  have one (o : Opcode) (ho : o.isOrdinary = true) :
      Gives (result o (withScalar t.shape .u32) (ids [t.id])) d :=
    draws_ordinary (proper_withScalar .u32 ht.proper) ho (by simp) (forall_one ht.visible)
  rw [asNumber]
  split
  case h_1 => exact draws_ofTruth .u32 ht
  case h_2 => exact .pure ht
  case h_3 => exact one .convertFToU rfl
  case h_4 => exact one .bitcast rfl

theorem draws_compare (ha : d.Holds a) (hb : d.Holds b) : Gives (compare op a b) d := by
  rw [compare]
  refine (draws_widenPair ha hb).bind ?_
  rintro ⟨wideA, wideB⟩ d1 - ⟨hA, hB⟩
  dsimp only
  refine .ite (fun _ => ?_) fun _ => draws_comparePair op hA hB
  -- truth values are ordered as numbers
  refine (draws_asNumber hA).bind fun x d2 h2 hx => ?_
  refine (draws_asNumber (hB.mono h2)).bind fun y d3 h3 hy => ?_
  exact draws_comparePair op (hx.mono h3) hy

theorem draws_convert {conversion : Conversion} (target : Scalar) (ht : d.Holds t) :
    Gives (convert conversion t target) d := by
  rw [convert]
  refine .ite (fun _ => .pure ht) fun _ => .ite (fun _ => draws_ofTruth target ht) fun _ => ?_
  refine .ite (fun _ => ?_) fun _ => ?_
  · refine (draws_splatConstant _ ht.proper).bind fun zero d1 h1 hzero => ?_
    exact draws_compare .ne (ht.mono h1) hzero
  · exact draws_ordinary (proper_withScalar target ht.proper) (isOrdinary_convertOpcode ..) (by simp)
      (forall_one ht.visible)

/-! ## Builtin functions -/

theorem Draws.of_run {x : Draw α} {a : α} {f : α → Draw β} {R : β → Draft → Prop}
    (hx : x.run d = (a, d)) (h : Draws (f a) d R) : Draws (x >>= f) d R := by
  rw [Draws, StateT.run_bind, hx]
  exact h

theorem draws_widenAll {count : Nat} (hcount : count ≤ 4) (args : List Term)
    (hargs : ∀ a ∈ args, d.Holds a) : Draws (args.mapM (widen · count)) d fun wide d' =>
      wide.length = args.length ∧ ∀ t ∈ wide, d'.Holds t := by
  induction args generalizing d with
  | nil => exact .pure ⟨rfl, fun _ h => nomatch h⟩
  | cons a rest ih =>
    rw [mapM_cons]
    refine (draws_widen (hargs a mem_cons_self) hcount).bind fun t d1 h1 ht => ?_
    refine (ih fun b hb => (hargs b (.tail _ hb)).mono h1).bind fun wide d2 h2 hwide => ?_
    refine .pure ⟨congrArg Nat.succ hwide.1, forall_mem_cons.2 ⟨ht.mono h2, hwide.2⟩⟩

theorem draws_builtin {f : Builtin} {args : List Term} (hargs : ∀ a ∈ args, d.Holds a)
    (hlength : args.length = f.arity) : Gives (builtin f args) d := by
  have hcount : ((args.map fun a => a.shape.count).max?).getD 1 ≤ 4 := by
    cases hmax : (args.map fun a => a.shape.count).max? with
    | none => decide
    | some n =>
      obtain ⟨a, ha, rfl⟩ := mem_map.1 (max?_mem hmax)
      exact (hargs a ha).proper.2
  rw [builtin]
  refine (draws_widenAll hcount args hargs).bind fun wide d1 _ hwide => ?_
  rw [hlength] at hwide
  obtain ⟨hlength, hwide⟩ := hwide
  have hvisible : ∀ u ∈ wide.map Term.id, d1.Visible u := by
    intro u hu
    obtain ⟨t, ht, rfl⟩ := mem_map.1 hu
    exact (hwide t ht).visible
  have hshort : (wide.map Term.id).length ≤ 14 := by
    rw [length_map, hlength]
    cases f <;> decide
  obtain ⟨first, rest, rfl⟩ : ∃ first rest, wide = first :: rest := by
    refine exists_cons_of_length_pos ?_
    rw [hlength]
    cases f <;> decide
  have hfirst := hwide first mem_cons_self
  cases f with
  | dfdx | dfdy => exact draws_ordinary hfirst.proper rfl (by simp) (forall_one hfirst.visible)
  | dot =>
    obtain ⟨second, rfl⟩ : ∃ second, rest = [second] := length_eq_one_iff.1 (Nat.succ.inj hlength)
    refine draws_ordinary (Shape.proper_scalar .f32) ?_ (by simp) hvisible
    split <;> rfl
  | clamp =>
    simp only [getD_cons_zero]
    cases first.shape.scalar <;> exact draws_mathResult hfirst.proper hshort hvisible
  | _ => exact draws_mathResult hfirst.proper hshort hvisible

/-! ## Places -/

/-- The term of a value. -/
def Draft.termOf (d : Draft) (v : Value) : Term := d.terms.getD v.index default

/-- The draft has the terms, the variables and the functions of a listing; terms of values that are
in scope can be used. -/
structure Draft.Matches (d : Draft) (l : Listing) : Prop where
  size : d.terms.size = l.shapes.size
  terms : ∀ {v shape}, l.Has v shape → d.Holds (d.termOf v)
  vars : d.vars.map Prod.snd = l.vars
  functions : d.functionIds.size = l.functions.size

variable {l : Listing}

theorem Draft.Grows.termOf (h : d.Grows d') (v : Value) : d'.termOf v = d.termOf v := by
  rw [Draft.termOf, h.terms, Draft.termOf]

theorem Draft.Matches.mono (h : d.Matches l) (hd : d.Grows d') : d'.Matches l where
  size := by rw [hd.terms, h.size]
  terms hv := by
    rw [hd.termOf]
    exact (h.terms hv).mono hd
  vars := by rw [hd.vars, h.vars]
  functions := by rw [hd.functionIds, h.functions]

/-- A declared variable has an id that can be used everywhere. -/
theorem Draft.Matches.variable (h : d.Matches l) (hd : d.Sound) {place : Place}
    (hplace : l.Declares place) :
    d.Outer (d.vars.getD place.variableIndex default).1 ∧
      (d.vars.getD place.variableIndex default).2 = l.variableAt place := by
  have hsize : place.variableIndex < d.vars.size := by
    have hsizes := congrArg Array.size h.vars
    rw [Array.size_map] at hsizes
    rw [hsizes]
    exact hplace
  have hget : d.vars.getD place.variableIndex default = d.vars[place.variableIndex] := by
    simp [Array.getD, hsize]
  constructor
  · refine hd.handles _ (mem_handles.2 (.inr (.inr (.inl ⟨d.vars[place.variableIndex].2, ?_⟩))))
    rw [hget]
    exact Array.getElem_mem_toList hsize
  · rw [hget, Listing.variableAt, ← h.vars]
    simp [Array.getD, hsize]

theorem draws_pointer {place : Place} (hd : d.Matches l) (hl : l.Proper)
    (hplace : l.Declares place) : Draws (pointer place) d fun id d' => d'.Visible id := by
  refine .sound fun hsound => .get ?_
  obtain ⟨houter, hvariable⟩ := hd.variable hsound hplace
  generalize d.vars.getD place.variableIndex default = entry at houter hvariable
  obtain ⟨base, v⟩ := entry
  have hshape : v.shape.Proper := by
    show (base, v).2.shape.Proper
    rw [hvariable]
    exact (hl.vars place hplace).shape
  refine .ite (fun _ => .pure (.inl houter)) fun _ => ?_
  refine (draws_indexId 0).bind fun origin d1 h1 horigin => ?_
  refine (draws_indexId _).bind fun element d2 h2 helement => ?_
  refine (draws_typeId hshape).bind fun pointee d3 h3 hpointee => ?_
  refine (draws_pointerType _ hpointee.2).bind fun type d4 h4 htype => ?_
  have hgrows := h1.trans (h2.trans (h3.trans h4))
  refine .emit
    (i := fun id => { opcode := .accessChain, type? := some type, result? := some id,
                      arguments := ids [base, origin, element] })
    rfl ⟨⟨rfl, rfl, follows_ids _⟩, Nat.le_of_ble_eq_true rfl⟩ rfl (forall_uses ?_ ?_) ?_
  · intro u hu
    rw [← Option.some.inj hu]
    exact visible_of_declared htype.2
  · intro u hu
    have hu : u = base ∨ u = origin ∨ u = element := by simpa using hu
    rcases hu with rfl | rfl | rfl
    · exact .inl (hgrows.outer _ houter)
    · exact visible_of_declared (h4.globals _ (h3.globals _ (h2.globals _ horigin)))
    · exact visible_of_declared (h4.globals _ (h3.globals _ helement))
  · intro d5 _ hid
    exact .pure hid

theorem draws_wordPointer (space : MemorySpace) (ht : d.Holds t) :
    Draws (wordPointer space t) d fun id d' => d'.Visible id := by
  have hword := Shape.proper_scalar .u32
  rw [wordPointer]
  refine (draws_buffer space).bind fun base d1 h1 hbase => ?_
  refine (draws_bitcast .u32 (ht.mono h1)).bind fun offset d2 h2 hoffset => ?_
  refine (draws_indexId 2).bind fun two d3 h3 htwo => ?_
  refine (draws_ordinary hword rfl (by simp) (forall_two (h3.visible hoffset.visible)
    (visible_of_declared htwo))).bind fun word d4 h4 hword' => ?_
  refine (draws_typeId hword).bind fun pointee d5 h5 hpointee => ?_
  refine (draws_pointerType _ hpointee.2).bind fun type d6 h6 htype => ?_
  refine (draws_indexId 0).bind fun origin d7 h7 horigin => ?_
  have hgrows := h2.trans (h3.trans (h4.trans (h5.trans (h6.trans h7))))
  refine .emit
    (i := fun id => { opcode := .accessChain, type? := some type, result? := some id,
                      arguments := ids [base, origin, word.id] })
    rfl ⟨⟨rfl, rfl, follows_ids _⟩, Nat.le_of_ble_eq_true rfl⟩ rfl (forall_uses ?_ ?_) ?_
  · intro u hu
    rw [← Option.some.inj hu]
    exact visible_of_declared (h7.globals _ htype.2)
  · intro u hu
    have hu : u = base ∨ u = origin ∨ u = word.id := by simpa using hu
    rcases hu with rfl | rfl | rfl
    · exact .inl (hgrows.outer _ hbase)
    · exact visible_of_declared horigin
    · exact (h5.trans (h6.trans h7)).visible hword'.visible
  · intro d8 _ hid
    exact .pure hid

/-! ## Operations of a listing -/

theorem Draws.term {v : Value} {f : Term → Draw β} {R : β → Draft → Prop}
    (h : Draws (f (d.termOf v)) d R) : Draws (Spirv.term v >>= f) d R := h

theorem run_mapM_term (values : List Value) (d : Draft) :
    (values.mapM term).run d = (values.map d.termOf, d) := run_mapM_of_run fun _ _ => rfl

theorem draws_callHelper {h : Helper} (hshape : h.shape.Proper) {v : Value} (hd : d.Matches l)
    (hv : l.Has v shape) : Gives (do
      let function ← helper h
      result .functionCall h.shape (ids [function, (← term v).id])) d := by
  refine (draws_helper h).bind fun function d1 h1 hfunction => .term ?_
  exact draws_ordinary hshape rfl (by simp)
    (forall_two (.inl hfunction) ((hd.mono h1).terms hv).visible)

theorem length_le_sum {values : List Value} {counts : List Nat} {R : Value → Nat → Prop}
    (h : List.Forall₂ R values counts) (hR : ∀ v n, R v n → 0 < n) :
    values.length ≤ counts.sum := by
  induction h with
  | nil => exact Nat.le_refl _
  | @cons v n _ _ hv _ ih =>
    have hpos := hR v n hv
    rw [length_cons, sum_cons]
    omega

/-- A well-typed operation gives a term. -/
theorem draws_define {op : Op} (hd : d.Matches l) (hl : l.Proper) (h : l.Typed op shape) :
    Gives (define shape op) d := by
  have hshape := h.proper hl
  cases h with
  | constant c => exact draws_constant c
  | construct parts_have nonempty width =>
    refine .of_run (run_mapM_term ..) (draws_ordinary hshape rfl ?_ ?_)
    · have hlength := length_le_sum parts_have fun v n hv => (hl.has hv).1
      simp only [length_map]
      omega
    · intro u hu
      simp only [map_map, mem_map, Function.comp_apply] at hu
      obtain ⟨v, hv, rfl⟩ := hu
      obtain ⟨n, hn⟩ := Listing.exists_of_forall₂ parts_have hv
      exact (hd.terms hn).visible
  | load valid =>
    refine (draws_pointer hd hl valid.declared).bind fun p d1 _ hp => ?_
    refine draws_result hshape rfl (.id _ (follows_plain [])) (by simp [ids]) fun u hu => ?_
    rw [mem_singleton.1 (mem_ids.1 hu)]
    exact hp
  | extract has inside => exact .term (draws_extract _ (hd.terms has))
  | @insert v part scalar n i has part_has inside =>
    refine .term (.term ?_)
    have hv := hd.terms has
    have hpart := hd.terms part_has
    refine draws_result hv.proper rfl (.id _ (.id _ (follows_plain [i]))) (by simp) fun u hu => ?_
    have hu : u = (d.termOf part).id ∨ u = (d.termOf v).id := by simpa using hu
    rcases hu with rfl | rfl
    · exact hpart.visible
    · exact hv.visible
  | shuffle a_has b_has nonempty width inside =>
    exact .term (.term (draws_shuffle (hd.terms a_has) (hd.terms b_has) nonempty width))
  | binary a_has b_has widths =>
    exact .term (.term (draws_binary _ (hd.terms a_has) (hd.terms b_has)))
  | unary has => exact .term (draws_unary _ (hd.terms has))
  | compare a_has b_has widths =>
    exact .term (.term (draws_compare _ (hd.terms a_has) (hd.terms b_has)))
  | select c_has a_has b_has widths condition =>
    exact .term (.term (.term (draws_select (hd.terms c_has) (hd.terms a_has) (hd.terms b_has))))
  | @dot a b n a_has b_has =>
    refine .of_run (run_mapM_term ..) (draws_builtin (f := .dot) (fun t ht => ?_) rfl)
    simp only [map_cons, map_nil, mem_cons, not_mem_nil, or_false] at ht
    rcases ht with rfl | rfl
    · exact hd.terms a_has
    · exact hd.terms b_has
  | @builtin f args n notDot arity args_have =>
    refine .of_run (run_mapM_term ..) (draws_builtin (fun t ht => ?_) (by rw [length_map, arity]))
    obtain ⟨v, hv, rfl⟩ := mem_map.1 ht
    exact hd.terms (args_have v hv)
  | convert has source_number target_number => exact .term (draws_convert _ (hd.terms has))
  | @unpack format _ has => exact draws_callHelper (h := .unpack format) hshape hd has
  | @pack format _ has => exact draws_callHelper (h := .pack format) hshape hd has
  | fetch has integer =>
    refine .term ((draws_wordPointer _ (hd.terms has)).bind fun p d1 _ hp => ?_)
    have hload : Gives (result .load Shape.u32 (ids [p])) d1 := by
      refine draws_result (Shape.proper_scalar .u32) rfl (.id _ (follows_plain [])) (by simp [ids])
        fun u hu => ?_
      rw [mem_singleton.1 (mem_ids.1 hu)]
      exact hp
    exact hload.bind fun word d2 _ hword => draws_bitcast .f32 hword

end Spirv
end Microcode
