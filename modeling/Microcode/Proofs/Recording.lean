import Mathlib.Data.List.Basic
import Microcode.Proofs.Execution

/-!
Finished programs run what was emitted.

A program is made from a whole listing, and the code between two moments of the listing is a run of
instructions of the function that is open there.  Executing these instructions on a machine that
runs the finished program has the effect that `Steps` gives to the entries, and the rest of the
program, which the machine also has room for, does not matter.
-/

namespace Microcode

open List Machine.Program Machine.State
namespace Machine

/-- The instructions by which the function that is open in `before` has grown in `after`. -/
def Program.since (before after : Program) : List Instr :=
  (after.functions.getD before.current #[]).toList.drop
    (before.functions.getD before.current #[]).size

/-- Runs the code emitted between two listings on a machine of the program `p`. -/
def State.runSince (p : Program) (before after : Listing) (s : State) : State :=
  ((ofListing before).since (ofListing after)).foldl (step p fun _ s => s) s

/-- A state of a machine that was made for the program: it has room for all values and variables,
and the constants have their values. -/
structure State.Loaded (p : Program) (s : State) : Prop where
  values : s.values.size = p.shapes.size
  vars : s.vars.size = p.vars.size
  elements : ∀ i, i < p.vars.size → (s.vars.getD i #[]).size = (p.vars.getD i default).length
  constants : ∀ c ∈ p.constants, s.lanes c.1 = single c.2

/-- The later program keeps the values, the constants and the variables of the earlier one. -/
structure Program.Within (p q : Program) : Prop where
  shapes : ∀ i, i < p.shapes.size → q.shapes.getD i Shape.f32 = p.shapes.getD i Shape.f32
  shapes_size : p.shapes.size ≤ q.shapes.size
  constants : ∀ c ∈ p.constants, c ∈ q.constants
  constants_old : ∀ c ∈ q.constants, c.1.index < p.shapes.size → c ∈ p.constants
  vars : ∀ i, i < p.vars.size → q.vars.getD i default = p.vars.getD i default
  vars_size : p.vars.size ≤ q.vars.size

namespace Program

theorem Within.refl (p : Program) : p.Within p :=
  ⟨fun _ _ => rfl, Nat.le_refl _, fun _ h => h, fun _ h _ => h, fun _ _ => rfl, Nat.le_refl _⟩

theorem Within.trans {p q r : Program} (h : p.Within q) (h' : q.Within r) : p.Within r where
  shapes i hi := (h'.shapes i (Nat.lt_of_lt_of_le hi h.shapes_size)).trans (h.shapes i hi)
  shapes_size := Nat.le_trans h.shapes_size h'.shapes_size
  constants c hc := h'.constants c (h.constants c hc)
  constants_old c hc hi :=
    h.constants_old c (h'.constants_old c hc (Nat.lt_of_lt_of_le hi h.shapes_size)) hi
  vars i hi := (h'.vars i (Nat.lt_of_lt_of_le hi h.vars_size)).trans (h.vars i hi)
  vars_size := Nat.le_trans h.vars_size h'.vars_size

/-- Adding an entry keeps what there is. -/
theorem within_add (p : Program) (e : Entry) : p.Within (p.add e) := by
  have same (q : Program) (hs : q.shapes = p.shapes) (hc : q.constants = p.constants)
      (hv : q.vars = p.vars) : p.Within q := by
    refine ⟨fun i _ => by rw [hs], Nat.le_of_eq (by rw [hs]), fun c h => hc ▸ h,
      fun c h _ => hc ▸ h, fun i _ => by rw [hv], Nat.le_of_eq (by rw [hv])⟩
  have defined (q : Program) (shape : Shape) (hs : q.shapes = p.shapes.push shape)
      (hc : ∀ c ∈ p.constants, c ∈ q.constants)
      (ho : ∀ c ∈ q.constants, c.1.index < p.shapes.size → c ∈ p.constants)
      (hv : q.vars = p.vars) : p.Within q := by
    refine ⟨fun i hi => by rw [hs, getD_push_of_lt _ _ _ hi], by rw [hs]; simp, hc, ho,
      fun i _ => by rw [hv], Nat.le_of_eq (by rw [hv])⟩
  cases e with
  | define shape op =>
    cases op with
    | constant c =>
      refine defined _ shape rfl (fun c h => Array.mem_push_of_mem _ h) (fun c h hi => ?_) rfl
      rcases Array.mem_push.1 h with h | rfl
      · exact h
      · exact absurd hi (Nat.lt_irrefl _)
    | _ => exact defined _ shape rfl (fun c h => h) (fun c h _ => h) rfl
  | declare v =>
    exact ⟨fun _ _ => rfl, Nat.le_refl _, fun _ h => h, fun _ h _ => h,
      fun i hi => getD_push_of_lt _ _ _ hi, by simp [add]⟩
  | _ => exact same _ rfl rfl rfl

theorem within_foldl_add (p : Program) (entries : List Entry) :
    p.Within (entries.foldl add p) := by
  induction entries generalizing p with
  | nil => exact .refl p
  | cons e rest ih => exact (p.within_add e).trans (ih (p.add e))

/-- A listing that starts with another one makes a program that keeps the other's. -/
theorem within_ofListing {l l' : Listing} (h : l.entries.toList <+: l'.entries.toList) :
    (ofListing l).Within (ofListing l') := by
  obtain ⟨rest, hrest⟩ := h
  rw [ofListing, ofListing, ← Array.foldl_toList, ← Array.foldl_toList, ← hrest,
    foldl_append]
  exact within_foldl_add _ rest

/-- The open function is one of the functions there are, and constants are values in the order of
their definitions. -/
structure Sound (p : Program) : Prop where
  current : p.current < p.functions.size
  constants : ∀ c ∈ p.constants, c.1.index < p.shapes.size
  ordered : p.constants.toList.Pairwise fun c d => c.1.index < d.1.index

theorem Sound.add {p : Program} (h : p.Sound) (e : Entry) : (p.add e).Sound := by
  have hlater : ∀ c ∈ p.constants, c.1.index < p.shapes.size + 1 :=
    fun c hc => Nat.lt_succ_of_lt (h.constants c hc)
  cases e with
  | define shape op =>
    cases op with
    | constant c =>
      refine ⟨h.current, fun c hc => ?_, ?_⟩
      · simp only [Program.add, Array.size_push] at hc ⊢
        rcases Array.mem_push.1 hc with hc | rfl
        · exact hlater c hc
        · exact Nat.lt_succ_self _
      · simp only [Program.add, Array.toList_push, pairwise_append, mem_singleton]
        refine ⟨h.ordered, pairwise_singleton _ _, fun c hc d hd => ?_⟩
        exact hd ▸ h.constants c (Array.mem_toList_iff.1 hc)
    | _ =>
      exact ⟨by simpa [Program.add, emit] using h.current,
        by simpa [Program.add, emit] using hlater, h.ordered⟩
  | beginFunction name => exact ⟨by simp [Program.add], h.constants, h.ordered⟩
  | endFunction | beginEntry => exact ⟨Nat.zero_lt_of_lt h.current, h.constants, h.ordered⟩
  | _ => exact ⟨by simpa [Program.add, emit] using h.current, h.constants, h.ordered⟩

theorem sound_ofListing (l : Listing) : (ofListing l).Sound := by
  have general : ∀ (entries : List Entry) (p : Program), p.Sound → (entries.foldl add p).Sound := by
    intro entries
    induction entries with
    | nil => intro p h; exact h
    | cons e rest ih => intro p h; exact ih (p.add e) (h.add e)
  rw [ofListing, ← Array.foldl_toList]
  exact general _ _ ⟨by decide, by simp, by simp⟩

end Program
end Machine

/-- A listing whose values and variables are those of its entries. -/
structure Listing.Consistent (l : Listing) : Prop where
  shapes : (Machine.Program.ofListing l).shapes = l.shapes
  vars : (Machine.Program.ofListing l).vars = l.vars

theorem Machine.Program.ofListing_push {l l' : Listing} {e : Entry}
    (h : l'.entries = l.entries.push e) : ofListing l' = (ofListing l).add e := by
  rw [ofListing, ofListing, h, Array.foldl_push]

theorem Listing.Consistent.add {l : Listing} (h : l.Consistent) (e : Entry) :
    (l.add e).Consistent := by
  constructor <;> rw [Machine.Program.ofListing_push (l.entries_add e)]
  · cases e with
    | define shape op =>
      cases op <;> simp [Machine.Program.add, Machine.Program.emit, Listing.add, Listing.push, h.shapes]
    | _ => exact h.shapes
  · cases e with
    | declare x => simp [Machine.Program.add, Listing.add, Listing.push, h.vars]
    | define shape op => cases op <;> exact h.vars
    | _ => exact h.vars

namespace Machine

theorem Step.within {start : Nat → Nat → Lanes} {l l' : Listing} {s s' : State}
    (h : Step start l s l' s') : (ofListing l).Within (ofListing l') := by
  obtain ⟨e, rfl⟩ := h.eq_add
  rw [ofListing_push (l.entries_add e)]
  exact within_add _ _

/-- Evaluation depends on the values and the place that the operation reads, and on memory. -/
theorem State.eval_congr {p q : Program} {s t : State} {op : Op} (shape : Shape)
    (hv : ∀ v ∈ op.values, p.shapeOf v = q.shapeOf v ∧ s.lanes v = t.lanes v)
    (hp : ∀ place ∈ op.place?, s.read place = t.read place) (hm : s.memory = t.memory) :
    s.eval p shape op = t.eval q shape op := by
  have hlane : ∀ v ∈ op.values, ∀ i, s.lane p v i = t.lane q v i := by
    intro v h i
    rw [lane, lane, countOf, countOf, (hv v h).1, (hv v h).2]
  have hcount : ∀ v ∈ op.values, p.countOf v = q.countOf v := by
    intro v h
    simp only [countOf, (hv v h).1]
  cases op with
  | constant c => rfl
  | load place => exact hp place rfl
  | construct parts =>
    have joined : (parts.flatMap fun v => (List.range (p.countOf v)).map (s.lane p v)) =
        parts.flatMap fun v => (List.range (q.countOf v)).map (t.lane q v) := by
      refine flatMap_congr fun v h => ?_
      rw [hcount v h, funext (hlane v h)]
    simp only [eval, joined]
  | extract v index => simp only [eval, hlane v (by simp [Op.values])]
  | insert v part index =>
    simp only [eval, hlane part (by simp [Op.values]), (hv v (by simp [Op.values])).2]
  | shuffle a b indices =>
    simp only [eval, hlane a (by simp [Op.values]), hlane b (by simp [Op.values]),
      hcount a (by simp [Op.values])]
  | binary op a b | compare op a b =>
    simp only [eval, hlane a (by simp [Op.values]), hlane b (by simp [Op.values]),
      (hv a (by simp [Op.values])).1]
  | unary op a => simp only [eval, hlane a (by simp [Op.values]), (hv a (by simp [Op.values])).1]
  | select c a b =>
    simp only [eval, hlane c (by simp [Op.values]), hlane a (by simp [Op.values]),
      hlane b (by simp [Op.values])]
  | builtin f args =>
    have lanes (h : ∀ v ∈ args, ∀ i, s.lane p v i = t.lane q v i) (i : Nat) :
        (args.map fun v => s.lane p v i) = args.map fun v => t.lane q v i :=
      map_congr_left fun v hv => h v hv i
    cases f with
    | dot =>
      simp only [eval, hlane (args.getD 0 default) (by simp [Op.values]),
        hlane (args.getD 1 default) (by simp [Op.values]),
        hcount (args.getD 0 default) (by simp [Op.values])]
    | _ => simp only [eval, lanes hlane]
  | convert conversion v scalar =>
    simp only [eval, hlane v (by simp [Op.values]), (hv v (by simp [Op.values])).1]
  | helper h v =>
    cases h <;> simp only [eval, hlane v (by simp [Op.values])]
  | fetch space offset => simp only [eval, hlane offset (by simp [Op.values]), hm]

/-- A machine state that has the values, variables and memory of a growing listing's state.  The
variables that are still to be declared hold what `start` says. -/
structure State.Shows (start : Nat → Nat → Lanes) (l : Listing) (S s : State) : Prop where
  values : ∀ v, l.Defines v → S.lanes v = s.lanes v
  vars : ∀ i, i < l.vars.size → S.vars.getD i #[] = s.vars.getD i #[]
  memory : S.memory = s.memory
  later : ∀ i j, l.vars.size ≤ i → j < (S.vars.getD i #[]).size →
    (S.vars.getD i #[]).getD j (.replicate 0#32) = start i j

/-- The code by which an open function grows. -/
structure Program.Grows (p q : Program) (code : List Instr) : Prop where
  current : q.current = p.current
  function : (q.functions.getD p.current #[]).toList =
    (p.functions.getD p.current #[]).toList ++ code

namespace Program.Grows

theorem refl (p : Program) : p.Grows p [] := ⟨rfl, by simp⟩

theorem trans {p q r : Program} {code code' : List Instr} (h : p.Grows q code)
    (h' : q.Grows r code') : p.Grows r (code ++ code') where
  current := h'.current.trans h.current
  function := by
    have := h'.function
    rw [h.current, h.function] at this
    rw [this, append_assoc]

theorem since_eq {p q : Program} {code : List Instr} (h : p.Grows q code) :
    p.since q = code := by
  rw [since, h.function]
  simp

theorem emit {p q : Program} (h : p.current < p.functions.size) (i : Instr)
    (hc : q.current = p.current) (hq : q.functions = (p.emit i).functions) : p.Grows q [i] where
  current := hc
  function := by
    rw [hq]
    simp [Program.emit, Array.getD_eq_getD_getElem?, Array.getElem_modify, h]

end Program.Grows

variable {start : Nat → Nat → Lanes} {l l' : Listing} {s s' S : State} {p : Program}

theorem shapeOf_of_within (hp : (ofListing l).Within p) (hl : l.Consistent) {v : Value}
    (hv : l.Defines v) : p.shapeOf v = l.shapeOf v := by
  have := hp.shapes v.index (by rw [hl.shapes]; exact hv)
  rw [hl.shapes] at this
  exact this

theorem variableAt_of_within (hp : (ofListing l).Within p) (hl : l.Consistent) {i : Nat}
    (hi : i < l.vars.size) : p.vars.getD i default = l.vars.getD i default := by
  have := hp.vars i (by rw [hl.vars]; exact hi)
  rw [hl.vars] at this
  exact this

theorem Program.add_define (p : Program) (shape : Shape) {op : Op} (h : ∀ c, op ≠ .constant c) :
    p.add (.define shape op) =
      { p.emit (.define ⟨p.shapes.size⟩ shape op) with shapes := p.shapes.push shape } := by
  cases op with
  | constant c => exact absurd rfl (h c)
  | _ => rfl

namespace State.Shows

theorem read (h : S.Shows start l s) {place : Place} (hp : l.Declares place) :
    S.read place = s.read place := by
  rw [State.read, State.read, h.vars _ hp]

theorem write (h : S.Shows start l s) {place : Place} (hp : l.Declares place) (lanes : Lanes)
    (hs : s.Fits l) (hS : S.Loaded p) (hn : l.vars.size ≤ p.vars.size) :
    (S.write place lanes).Shows start l (s.write place lanes) where
  values := h.values
  vars i hi := by
    have hi' : i < s.vars.size := hs.vars ▸ hi
    have hI : i < S.vars.size := by rw [hS.vars]; omega
    have hv := h.vars i hi
    simp only [Array.getD_eq_getD_getElem?, Array.getElem?_eq_getElem hi',
      Array.getElem?_eq_getElem hI, Option.getD_some] at hv
    simp only [State.write, Array.getD_eq_getD_getElem?, Array.getElem?_modify,
      Array.getElem?_eq_getElem hi', Array.getElem?_eq_getElem hI, hv]
  memory := h.memory
  later i j hi hj := by
    have hne : place.variableIndex ≠ i := Nat.ne_of_lt (Nat.lt_of_lt_of_le hp hi)
    have same : (S.write place lanes).vars.getD i #[] = S.vars.getD i #[] := by
      simp only [State.write, Array.getD_eq_getD_getElem?, Array.getElem?_modify, if_neg hne]
    rw [same] at hj ⊢
    exact h.later i j hi hj

end State.Shows

theorem State.Loaded.write (hS : S.Loaded p) (place : Place) (lanes : Lanes) :
    (S.write place lanes).Loaded p :=
  ⟨hS.values, by simp [State.write, hS.vars], fun i hi => (S.size_write place lanes i).trans
    (hS.elements i hi), hS.constants⟩

/-- What one entry does to the recording: the open function grows by some code, and running that
code on a machine state shows the effect of the entry. -/
structure Follows (start : Nat → Nat → Lanes) (p : Program) (l : Listing) (S : State)
    (l' : Listing) (s' : State) (code : List Instr) : Prop where
  grows : (ofListing l).Grows (ofListing l') code
  loaded : (code.foldl (step p fun _ s => s) S).Loaded p
  shows : (code.foldl (step p fun _ s => s) S).Shows start l' s'

theorem defines_define {op : Op} {v : Value} (h : (l.define op).2.Defines v) :
    v = ⟨l.shapes.size⟩ ∨ l.Defines v := by
  simp only [Listing.Defines, Listing.define, Array.size_push] at h ⊢
  exact (Nat.lt_succ_iff_lt_or_eq.1 h).symm.imp_left (congrArg Value.mk)

theorem Step.follows_define {op : Op} (inScope : l.Scoped op) (hl : l.Consistent) (hs : s.Fits l)
    (hS : S.Loaded p) (hp : (ofListing (l.define op).2).Within p)
    (hshow : S.Shows start l s) :
    ∃ code, Follows start p l S (l.define op).2
      { s with values := s.values.push (s.eval (.ofShapes l.shapes) (l.opShape op) op) } code := by
  have hpush : ofListing (l.define op).2 =
      (ofListing l).add (.define (l.opShape op) op) := ofListing_push rfl
  have step : Step start l s _ _ := .define op inScope
  -- It is enough to show the new value.
  have shows {T : State} (hvars : T.vars = S.vars) (hmemory : T.memory = S.memory)
      (hnew : T.lanes ⟨l.shapes.size⟩ = s.eval (.ofShapes l.shapes) (l.opShape op) op)
      (hold : ∀ v, l.Defines v → T.lanes v = S.lanes v) : T.Shows start (l.define op).2
        { s with values := s.values.push (s.eval (.ofShapes l.shapes) (l.opShape op) op) } := by
    refine ⟨fun v hv => ?_, hvars ▸ hshow.vars, hmemory.trans hshow.memory, hvars ▸ hshow.later⟩
    rcases defines_define hv with rfl | hv
    · rw [hnew, State.lanes, ← hs.values, getD_push_size]
    · rw [hold v hv, hshow.values v hv, step.lanes_eq hs hv]
  by_cases hop : ∃ c, op = .constant c
  · obtain ⟨c, rfl⟩ := hop
    refine ⟨[], ⟨by rw [hpush]; rfl, by rw [hpush]; simp [add]⟩, hS,
      shows rfl rfl (hS.constants _ (hp.constants (⟨l.shapes.size⟩, c.lane) ?_)) fun _ _ => rfl⟩
    rw [hpush]
    simp [add, hl.shapes]
  · have hadd := add_define (ofListing l) (l.opShape op) fun c h => hop ⟨c, h⟩
    rw [hl.shapes] at hadd
    have hin : l.shapes.size < S.values.size := by
      have hsize := hp.shapes_size
      rw [hpush, hadd, ← hS.values, Array.size_push] at hsize
      exact hsize
    have heval : S.eval p (l.opShape op) op = s.eval (.ofShapes l.shapes) (l.opShape op) op := by
      have hp' := step.within.trans hp
      exact State.eval_congr _
        (fun v hv => ⟨shapeOf_of_within hp' hl (inScope.1 v hv), hshow.values v (inScope.1 v hv)⟩)
        (fun place hplace => hshow.read (inScope.2 place hplace)) hshow.memory
    have hset {v : Value} (hne : l.shapes.size ≠ v.index) :
        (S.step p (fun _ s => s) (.define ⟨l.shapes.size⟩ (l.opShape op) op)).lanes v = S.lanes v := by
      simp [State.step, State.lanes, Array.getD_eq_getD_getElem?, Array.getElem?_setIfInBounds_ne hne]
    refine ⟨[.define ⟨l.shapes.size⟩ (l.opShape op) op], .emit (sound_ofListing l).current _
      (by rw [hpush, hadd]; rfl) (by rw [hpush, hadd]), ?_,
      shows rfl rfl ?_ fun v hv => hset (Nat.ne_of_gt hv)⟩
    · refine ⟨by simpa [State.step] using hS.values, hS.vars, hS.elements, fun c hc => ?_⟩
      refine (hset fun he => ?_).trans (hS.constants c hc)
      -- A constant that the program has at this index would be one of the listing's.
      have hold := hp.constants_old c hc (by rw [hpush, hadd]; simp [← he])
      rw [hpush, hadd] at hold
      have := (sound_ofListing l).constants c hold
      rw [hl.shapes] at this
      omega
    · simp [State.step, State.lanes, heval, Array.getD_eq_getD_getElem?, hin]

theorem Step.follows_declare (v : Variable) (hl : l.Consistent) (hs : s.Fits l) (hS : S.Loaded p)
    (hp : (ofListing (l.declare v).2).Within p) (hshow : S.Shows start l s) :
    Follows start p l S (l.declare v).2
      { s with vars := s.vars.push (fresh start s.vars.size v) } [] := by
  have hpush : ofListing (l.declare v).2 = (ofListing l).add (.declare v) :=
    ofListing_push rfl
  have hcons : (l.declare v).2.Consistent := hl.add (.declare v)
  have hdecl : l.vars.size < (l.declare v).2.vars.size := by simp [Listing.declare]
  have hsize : l.vars.size < p.vars.size := by
    have := hp.vars_size
    rw [hcons.vars] at this
    omega
  -- The machine has the variable from the start, with as many elements as it is declared with.
  have hnew : S.vars.getD l.vars.size #[] = fresh start l.vars.size v := by
    have hlen : (S.vars.getD l.vars.size #[]).size = v.length := by
      rw [hS.elements _ hsize, variableAt_of_within hp hcons hdecl]
      exact congrArg Variable.length (getD_push_size _ _ _)
    refine Array.ext (hlen.trans (by simp [fresh])) fun j hj _ => ?_
    have := hshow.later l.vars.size j (Nat.le_refl _) hj
    rw [Array.getD_eq_getD_getElem?, Array.getElem?_eq_getElem hj, Option.getD_some] at this
    rw [this]
    simp [fresh]
  refine ⟨⟨by rw [hpush]; rfl, by rw [hpush]; simp [add]⟩, hS, hshow.values,
    fun i hi => ?_, hshow.memory,
    fun i j hi hj => hshow.later i j (Nat.le_trans (Nat.le_of_lt hdecl) hi) hj⟩
  show S.vars.getD i #[] = (s.vars.push _).getD i #[]
  simp only [Listing.declare, Array.size_push] at hi
  rcases Nat.lt_succ_iff_lt_or_eq.1 hi with hlt | rfl
  · rw [getD_push_of_lt _ _ _ (hs.vars ▸ hlt)]
    exact hshow.vars i hlt
  · rw [hnew, hs.vars, ← hs.vars, getD_push_size]

theorem Step.follows_silent {e : Entry} (he : (ofListing l).add e = ofListing l)
    (hS : S.Loaded p) (hshow : S.Shows start l s) : Follows start p l S (l.push e) s [] := by
  have hpush : ofListing (l.push e) = ofListing l :=
    (ofListing_push (l := l) rfl).trans he
  exact ⟨hpush ▸ .refl _, hS, hshow.values, hshow.vars, hshow.memory, hshow.later⟩

theorem Step.follows (h : Step start l s l' s') (hl : l.Consistent) (hs : s.Fits l)
    (hS : S.Loaded p) (hp : (ofListing l').Within p) (hshow : S.Shows start l s) :
    ∃ code, Follows start p l S l' s' code := by
  have hp' := h.within.trans hp
  cases h with
  | define op inScope => exact follows_define inScope hl hs hS hp hshow
  | declare v => exact ⟨[], follows_declare v hl hs hS hp hshow⟩
  | reuse op v | element place index => exact ⟨[], follows_silent rfl hS hshow⟩
  | store place v declared defined =>
    have hpush : ofListing (l.push (.store place v)) =
        (ofListing l).emit (.store place v) :=
      ofListing_push (l := l) (e := .store place v) rfl
    refine ⟨[.store place v], .emit (sound_ofListing l).current _ (by rw [hpush]; rfl)
      (by rw [hpush]), hS.write place _, ?_⟩
    have hw := hshow.write declared (s.lanes v) hs hS (hl.vars ▸ hp'.vars_size)
    rw [← hshow.values v defined] at hw ⊢
    exact ⟨hw.values, hw.vars, hw.memory, hw.later⟩
  | storeMemory space offset v address defined =>
    have hpush : ofListing (l.push (.storeMemory space offset v)) =
        (ofListing l).emit (.storeMemory space offset v) :=
      ofListing_push (l := l) (e := .storeMemory space offset v) rfl
    have hlane (u : Value) (hu : l.Defines u) :
        S.lane p u 0 = s.lane (.ofShapes l.shapes) u 0 := by
      have hshape : p.shapeOf u = (ofShapes l.shapes).shapeOf u :=
        shapeOf_of_within hp' hl hu
      rw [lane, lane, countOf, countOf, hshape, hshow.values u hu]
    refine ⟨[.storeMemory space offset v], .emit (sound_ofListing l).current _
      (by rw [hpush]; rfl) (by rw [hpush]), ⟨hS.values, hS.vars, hS.elements, hS.constants⟩,
      hshow.values, hshow.vars, ?_, hshow.later⟩
    simp only [foldl_cons, foldl_nil, step, hlane offset address, hlane v defined,
      hshow.memory]

theorem Steps.consistent (h : Steps start l s l' s') (hl : l.Consistent) : l'.Consistent := by
  induction h with
  | refl => exact hl
  | tail _ step ih =>
    obtain ⟨e, rfl⟩ := step.eq_add
    exact ih.add e

/-- The code of a run of entries, executed on a machine of the finished program, shows the state
that the entries lead to. -/
theorem Steps.follows (h : Steps start l s l' s') (hl : l.Consistent) (hs : s.Fits l)
    (hS : S.Loaded p) (hp : (ofListing l').Within p) (hshow : S.Shows start l s) :
    ∃ code, Follows start p l S l' s' code := by
  induction h with
  | refl => exact ⟨[], .refl _, hS, hshow⟩
  | tail steps step ih =>
    obtain ⟨code, hcode⟩ := ih (step.within.trans hp)
    obtain ⟨code', hcode'⟩ :=
      step.follows (steps.consistent hl) (steps.fits hs) hcode.loaded hp hcode.shows
    refine ⟨code ++ code', hcode.grows.trans hcode'.grows, ?_, ?_⟩ <;> rw [foldl_append]
    · exact hcode'.loaded
    · exact hcode'.shows

/-! ## From a machine state to the state of a growing listing, and back -/

/-- The part of a machine state that a listing knows of. -/
def State.upTo (l : Listing) (S : State) : State :=
  { S with values := S.values.take l.shapes.size, vars := S.vars.take l.vars.size }

theorem getD_take_of_lt {α : Type} (xs : Array α) (d : α) {i n : Nat} (hi : i < n) :
    (xs.take n).getD i d = xs.getD i d := by
  simp only [Array.getD_eq_getD_getElem?, Array.take_eq_extract, Array.getElem?_extract]
  by_cases hx : i < xs.size
  · rw [if_pos (by omega), Nat.zero_add]
  · rw [if_neg (by omega), Array.getElem?_eq_none (by omega)]

/-- What the variables hold that are still to be declared. -/
def State.held (S : State) (i j : Nat) : Lanes := (S.vars.getD i #[]).getD j (.replicate 0#32)

theorem State.fits_upTo (hl : l.Consistent) (hS : S.Loaded p)
    (hp : (ofListing l).Within p) : (S.upTo l).Fits l := by
  have hshapes := hp.shapes_size
  have hvars := hp.vars_size
  rw [hl.shapes, ← hS.values] at hshapes
  rw [hl.vars, ← hS.vars] at hvars
  refine ⟨by simp [upTo, hshapes], by simp [upTo, hvars], fun i hi => ?_⟩
  have := hS.elements i (by rw [← hS.vars]; omega)
  rw [variableAt_of_within hp hl hi] at this
  rw [← this, upTo, getD_take_of_lt _ _ hi]

theorem State.shows_upTo (l : Listing) (S : State) : S.Shows S.held l (S.upTo l) where
  values v hv := by
    rw [lanes, lanes, upTo, getD_take_of_lt _ _ hv]
  vars i hi := by rw [upTo, getD_take_of_lt _ _ hi]
  memory := rfl
  later i j _ _ := rfl

/-- Code that was emitted has on every machine of the finished program the effect that its entries
have. -/
theorem Steps.runSince (h : Steps S.held l (S.upTo l) l' s') (hl : l.Consistent)
    (hS : S.Loaded p) (hp : (ofListing l').Within p)
    (hl' : (ofListing l).Within p) :
    l'.Consistent ∧ (S.runSince p l l').Loaded p ∧ (S.runSince p l l').Shows S.held l' s' := by
  obtain ⟨code, hcode⟩ :=
    h.follows hl (fits_upTo hl hS hl') hS hp (shows_upTo l S)
  rw [State.runSince, hcode.grows.since_eq]
  exact ⟨h.consistent hl, hcode.loaded, hcode.shows⟩

end Machine
end Microcode
