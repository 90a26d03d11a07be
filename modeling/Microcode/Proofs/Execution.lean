import Microcode.Machine.State

/-!
Running code while it is emitted.

A machine runs a finished program, with room for every value and every variable from the start.
The front end reasons about a listing that is still growing.  `Step` is what one more entry does to
the state of such a listing: a definition adds a value, a declaration adds a variable, and a store
changes one.  A variable that is declared later holds what `start` says, so nothing is assumed of
it.  `Microcode.Proofs.Recording` shows that a finished program does the same.

Functions and calls do not appear: they order code and do not change the state by themselves.
-/

namespace Microcode

theorem getD_push_of_lt {α : Type} (xs : Array α) (x d : α) {i : Nat} (hi : i < xs.size) :
    (xs.push x).getD i d = xs.getD i d := by
  simp [Array.getD_eq_getD_getElem?, Array.getElem?_push_lt hi, hi]

theorem getD_push_size {α : Type} (xs : Array α) (x d : α) : (xs.push x).getD xs.size d = x := by
  simp [Array.getD_eq_getD_getElem?]

/-- Values an operation reads. -/
def Op.values : Op → List Value
  | .constant _ | .load _ => []
  | .construct parts => parts
  | .extract v _ | .unary _ v | .convert _ v _ | .helper _ v | .fetch _ v => [v]
  | .insert a b _ | .shuffle a b _ | .binary _ a b | .compare _ a b => [a, b]
  | .select c a b => [c, a, b]
  | .builtin .dot args => [args.getD 0 default, args.getD 1 default]
  | .builtin _ args => args

/-- The place an operation reads. -/
def Op.place? : Op → Option Place
  | .load place => some place
  | _ => none

namespace Listing

def Defines (l : Listing) (v : Value) : Prop := v.index < l.shapes.size

def Declares (l : Listing) (place : Place) : Prop := place.variableIndex < l.vars.size

/-- An operation that reads only what there is. -/
def Scoped (l : Listing) (op : Op) : Prop :=
  (∀ v ∈ op.values, l.Defines v) ∧ ∀ place ∈ op.place?, l.Declares place

/-- The later listing keeps every value and every variable of the earlier one. -/
structure Extends (l l' : Listing) : Prop where
  target : l'.target = l.target
  shapes : ∀ i, i < l.shapes.size → l'.shapes.getD i Shape.f32 = l.shapes.getD i Shape.f32
  shapes_size : l.shapes.size ≤ l'.shapes.size
  vars : ∀ i, i < l.vars.size → l'.vars.getD i default = l.vars.getD i default
  vars_size : l.vars.size ≤ l'.vars.size

namespace Extends

variable {l l' l'' : Listing}

theorem refl (l : Listing) : Extends l l :=
  ⟨rfl, fun _ _ => rfl, Nat.le_refl _, fun _ _ => rfl, Nat.le_refl _⟩

theorem trans (h : Extends l l') (h' : Extends l' l'') : Extends l l'' where
  target := h'.target.trans h.target
  shapes i hi := (h'.shapes i (Nat.lt_of_lt_of_le hi h.shapes_size)).trans (h.shapes i hi)
  shapes_size := Nat.le_trans h.shapes_size h'.shapes_size
  vars i hi := (h'.vars i (Nat.lt_of_lt_of_le hi h.vars_size)).trans (h.vars i hi)
  vars_size := Nat.le_trans h.vars_size h'.vars_size

theorem defines (h : Extends l l') {v : Value} (hv : l.Defines v) : l'.Defines v :=
  Nat.lt_of_lt_of_le hv h.shapes_size

theorem declares (h : Extends l l') {place : Place} (hp : l.Declares place) : l'.Declares place :=
  Nat.lt_of_lt_of_le hp h.vars_size

theorem shapeOf (h : Extends l l') {v : Value} (hv : l.Defines v) : l'.shapeOf v = l.shapeOf v :=
  h.shapes v.index hv

theorem variableAt (h : Extends l l') {place : Place} (hp : l.Declares place) :
    l'.variableAt place = l.variableAt place :=
  h.vars place.variableIndex hp

end Extends

/-- The listing with one more entry. -/
def add (l : Listing) (e : Entry) : Listing :=
  match e with
  | .define shape _ => { l.push e with shapes := l.shapes.push shape }
  | .declare v => { l.push e with vars := l.vars.push v }
  | .beginFunction name => { l.push e with functions := l.functions.push name }
  | _ => l.push e

@[simp] theorem entries_add (l : Listing) (e : Entry) : (l.add e).entries = l.entries.push e := by
  cases e <;> rfl

theorem extends_add (l : Listing) (e : Entry) : l.Extends (l.add e) := by
  cases e with
  | define shape op =>
    exact ⟨rfl, fun i hi => getD_push_of_lt _ _ _ hi, by simp [add], fun _ _ => rfl, Nat.le_refl _⟩
  | declare v =>
    exact ⟨rfl, fun _ _ => rfl, Nat.le_refl _, fun i hi => getD_push_of_lt _ _ _ hi, by simp [add]⟩
  | _ => exact ⟨rfl, fun _ _ => rfl, Nat.le_refl _, fun _ _ => rfl, Nat.le_refl _⟩

theorem extends_define (l : Listing) (op : Op) : l.Extends (l.define op).2 :=
  l.extends_add (.define (l.opShape op) op)

theorem extends_declare (l : Listing) (v : Variable) : l.Extends (l.declare v).2 :=
  l.extends_add (.declare v)

theorem shapeOf_define (l : Listing) (op : Op) :
    (l.define op).2.shapeOf (l.define op).1 = l.opShape op := getD_push_size _ _ _

theorem variableAt_declare (l : Listing) (v : Variable) :
    (l.declare v).2.variableAt (l.declare v).1 = v := getD_push_size _ _ _

end Listing

namespace Machine

/-- A program of which only the shapes of values are known, which is all that evaluation asks. -/
def Program.ofShapes (shapes : Array Shape) : Program := { shapes := shapes }

/-- What a variable holds when it is declared. -/
def State.fresh (start : Nat → Nat → Lanes) (index : Nat) (v : Variable) : Array Lanes :=
  Array.ofFn fun j : Fin v.length => start index j

/-- The effect of one entry on a listing and its state. -/
inductive Step (start : Nat → Nat → Lanes) : Listing → State → Listing → State → Prop
  | define {l : Listing} {s : State} (op : Op) (inScope : l.Scoped op) :
    Step start l s (l.define op).2
      { s with values := s.values.push (s.eval (.ofShapes l.shapes) (l.opShape op) op) }
  | reuse {l : Listing} {s : State} (op : Op) (v : Value) :
    Step start l s (l.push (.reuse op v)) s
  | declare {l : Listing} {s : State} (v : Variable) :
    Step start l s (l.declare v).2
      { s with vars := s.vars.push (State.fresh start s.vars.size v) }
  | element {l : Listing} {s : State} (place : Place) (index : Nat) :
    Step start l s (l.element place index).2 s
  | store {l : Listing} {s : State} (place : Place) (v : Value)
      (declared : l.Declares place) (defined : l.Defines v) :
    Step start l s (l.push (.store place v)) (s.write place (s.lanes v))
  | storeMemory {l : Listing} {s : State} (space : MemorySpace) (offset v : Value)
      (address : l.Defines offset) (defined : l.Defines v) :
    Step start l s (l.push (.storeMemory space offset v))
      { s with
        memory := s.memory.store space (s.lane (.ofShapes l.shapes) offset 0).toNat <|
          s.lane (.ofShapes l.shapes) v 0 }

/-- The effect of any number of entries. -/
inductive Steps (start : Nat → Nat → Lanes) (l : Listing) (s : State) : Listing → State → Prop
  | refl : Steps start l s l s
  | tail {l' l'' : Listing} {s' s'' : State} :
    Steps start l s l' s' → Step start l' s' l'' s'' → Steps start l s l'' s''

/-- A state with one entry for each value and each variable of a listing. -/
structure State.Fits (l : Listing) (s : State) : Prop where
  values : s.values.size = l.shapes.size
  vars : s.vars.size = l.vars.size
  elements : ∀ i, i < l.vars.size → (s.vars.getD i #[]).size = (l.vars.getD i default).length

variable {start : Nat → Nat → Lanes} {l l' l'' : Listing} {s s' s'' : State}

namespace Steps

theorem one (h : Step start l s l' s') : Steps start l s l' s' := .tail .refl h

theorem trans (h : Steps start l s l' s') (h' : Steps start l' s' l'' s'') :
    Steps start l s l'' s'' := by
  induction h' with
  | refl => exact h
  | tail _ step ih => exact .tail ih step

end Steps

theorem Step.eq_add (h : Step start l s l' s') : ∃ e, l' = l.add e := by
  cases h with
  | define op _ => exact ⟨.define (l.opShape op) op, rfl⟩
  | reuse op v => exact ⟨.reuse op v, rfl⟩
  | declare v => exact ⟨.declare v, rfl⟩
  | element place index => exact ⟨.element place index, rfl⟩
  | store place v _ _ => exact ⟨.store place v, rfl⟩
  | storeMemory space offset v _ _ => exact ⟨.storeMemory space offset v, rfl⟩

theorem Step.extension (h : Step start l s l' s') : l.Extends l' := by
  obtain ⟨e, rfl⟩ := h.eq_add
  exact l.extends_add e

theorem Steps.extension (h : Steps start l s l' s') : l.Extends l' := by
  induction h with
  | refl => exact Listing.Extends.refl _
  | tail _ step ih => exact ih.trans step.extension

/-! ## What a write changes -/

/-- The variable and the element a place stands for. -/
def cell (place : Place) : Nat × Nat := (place.variableIndex, State.elementIndex place)

theorem State.size_write (s : State) (place : Place) (lanes : Lanes) (i : Nat) :
    ((s.write place lanes).vars.getD i #[]).size = (s.vars.getD i #[]).size := by
  simp only [State.write, Array.getD_eq_getD_getElem?, Array.getElem?_modify]
  by_cases h : place.variableIndex = i
  · subst h
    cases s.vars[place.variableIndex]? <;> simp
  · simp [h]

theorem State.read_write_of_ne (s : State) {a b : Place} (lanes : Lanes) (h : cell a ≠ cell b) :
    (s.write a lanes).read b = s.read b := by
  simp only [State.read, State.write, Array.getD_eq_getD_getElem?, Array.getElem?_modify]
  by_cases hv : a.variableIndex = b.variableIndex
  · have he : State.elementIndex a ≠ State.elementIndex b := fun he => h (Prod.ext hv he)
    rw [if_pos hv]
    cases s.vars[b.variableIndex]? with
    | none => rfl
    | some elements => simp [Array.getElem?_setIfInBounds_ne he]
  · rw [if_neg hv]

theorem State.read_write_self (s : State) {a b : Place} (lanes : Lanes) (h : cell a = cell b)
    (hb : State.elementIndex b < (s.vars.getD b.variableIndex #[]).size) :
    (s.write a lanes).read b = lanes := by
  have hv : a.variableIndex = b.variableIndex := congrArg Prod.fst h
  have he : State.elementIndex a = State.elementIndex b := congrArg Prod.snd h
  simp only [State.read, State.write, Array.getD_eq_getD_getElem?, Array.getElem?_modify] at hb ⊢
  rw [if_pos hv, he]
  cases hs : s.vars[b.variableIndex]? with
  | none => rw [hs] at hb; exact absurd hb (Nat.not_lt_zero _)
  | some elements =>
    rw [hs] at hb
    have hb' : State.elementIndex b < elements.size := by simpa using hb
    simp [hb']

/-! ## What running keeps -/

theorem Step.fits (h : Step start l s l' s') (hs : s.Fits l) : s'.Fits l' := by
  cases h with
  | define op _ => exact ⟨by simp [Listing.define, hs.values], hs.vars, hs.elements⟩
  | reuse op v | element place index | storeMemory space offset v _ _ =>
    exact ⟨hs.values, hs.vars, hs.elements⟩
  | declare v =>
    refine ⟨hs.values, by simp [Listing.declare, hs.vars], fun i hi => ?_⟩
    simp only [Listing.declare, Array.size_push] at hi
    simp only [Listing.declare, Array.getD_eq_getD_getElem?]
    by_cases hlt : i < l.vars.size
    · have := hs.elements i hlt
      simp only [Array.getD_eq_getD_getElem?] at this
      rw [Array.getElem?_push_lt hlt, Array.getElem?_push_lt (hs.vars ▸ hlt)]
      simpa [hlt, hs.vars] using this
    · have he : i = l.vars.size := by omega
      subst he
      rw [← hs.vars, Array.getElem?_push_size, hs.vars, Array.getElem?_push_size]
      simp [State.fresh]
  | store place v _ _ =>
    refine ⟨hs.values, by simp [State.write, Listing.push, hs.vars], fun i hi => ?_⟩
    rw [State.size_write]
    exact hs.elements i hi

theorem Steps.fits (h : Steps start l s l' s') (hs : s.Fits l) : s'.Fits l' := by
  induction h with
  | refl => exact hs
  | tail _ step ih => exact step.fits ih

/-- A value is defined once: later code does not change it. -/
theorem Step.lanes_eq (h : Step start l s l' s') (hs : s.Fits l) {v : Value} (hv : l.Defines v) :
    s'.lanes v = s.lanes v := by
  cases h with
  | define op _ => exact getD_push_of_lt _ _ _ (hs.values ▸ hv)
  | _ => rfl

theorem Steps.lanes_eq (h : Steps start l s l' s') (hs : s.Fits l) {v : Value}
    (hv : l.Defines v) : s'.lanes v = s.lanes v := by
  induction h with
  | refl => rfl
  | tail steps step ih =>
    rw [step.lanes_eq (steps.fits hs) (steps.extension.defines hv), ih]

end Machine
end Microcode
