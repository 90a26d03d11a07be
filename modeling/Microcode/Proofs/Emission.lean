import Mathlib.Algebra.Ring.Int.Defs
import Mathlib.Algebra.Ring.Nat
import Mathlib.Data.List.Forall2
import Mathlib.Data.List.GetD
import Microcode.Emit
import Microcode.Proofs.Execution

/-!
Specifications of emitting computations.

`Emits` says what a computation of the front end does to a workspace together with the state of its
listing: when it succeeds, its code leads to a state with the stated property, and when it fails the
error has one.  A frame says what a kind of computation leaves alone.  The computations here are
quiet: they define values and change nothing else, and `Holds` says which lanes a value has.
-/

namespace Microcode

open Machine List Listing State

variable {parts : List Value} {count i : Nat} {place : Place}

section

variable {κ α : Type} [BEq κ] [LawfulBEq κ] {table : List (κ × α)} {k : κ}

theorem isSome_lookup : (table.lookup k).isSome = true ↔ k ∈ table.map Prod.fst := by
  rw [lookup_isSome_iff]
  simp

theorem mem_of_lookup {a : α} (h : table.lookup k = some a) : (k, a) ∈ table := by
  obtain ⟨before, after, rfl, -⟩ := lookup_eq_some_iff.1 h
  simp

end

/-- Whether a computation succeeds with a result that passes a test. -/
def Emit.passes {α : Type} (x : Emit α) (w : Workspace) (test : α → Workspace → Bool) : Bool :=
  match x w with
  | .ok a w' => test a w'
  | .error _ _ => false

/-- The computation gives a result with `P`, or ends with an error for which `E` holds. -/
def Emit.Ends {α : Type} (x : Emit α) (w : Workspace) (P : α → Workspace → Prop)
    (E : Error → Workspace → Prop) : Prop :=
  match x w with
  | .ok a w' => P a w'
  | .error e w' => E e w'

theorem Emit.bind_apply {α β : Type} (x : Emit α) (f : α → Emit β) (w : Workspace) :
    (x >>= f) w =
      match x w with
      | .ok a w' => f a w'
      | .error e w' => .error e w' := by
  show EStateM.bind x f w = _
  unfold EStateM.bind
  cases x w <;> rfl

namespace Emit.Ends

variable {α β : Type} {x : Emit α} {f : α → Emit β} {w w' : Workspace} {P P' : α → Workspace → Prop}
  {Q : β → Workspace → Prop} {E E' : Error → Workspace → Prop}

theorem of_run (hok : ∀ a w', x w = .ok a w' → P a w')
    (herror : ∀ e w', x w = .error e w' → E e w') : x.Ends w P E := by
  unfold Ends
  cases h : x w with
  | ok a w' => exact hok a w' h
  | error e w' => exact herror e w' h

theorem of_ok {a : α} (hx : x.Ends w P E) (h : x w = .ok a w') : P a w' := by
  rwa [Ends, h] at hx

theorem of_error {e : Error} (hx : x.Ends w P E) (h : x w = .error e w') : E e w' := by
  rwa [Ends, h] at hx

theorem mono (hx : x.Ends w P E) (hP : ∀ a w', P a w' → P' a w')
    (hE : ∀ e w', E e w' → E' e w') : x.Ends w P' E' :=
  of_run (fun a w' h => hP a w' (hx.of_ok h)) fun e w' h => hE e w' (hx.of_error h)

theorem bind (hx : x.Ends w P E) (hf : ∀ a w', P a w' → (f a).Ends w' Q E')
    (hE : ∀ e w', E e w' → E' e w') : (x >>= f).Ends w Q E' := by
  unfold Ends at hx ⊢
  rw [bind_apply]
  cases h : x w with
  | ok a w' =>
    rw [h] at hx
    exact hf a w' hx
  | error e w' =>
    rw [h] at hx
    exact hE e w' hx

theorem attempt {R : Except Error α → Workspace → Prop} (hx : x.Ends w P E)
    (hP : ∀ a w', P a w' → R (.ok a) w') (hE : ∀ e w', E e w' → R (.error e) w') :
    (Emit.attempt x).Ends w R E' := by
  unfold Ends at hx ⊢
  unfold Emit.attempt
  cases h : x w with
  | ok a w' =>
    rw [h] at hx
    exact hP a w' hx
  | error e w' =>
    rw [h] at hx
    exact hE e w' hx

theorem exists_ok (hx : x.Ends w P fun _ _ => False) : ∃ a w', x w = .ok a w' ∧ P a w' := by
  cases h : x w with
  | ok a w' => exact ⟨a, w', rfl, hx.of_ok h⟩
  | error e w' => exact (hx.of_error h).elim

end Emit.Ends

theorem Emit.exists_of_passes {α : Type} (x : Emit α) (w : Workspace)
    (test : α → Workspace → Bool) (h : x.passes w test = true) :
    ∃ a w', x w = .ok a w' ∧ test a w' = true := by
  apply Ends.exists_ok
  unfold passes at h
  unfold Ends
  split at h
  · exact h
  · cases h

/-- A computation that succeeds does so step by step. -/
theorem Emit.bind_eq_ok {α β : Type} {x : Emit α} {f : α → Emit β} {w w' : Workspace} {b : β}
    (h : (x >>= f) w = .ok b w') : ∃ a w1, x w = .ok a w1 ∧ f a w1 = .ok b w' := by
  rw [bind_apply] at h
  cases hx : x w with
  | ok a w1 =>
    rw [hx] at h
    exact ⟨a, w1, rfl, h⟩
  | error e w1 =>
    rw [hx] at h
    cases h

/-- A workspace for the machine, and a state for its listing. -/
structure Live (w : Workspace) (s : State) : Prop where
  fits : s.Fits w.listing
  target : w.listing.target = .machine

/-- Where computations of a kind may start, and how far they may go. -/
structure Frame where
  Admits : Workspace → State → Prop
  Rel : Workspace → State → Workspace → State → Prop
  refl : ∀ {w s}, Admits w s → Rel w s w s
  trans : ∀ {w s w' s' w'' s''}, Rel w s w' s' → Rel w' s' w'' s'' → Rel w s w'' s''
  admits : ∀ {w s w' s'}, Rel w s w' s' → Admits w' s'

/-- What a computation does from a workspace and its state: on success its code leads within the
frame to a state with `Q`, and on failure `E` holds of the error and the workspace. -/
def Emits {α : Type} (F : Frame) (x : Emit α) (w : Workspace) (s : State)
    (Q : α → Workspace → State → Prop) (E : Error → Workspace → Prop) : Prop :=
  F.Admits w s →
    match x w with
    | .ok a w' => ∃ s', F.Rel w s w' s' ∧ Q a w' s'
    | .error e w' => E e w'

namespace Emits

variable {α β : Type} {F : Frame} {w : Workspace} {s : State} {x : Emit α} {f : α → Emit β}
  {P : α → Workspace → State → Prop} {Q : β → Workspace → State → Prop}
  {E : Error → Workspace → Prop}

theorem pure {a : α} (h : P a w s) : Emits F (Pure.pure a) w s P E := fun hw => ⟨s, F.refl hw, h⟩

theorem bind (hx : Emits F x w s P E)
    (hf : ∀ a w' s', F.Rel w s w' s' → P a w' s' → Emits F (f a) w' s' Q E) :
    Emits F (x >>= f) w s Q E := by
  intro hw
  refine Emit.Ends.bind (hx hw) ?_ fun _ _ h => h
  rintro a w' ⟨s', hrel, hP⟩
  refine Emit.Ends.mono (hf a w' s' hrel hP (F.admits hrel)) ?_ fun _ _ h => h
  rintro b w'' ⟨s'', hrel', hQ⟩
  exact ⟨s'', F.trans hrel hrel', hQ⟩

/-- A rule of another frame may be used where what it says fits this one. -/
theorem transfer {G : Frame} {P' : α → Workspace → State → Prop} {E' : Error → Workspace → Prop}
    (hx : Emits G x w s P E) (hw : F.Admits w s → G.Admits w s)
    (hP : ∀ a w' s', F.Admits w s → G.Rel w s w' s' → P a w' s' → F.Rel w s w' s' ∧ P' a w' s')
    (hE : ∀ e w', E e w' → E' e w') : Emits F x w s P' E' := by
  intro ha
  refine Emit.Ends.mono (hx (hw ha)) ?_ hE
  rintro a w' ⟨s', hr, h⟩
  exact ⟨s', hP a w' s' ha hr h⟩

theorem mono {P' : α → Workspace → State → Prop} {E' : Error → Workspace → Prop}
    (hx : Emits F x w s P E) (hP : ∀ a w' s', F.Rel w s w' s' → P a w' s' → P' a w' s')
    (hE : ∀ e w', E e w' → E' e w') : Emits F x w s P' E' :=
  hx.transfer id (fun a w' s' _ hrel h => ⟨hrel, hP a w' s' hrel h⟩) hE

theorem gives {P' : α → Workspace → State → Prop} (hx : Emits F x w s P E)
    (hP : ∀ a w' s', F.Rel w s w' s' → P a w' s' → P' a w' s') : Emits F x w s P' E :=
  hx.mono hP fun _ _ h => h

theorem fails {E' : Error → Workspace → Prop} (hx : Emits F x w s P E)
    (hE : ∀ e w', E e w' → E' e w') : Emits F x w s P E' := hx.mono (fun _ _ _ _ h => h) hE

theorem within {G : Frame} (hx : Emits G x w s P E) (hw : F.Admits w s → G.Admits w s)
    (hrel : ∀ w' s', F.Admits w s → G.Rel w s w' s' → F.Rel w s w' s') : Emits F x w s P E :=
  hx.transfer hw (fun _ w' s' ha hr h => ⟨hrel w' s' ha hr, h⟩) fun _ _ h => h

/-- A computation that is described in another frame may turn out to stay in this one. -/
theorem of_frame {G : Frame} (hw : F.Admits w s → G.Admits w s)
    (hx : F.Admits w s → Emits G x w s (fun a w' s' => F.Rel w s w' s' ∧ P a w' s') E) :
    Emits F x w s P E :=
  fun ha => (hx ha).transfer hw (fun _ _ _ _ _ h => h) (fun _ _ h => h) ha

theorem of_run (hok : F.Admits w s → ∀ a w', x w = .ok a w' → ∃ s', F.Rel w s w' s' ∧ P a w' s')
    (herror : F.Admits w s → ∀ e w', x w = .error e w' → E e w') : Emits F x w s P E :=
  fun hw => Emit.Ends.of_run (hok hw) (herror hw)

theorem of_ok {a : α} {w' : Workspace} (hx : Emits F x w s P E) (hw : F.Admits w s)
    (h : x w = .ok a w') : ∃ s', F.Rel w s w' s' ∧ P a w' s' := Emit.Ends.of_ok (hx hw) h

theorem of_error {e : Error} {w' : Workspace} (hx : Emits F x w s P E) (hw : F.Admits w s)
    (h : x w = .error e w') : E e w' := Emit.Ends.of_error (hx hw) h

theorem exists_ok (hx : Emits F x w s P fun _ _ => False) (hw : F.Admits w s) :
    ∃ a w' s', x w = .ok a w' ∧ F.Rel w s w' s' ∧ P a w' s' := by
  obtain ⟨a, w', h, s', hs'⟩ := Emit.Ends.exists_ok (hx hw)
  exact ⟨a, w', s', h, hs'⟩

/-! Questions about values change nothing. -/

theorem shapeOf {v : Value} {f : Shape → Emit β} (h : Emits F (f (w.listing.shapeOf v)) w s Q E) :
    Emits F (Emit.shapeOf v >>= f) w s Q E := h

theorem countOf {v : Value} {f : Nat → Emit β} (h : Emits F (f (w.listing.countOf v)) w s Q E) :
    Emits F (Emit.countOf v >>= f) w s Q E := h

theorem scalarOf {v : Value} {f : Scalar → Emit β}
    (h : Emits F (f (w.listing.scalarOf v)) w s Q E) : Emits F (Emit.scalarOf v >>= f) w s Q E := h

theorem get {f : Workspace → Emit β} (h : Emits F (f w) w s Q E) :
    Emits F (MonadState.get >>= f) w s Q E := h

theorem getRegisters {f : RegisterFile → Emit β} (h : Emits F (f w.registers) w s Q E) :
    Emits F (Emit.getRegisters >>= f) w s Q E := h

theorem word {n : Nat} {f : Nat → Emit β} (hE : 0x100000000 ≤ n → E .overflow w)
    (h : n < 0x100000000 → Emits F (f n) w s Q E) : Emits F (Emit.word n >>= f) w s Q E := by
  rw [Emit.word]
  by_cases hn : n < 0x100000000
  · rw [if_pos hn]
    exact h hn
  · rw [if_neg hn]
    exact fun _ => hE (Nat.le_of_not_lt hn)

theorem offset {n : Int} {f : Int → Emit β}
    (hE : ¬ (-0x80000000 ≤ n ∧ n < 0x80000000) → E .overflow w)
    (h : -0x80000000 ≤ n ∧ n < 0x80000000 → Emits F (f n) w s Q E) :
    Emits F (Emit.offset n >>= f) w s Q E := by
  rw [Emit.offset]
  by_cases hn : -0x80000000 ≤ n ∧ n < 0x80000000
  · rw [if_pos hn]
    exact h hn
  · rw [if_neg hn]
    exact fun _ => hE hn

/-- The frame may be used in what is said of the outcome. -/
theorem rel (hx : Emits F x w s P E) :
    Emits F x w s (fun a w' s' => F.Rel w s w' s' ∧ P a w' s') E :=
  hx.gives fun _ _ _ hrel hP => ⟨hrel, hP⟩

/-- One rule for each element of a list, if what it gives is kept by what follows. -/
theorem mapM {γ : Type} {g : γ → Emit β} {R : γ → β → Workspace → State → Prop} (xs : List γ)
    (keep : ∀ c b w s w' s', F.Rel w s w' s' → R c b w s → R c b w' s')
    (hg : ∀ c ∈ xs, ∀ w' s', F.Rel w s w' s' → Emits F (g c) w' s' (R c) E) :
    Emits F (xs.mapM g) w s (fun ys w' s' => Forall₂ (R · · w' s') xs ys) E := by
  induction xs generalizing w s with
  | nil => exact pure .nil
  | cons c rest ih =>
    intro hw
    rw [mapM_cons]
    refine bind (hg c mem_cons_self w s (F.refl hw)) (fun b w1 s1 h₁ hb => ?_) hw
    refine bind (ih fun d hd w' s' h => hg d (.tail _ hd) w' s' (F.trans h₁ h)) ?_
    intro bs w2 s2 h2 hbs
    exact pure (.cons (keep c b w1 s1 w2 s2 h2 hb) hbs)

end Emits

/-! ## Quiet computations -/

/-- Nothing happens but that values are defined. -/
structure Quiet (start : Nat → Nat → Lanes) (w : Workspace) (s : State) (w' : Workspace)
    (s' : State) : Prop where
  live : Live w s
  steps : Steps start w.listing s w'.listing s'
  registers : w'.registers = w.registers
  increments : w'.increments = w.increments
  declared : w'.listing.vars = w.listing.vars
  vars : s'.vars = s.vars
  memory : s'.memory = s.memory

variable {start : Nat → Nat → Lanes} {w w' w'' : Workspace} {s s' s'' : State}

theorem Live.steps (h : Live w s) (hsteps : Steps start w.listing s w'.listing s') : Live w' s' :=
  ⟨hsteps.fits h.fits, hsteps.extension.target.trans h.target⟩

namespace Quiet

theorem refl (h : Live w s) : Quiet start w s w s := ⟨h, .refl, rfl, rfl, rfl, rfl, rfl⟩

theorem trans (h : Quiet start w s w' s') (h' : Quiet start w' s' w'' s'') :
    Quiet start w s w'' s'' where
  live := h.live
  steps := h.steps.trans h'.steps
  registers := h'.registers.trans h.registers
  increments := h'.increments.trans h.increments
  declared := h'.declared.trans h.declared
  vars := h'.vars.trans h.vars
  memory := h'.memory.trans h.memory

theorem live_after (h : Quiet start w s w' s') : Live w' s' := h.live.steps h.steps

theorem read (h : Quiet start w s w' s') (place : Place) : s'.read place = s.read place := by
  rw [State.read, State.read, h.vars]

end Quiet

/-- Any code may be run. -/
structure Runs (start : Nat → Nat → Lanes) (w : Workspace) (s : State) (w' : Workspace)
    (s' : State) : Prop where
  live : Live w s
  steps : Steps start w.listing s w'.listing s'

def Frame.runs (start : Nat → Nat → Lanes) : Frame where
  Admits := Live
  Rel := Runs start
  refl h := ⟨h, .refl⟩
  trans h h' := ⟨h.live, h.steps.trans h'.steps⟩
  admits h := h.live.steps h.steps

def Frame.quiet (start : Nat → Nat → Lanes) : Frame where
  Admits := Live
  Rel := Quiet start
  refl := Quiet.refl
  trans := Quiet.trans
  admits := Quiet.live_after

theorem Emits.runs {α : Type} {x : Emit α} {Q : α → Workspace → State → Prop}
    {E : Error → Workspace → Prop} (h : Emits (.quiet start) x w s Q E) :
    Emits (.runs start) x w s (fun a w' s' => Quiet start w s w' s' ∧ Q a w' s') E :=
  h.rel.within (fun hw => hw) fun _ _ _ q => ⟨q.live, q.steps⟩

/-- The value is defined, and it has these lanes. -/
structure Holds (w : Workspace) (s : State) (v : Value) (scalar : Scalar) (lanes : List Lane) :
    Prop where
  defined : w.listing.Defines v
  shape : w.listing.shapeOf v = ⟨scalar, lanes.length⟩
  pos : 0 < lanes.length
  width : lanes.length ≤ 4
  get : ∀ i, i < lanes.length → (s.lanes v).get i = lanes.getD i 0#32

namespace Holds

variable {v : Value} {scalar : Scalar} {lanes : List Lane}

theorem steps (h : Holds w s v scalar lanes) (hw : Live w s)
    (hsteps : Steps start w.listing s w'.listing s') : Holds w' s' v scalar lanes where
  defined := hsteps.extension.defines h.defined
  shape := (hsteps.extension.shapeOf h.defined).trans h.shape
  pos := h.pos
  width := h.width
  get i hi := by rw [hsteps.lanes_eq hw.fits h.defined, h.get i hi]

theorem quiet (h : Holds w s v scalar lanes) (q : Quiet start w s w' s') :
    Holds w' s' v scalar lanes := h.steps q.live q.steps

theorem countOf (h : Holds w s v scalar lanes) : w.listing.countOf v = lanes.length := by
  rw [Listing.countOf, h.shape]

theorem scalarOf (h : Holds w s v scalar lanes) : w.listing.scalarOf v = scalar := by
  rw [Listing.scalarOf, h.shape]

theorem countOf_program (h : Holds w s v scalar lanes) :
    (Program.ofShapes w.listing.shapes).countOf v = lanes.length := h.countOf

theorem scalar_program (h : Holds w s v scalar lanes) :
    ((Program.ofShapes w.listing.shapes).shapeOf v).scalar = scalar := h.scalarOf

theorem lane (h : Holds w s v scalar lanes) (hi : i < lanes.length) :
    s.lane (.ofShapes w.listing.shapes) v i = lanes.getD i 0#32 := by
  rw [State.lane, h.countOf_program]
  by_cases h1 : lanes.length = 1
  · rw [if_pos h1]
    have h0 : i = 0 := by omega
    rw [h0]
    exact h.get 0 h.pos
  · rw [if_neg h1, h.get i hi]

theorem lane_single {a : Lane} (h : Holds w s v scalar [a]) (i : Nat) :
    s.lane (.ofShapes w.listing.shapes) v i = a := by
  rw [State.lane, h.countOf_program, if_pos (show [a].length = 1 from rfl)]
  exact h.get 0 h.pos

theorem lanes_eq_map (h : Holds w s v scalar lanes) :
    (range lanes.length).map (s.lane (.ofShapes w.listing.shapes) v) = lanes := by
  refine ext_getElem (by simp) fun i hi _ => ?_
  have hi' : i < lanes.length := by simpa using hi
  rw [getElem_map, getElem_range, h.lane hi', getD_eq_getElem _ _ hi']

end Holds

/-- The computation gives a value with these lanes, and is quiet. -/
def Computes (start : Nat → Nat → Lanes) (x : Emit Value) (w : Workspace) (s : State)
    (scalar : Scalar) (lanes : List Lane) : Prop :=
  ∀ E, Emits (.quiet start) x w s (fun v w' s' => Holds w' s' v scalar lanes) E

namespace Computes

variable {α : Type} {x : Emit Value} {f : Value → Emit α} {scalar scalar' : Scalar}
  {lanes lanes' : List Lane}

theorem pure {v : Value} (h : Holds w s v scalar lanes) :
    Computes start (Pure.pure v) w s scalar lanes := fun _ => .pure h

theorem bind {f : Value → Emit Value} (hx : Computes start x w s scalar lanes)
    (hf : ∀ v w' s', Quiet start w s w' s' → Holds w' s' v scalar lanes →
      Computes start (f v) w' s' scalar' lanes') :
    Computes start (x >>= f) w s scalar' lanes' :=
  fun E => (hx E).bind fun v w' s' q hv => hf v w' s' q hv E

theorem of_eq (hx : Computes start x w s scalar lanes) (h : lanes = lanes') :
    Computes start x w s scalar lanes' := h ▸ hx

end Computes

/-! ## Operations -/

open Emit

variable {a b v : Value} {scalar : Scalar} {xs ys : List Lane}

theorem get_fill (count : Nat) (f : Nat → Lane) (hi : i < 4) :
    (fill count f).get i = if i < count then f i else 0#32 := by
  rw [fill, Quad.get_ofFn _ hi]

/-- A definition is quiet, and its value has the lanes that its operation evaluates to. -/
theorem computes_define {op : Op} {lanes : List Lane} (hop : w.listing.Scoped op)
    (hpos : 0 < lanes.length) (hwidth : lanes.length ≤ 4)
    (hshape : Live w s → w.listing.opShape op = ⟨scalar, lanes.length⟩)
    (heval : ∀ i, i < lanes.length →
      (s.eval (.ofShapes w.listing.shapes) ⟨scalar, lanes.length⟩ op).get i = lanes.getD i 0#32) :
    Computes start (define op) w s scalar lanes := by
  intro E hw
  have hs := hshape hw
  refine ⟨_, ⟨hw, .one (.define op hop), rfl, rfl, rfl, rfl, rfl⟩, ?_⟩
  refine ⟨by simp [Defines], ?_, hpos, hwidth, fun i hi => ?_⟩
  · exact (w.listing.shapeOf_define op).trans hs
  · rw [← heval i hi, ← hs]
    simp [State.lanes, ← hw.fits.values, Array.getD_eq_getD_getElem?]

theorem computes_constant (c : Constant) : Computes start (constant c) w s c.scalar [c.lane] := by
  refine computes_define ⟨by simp [Op.values], by simp [Op.place?]⟩ (by simp) (by simp)
    (fun _ => rfl) fun i hi => ?_
  have h0 : i = 0 := by simpa using hi
  rw [h0]
  rfl

theorem computes_reuse (op : Op) {lanes : List Lane} (h : Holds w s v scalar lanes) :
    Computes start (reuse op v) w s scalar lanes := by
  intro E hw
  have q : Quiet start w s { w with listing := w.listing.push (.reuse op v) } s :=
    ⟨hw, .one (.reuse op v), rfl, rfl, rfl, rfl, rfl⟩
  exact ⟨s, q, h.quiet q⟩

theorem sum_countOf {lanes : List (List Lane)}
    (h : Forall₂ (fun v xs => Holds w s v scalar xs) parts lanes) :
    parts.foldr (fun v n => w.listing.countOf v + n) 0 = lanes.flatten.length := by
  induction h with
  | nil => rfl
  | cons hv _ ih => rw [foldr_cons, ih, hv.countOf, flatten_cons, length_append]

theorem flatMap_lanes {lanes : List (List Lane)}
    (h : Forall₂ (fun v xs => Holds w s v scalar xs) parts lanes) :
    (parts.flatMap fun v => (range ((Program.ofShapes w.listing.shapes).countOf v)).map
      (s.lane (.ofShapes w.listing.shapes) v)) = lanes.flatten := by
  induction h with
  | nil => rfl
  | cons hv _ ih =>
    rw [flatMap_cons, ih, hv.countOf_program, hv.lanes_eq_map, flatten_cons]

theorem defines_of_forall₂ {lanes : List (List Lane)}
    (h : Forall₂ (fun v xs => Holds w s v scalar xs) parts lanes) :
    ∀ v ∈ parts, w.listing.Defines v := by
  induction h with
  | nil => simp
  | cons hv _ ih =>
    intro u hu
    rcases mem_cons.1 hu with rfl | hu
    · exact hv.defined
    · exact ih u hu

theorem computes_construct {lanes : List (List Lane)}
    (h : Forall₂ (fun v xs => Holds w s v scalar xs) parts lanes) (hne : parts ≠ [])
    (hwidth : lanes.flatten.length ≤ 4) :
    Computes start (construct parts) w s scalar lanes.flatten := by
  cases h with
  | nil => exact absurd rfl hne
  | @cons v xs rest restLanes hv hrest =>
    have hpos : 0 < (xs :: restLanes).flatten.length := by
      rw [flatten_cons, length_append]
      have := hv.pos
      omega
    cases hrest with
    | nil =>
      rw [flatten_cons, flatten_nil, append_nil]
      exact computes_reuse _ hv
    | @cons u ys rest' restLanes' hu hrest' =>
      have hall : Forall₂ (fun v xs => Holds w s v scalar xs) (v :: u :: rest')
          (xs :: ys :: restLanes') := .cons hv (.cons hu hrest')
      refine computes_define ⟨defines_of_forall₂ hall, by simp [Op.place?]⟩ hpos hwidth
        (fun hw => ?_) fun i hi => ?_
      · rw [opShape, sum_countOf hall, hw.target, constructCount,
          Nat.min_eq_right hwidth]
        simp [hv.scalarOf]
      · simp only [eval, flatMap_lanes hall]
        rw [get_fill _ _ (by omega), if_pos hi]

theorem computes_splat {x : Lane} (h : Holds w s v scalar [x]) (hpos : 0 < count)
    (hwidth : count ≤ 4) : Computes start (splat v count) w s scalar (replicate count x) := by
  rw [splat]
  by_cases h1 : count ≤ 1
  · have : count = 1 := by omega
    subst this
    rw [if_pos h1]
    exact .pure h
  · rw [if_neg h1]
    have hparts : Forall₂ (fun v xs => Holds w s v scalar xs) (replicate count v)
        (replicate count [x]) := by
      clear hpos hwidth h1
      induction count with
      | zero => exact .nil
      | succ n ih => exact .cons h ih
    have hflat : (replicate count [x]).flatten = replicate count x := by simp
    refine (computes_construct hparts ?_ ?_).of_eq hflat
    · rw [Ne, replicate_eq_nil_iff]; omega
    · rw [hflat, length_replicate]; exact hwidth

theorem computes_splatConstant (c : Constant) (hpos : 0 < count) (hwidth : count ≤ 4) :
    Computes start (splatConstant c count) w s c.scalar (replicate count c.lane) :=
  (computes_constant c).bind fun _ _ _ _ hv => computes_splat hv hpos hwidth

theorem computes_extract (h : Holds w s v scalar xs) (hi : i < xs.length) :
    Computes start (extract v i) w s scalar [xs.getD i 0#32] := by
  intro E
  rw [Emit.extract]
  refine Emits.shapeOf ?_
  rw [h.shape, Shape.isScalar]
  by_cases h1 : xs.length = 1
  · rw [if_pos (by simpa using h1)]
    obtain ⟨x, rfl⟩ := length_eq_one_iff.1 h1
    have h0 : i = 0 := by simpa using hi
    rw [h0]
    exact computes_reuse _ h E
  · rw [if_neg (by simpa using h1)]
    refine computes_define ⟨by simpa [Op.values] using h.defined, by simp [Op.place?]⟩ (by simp)
      (by simp) (fun _ => ?_) (fun j hj => ?_) E
    · rw [opShape, h.scalarOf]; rfl
    · have h0 : j = 0 := by simpa using hj
      subst h0
      simp only [eval]
      rw [h.lane hi]
      rfl

theorem computes_insert {x : Lane} (h : Holds w s v scalar xs) (hb : Holds w s b scalar [x])
    (hi : i < xs.length) : Computes start (Emit.insert v b i) w s scalar (xs.set i x) := by
  intro E
  rw [Emit.insert]
  refine Emits.shapeOf ?_
  have hi4 : i < 4 := Nat.lt_of_lt_of_le hi h.width
  rw [h.shape, Shape.isScalar]
  by_cases h1 : xs.length = 1
  · rw [if_pos (by simpa using h1)]
    obtain ⟨y, rfl⟩ := length_eq_one_iff.1 h1
    have h0 : i = 0 := by simpa using hi
    rw [h0]
    exact computes_reuse _ hb E
  · rw [if_neg (by simpa using h1)]
    refine computes_define ⟨by simpa [Op.values] using ⟨h.defined, hb.defined⟩, by simp [Op.place?]⟩
      (by simpa using h.pos) (by simpa using h.width) (fun _ => ?_) (fun j hj => ?_) E
    · rw [opShape, h.shape, length_set]
    · have hj' : j < xs.length := by simpa using hj
      have hj4 : j < 4 := Nat.lt_of_lt_of_le hj' h.width
      simp only [eval]
      rw [hb.lane_single, Nat.mod_eq_of_lt hi4, getD_eq_getElem _ _ hj,
        getElem_set]
      by_cases hij : i = j
      · rw [if_pos hij, ← hij, Quad.get_set_self]
      · rw [if_neg hij, Quad.get_set_ne _ _ hi4 hj4 hij, h.get j hj', getD_eq_getElem _ _ hj']

/-- Components of two values, the second continuing the first. -/
theorem computes_shuffle (ha : Holds w s a scalar xs) (hb : Holds w s b scalar ys)
    {indices : List Nat} (hpos : 0 < indices.length) (hwidth : indices.length ≤ 4)
    (hin : ∀ i ∈ indices, i < xs.length + ys.length) :
    Computes start (shuffle a b indices) w s scalar (indices.map ((xs ++ ys).getD · 0#32)) := by
  refine computes_define ⟨by simpa [Op.values] using ⟨ha.defined, hb.defined⟩, by simp [Op.place?]⟩
    (by simpa using hpos) (by simpa using hwidth) (fun hw => ?_) fun i hi => ?_
  · simp only [opShape, shuffleShape, hw.target, length_map, ha.scalarOf]
  · have hi' : i < indices.length := by simpa using hi
    simp only [eval]
    rw [get_fill _ _ (by omega), if_pos hi, getD_eq_getElem _ _ hi,
      getD_eq_getElem _ _ (by simpa using hi'), getElem_map, getElem_map,
      ha.countOf_program]
    have hmem := hin _ (getElem_mem hi')
    by_cases hl : indices[i] < xs.length
    · rw [if_pos hl, ha.lane hl, getD_append _ _ _ _ hl]
    · rw [if_neg hl, hb.lane (by omega), getD_append_right _ _ _ _ (by omega)]

/-- Consecutive lanes of one value. -/
theorem computes_slice (ha : Holds w s a scalar xs) {first take : Nat} (hpos : 0 < take)
    (hin : first + take ≤ xs.length) :
    Computes start (shuffle a a (range' first take)) w s scalar ((xs.drop first).take take) := by
  have hwidth := ha.width
  have hpick : (xs.drop first).take take =
      (range' first take).map ((xs ++ xs).getD · 0#32) := by
    refine ext_getElem (by simp; omega) fun i hi _ => ?_
    have hi' : i < take := by simp at hi; omega
    rw [getElem_take, getElem_drop, getElem_map, getElem_range', Nat.one_mul,
      getD_append _ _ _ _ (by omega), getD_eq_getElem _ _ (by omega)]
  rw [hpick]
  refine computes_shuffle ha ha (by simpa using hpos) (by simp; omega) fun i hi => ?_
  have := mem_range'_1.1 hi
  omega

theorem widest_pair (ha : Holds w s a scalar xs) (hb : Holds w s b scalar ys)
    (h : ys.length = xs.length) : w.listing.widest [a, b] = ⟨scalar, xs.length⟩ := by
  simp [widest, ha.scalarOf, ha.countOf, hb.countOf, h]

theorem getD_zipWith {f : Lane → Lane → Lane} (h : ys.length = xs.length) (hi : i < xs.length) :
    (zipWith f xs ys).getD i 0#32 = f (xs.getD i 0#32) (ys.getD i 0#32) := by
  rw [getD_eq_getElem _ _ (by simpa [h] using hi), getElem_zipWith,
    getD_eq_getElem _ _ hi, getD_eq_getElem _ _ (h ▸ hi)]

theorem getD_map {f : Lane → Lane} (hi : i < xs.length) :
    (xs.map f).getD i 0#32 = f (xs.getD i 0#32) := by
  rw [getD_eq_getElem _ _ (by simpa using hi), getElem_map, getD_eq_getElem _ _ hi]

theorem computes_binary (op : BinaryOp) (ha : Holds w s a scalar xs) (hb : Holds w s b scalar ys)
    (h : ys.length = xs.length) :
    Computes start (binary op a b) w s scalar (zipWith (Machine.binary op scalar) xs ys) := by
  have hlen : (zipWith (Machine.binary op scalar) xs ys).length = xs.length := by simp [h]
  refine computes_define ⟨by simpa [Op.values] using ⟨ha.defined, hb.defined⟩, by simp [Op.place?]⟩
    (hlen ▸ ha.pos) (hlen ▸ ha.width) (fun _ => ?_) fun i hi => ?_
  · rw [opShape, widest_pair ha hb h, hlen]
  · rw [hlen] at hi
    simp only [eval]
    rw [hlen, get_fill _ _ (Nat.lt_of_lt_of_le hi ha.width), if_pos hi,
      getD_zipWith h hi, ha.lane hi, hb.lane (h ▸ hi), ha.scalar_program]

/-- An operation on each lane of one value. -/
theorem computes_pointwise {op : Op} {f : Lane → Lane} {target : Scalar}
    (ha : Holds w s a scalar xs) (hop : w.listing.Scoped op)
    (hshape : w.listing.opShape op = ⟨target, xs.length⟩)
    (heval : s.eval (.ofShapes w.listing.shapes) ⟨target, xs.length⟩ op =
      fill xs.length fun i => f (s.lane (.ofShapes w.listing.shapes) a i)) :
    Computes start (define op) w s target (xs.map f) := by
  refine computes_define hop (by simpa using ha.pos) (by simpa using ha.width) (fun _ => ?_)
    fun i hi => ?_
  · rw [hshape, length_map]
  · rw [length_map] at hi
    rw [length_map, heval, get_fill _ _ (Nat.lt_of_lt_of_le hi ha.width), if_pos hi, getD_map hi,
      ha.lane hi]

theorem computes_unary (op : UnaryOp) (ha : Holds w s a scalar xs) :
    Computes start (unary op a) w s scalar (xs.map (Machine.unary op scalar)) := by
  refine computes_pointwise ha ⟨by simpa [Op.values] using ha.defined, by simp [Op.place?]⟩ ?_ ?_
  · rw [opShape, ha.shape]
  · simp only [eval, ha.scalar_program]

theorem computes_builtin {f : Builtin} (hf : f ≠ .dot) {args : List Value} {lists : List (List Lane)}
    {n : Nat} (h : Forall₂ (fun v xs => Holds w s v scalar xs) args lists) (hne : args ≠ [])
    (hlen : ∀ xs ∈ lists, xs.length = n) :
    Computes start (builtin f args) w s scalar
      ((range n).map fun i => Machine.builtin f (lists.map (·.getD i 0#32))) := by
  have held (v : Value) (hv : v ∈ args) : ∃ xs : List Lane, Holds w s v scalar xs ∧ xs.length = n := by
    induction h with
    | nil => cases hv
    | @cons u xs us ys hu _ ih =>
      obtain rfl | hv := mem_cons.1 hv
      · exact ⟨xs, hu, hlen xs mem_cons_self⟩
      · exact ih (ne_nil_of_mem hv) (fun xs hxs => hlen xs (.tail _ hxs)) hv
  have lanes (i : Nat) (hi : i < n) :
      args.map (s.lane (.ofShapes w.listing.shapes) · i) = lists.map (·.getD i 0#32) := by
    clear hne held
    induction h with
    | nil => rfl
    | cons hv _ ih =>
      rw [map_cons, map_cons, ih fun xs hxs => hlen xs (.tail _ hxs),
        hv.lane (by rw [hlen _ mem_cons_self]; exact hi)]
  obtain ⟨v, rest, rfl⟩ := exists_cons_of_ne_nil hne
  obtain ⟨xs, hv, hn⟩ := held v mem_cons_self
  have counts : (v :: rest).map w.listing.countOf = replicate (rest.length + 1) n := by
    refine eq_replicate_iff.2 ⟨by simp, fun c hc => ?_⟩
    obtain ⟨u, hu, rfl⟩ := mem_map.1 hc
    obtain ⟨ys, hu, hy⟩ := held u hu
    rw [hu.countOf, hy]
  have widest : w.listing.widest (v :: rest) = ⟨scalar, n⟩ := by
    rw [widest, counts, max?_replicate_of_pos (Nat.succ_pos _), head?_cons,
      Option.map_some, hv.scalarOf]
    rfl
  refine computes_define ⟨fun u hu => ?_, by simp [Op.place?]⟩
    (by simpa [hn] using hv.pos) (by simpa [hn] using hv.width) (fun _ => ?_) fun i hi => ?_
  · rw [Op.values.eq_def] at hu
    obtain ⟨_, hu, _⟩ := held u (by cases f <;> first | exact hu | exact absurd rfl hf)
    exact hu.defined
  · rw [opShape, widest, length_map, length_range]
    exact hf
  · have hi' : i < n := by simpa using hi
    rw [getD_eq_getElem _ _ hi, getElem_map, getElem_range, ← lanes i hi',
      eval, get_fill _ _ (Nat.lt_of_lt_of_le hi' (hn ▸ hv.width)), if_pos hi]
    exact hf

theorem computes_builtin_one {f : Builtin} (hf : f ≠ .dot) (ha : Holds w s a scalar xs) :
    Computes start (builtin f [a]) w s scalar (xs.map fun x => Machine.builtin f [x]) := by
  refine (computes_builtin hf (.cons ha .nil) (by simp) (n := xs.length)
    (by simp)).of_eq ?_
  refine ext_getElem (by simp) fun i hi _ => ?_
  have hi' : i < xs.length := by simpa using hi
  simp [hi']

theorem computes_convert (conversion : Conversion) (target : Scalar) (ha : Holds w s a scalar xs) :
    Computes start (convert conversion a target) w s target
      (xs.map (Machine.convert conversion scalar target)) := by
  refine computes_pointwise ha ⟨by simpa [Op.values] using ha.defined, by simp [Op.place?]⟩ ?_ ?_
  · rw [opShape, ha.countOf]
  · simp only [eval, ha.scalar_program]

theorem computes_bitcast (target : Scalar) (ha : Holds w s a scalar xs) :
    Computes start (convert .bitcast a target) w s target xs := by
  refine (computes_convert .bitcast target ha).of_eq ?_
  rw [show Machine.convert .bitcast scalar target = id from funext fun _ => by
    simp [Machine.convert], map_id]

theorem computes_select {c : Value} {conditionScalar : Scalar} {x : Lane}
    (hc : Holds w s c conditionScalar [x]) (ha : Holds w s a scalar xs)
    (hb : Holds w s b scalar ys) (h : ys.length = xs.length) :
    Computes start (select c a b) w s scalar (if x ≠ 0#32 then xs else ys) := by
  have hlen : (if x ≠ 0#32 then xs else ys).length = xs.length := by split <;> simp [h]
  refine computes_define
    ⟨by simpa [Op.values] using ⟨hc.defined, ha.defined, hb.defined⟩, by simp [Op.place?]⟩
    (hlen ▸ ha.pos) (hlen ▸ ha.width) (fun hw => ?_) fun i hi => ?_
  · rw [opShape, selectShape, hw.target, hlen]
    exact widest_pair ha hb h
  · rw [hlen] at hi
    simp only [eval]
    rw [hlen, get_fill _ _ (Nat.lt_of_lt_of_le hi ha.width), if_pos hi,
      hc.lane_single, ha.lane hi, hb.lane (h ▸ hi)]
    split <;> rfl

theorem computes_load (hp : w.listing.Declares place)
    (hshape : (w.listing.variableAt place).shape = ⟨scalar, count⟩) (hpos : 0 < count)
    (hwidth : count ≤ 4) :
    Computes start (load place) w s scalar ((range count).map (s.read place).get) := by
  refine computes_define ⟨by simp [Op.values], by simpa [Op.place?] using hp⟩ (by simpa using hpos)
    (by simpa using hwidth) (fun _ => ?_) fun i hi => ?_
  · rw [opShape, hshape, length_map, length_range]
  · simp only [eval]
    rw [getD_eq_getElem _ _ hi, getElem_map, getElem_range]

theorem emits_element {index : Nat} {E : Error → Workspace → Prop} :
    Emits (.quiet start) (element place index) w s
      (fun p _ _ => p = { place with path := place.path ++ [index] }) E := by
  intro hw
  exact ⟨s, ⟨hw, .one (.element place index), rfl, rfl, rfl, rfl, rfl⟩, rfl⟩

theorem emits_declare {v : Variable} {E : Error → Workspace → Prop} :
    Emits (.runs start) (declare v) w s
      (fun place w' s' => place = ⟨w.listing.vars.size, []⟩ ∧
        w' = { w with listing := (w.listing.declare v).2 } ∧
        s' = { s with vars := s.vars.push (fresh start s.vars.size v) }) E := by
  intro hw
  exact ⟨_, ⟨hw, .one (.declare v)⟩, rfl, rfl, rfl⟩

theorem emits_store {E : Error → Workspace → Prop} (hp : w.listing.Declares place)
    (hv : w.listing.Defines v) :
    Emits (.runs start) (store place v) w s
      (fun _ w' s' => w' = { w with listing := w.listing.push (.store place v) } ∧
        s' = s.write place (s.lanes v)) E := by
  intro hw
  exact ⟨_, ⟨hw, .one (.store place v hp hv)⟩, rfl, rfl⟩

end Microcode
