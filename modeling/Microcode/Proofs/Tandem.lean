import Microcode.Access.Numeric
import Mathlib.Data.Option.Defs
import Microcode.Proofs.Agreement
import Microcode.Proofs.Resolution

/-!
Guarded code beside the same code without guards.

Two workspaces start alike.  On the left every store is guarded by one condition, and on the right
nothing is.  A `Tandem` is a pair of such workspaces with the states that their code has led to.  It
says which variables correspond, since the left side has declared the predicate register that its
condition tests and the right side may not have.

Where the condition holds, corresponding variables hold the same components.  Where it does not,
the left side has changed nothing.  The first needs that operands fit, and is stated for the case
that the two listings turn out to be well typed; no bound on components has to be carried along.
-/

namespace Microcode

open Machine Emit List

variable {map map' : List (Nat × Nat)} {p p' : Place} {s' : State}

/-- Where two runs start: the common workspace, the machine states of the guarded run and of the
plain one, the value that guards, and the predicate register that it tests. -/
structure Course where
  base : Workspace
  before : State
  before' : State
  guard : Value
  slot : Nat

/-- The variable of a predicate register. -/
def predicateVariable (slot : Nat) : Variable := ⟨"p" ++ toString slot, Shape.bool, .hidden⟩

/-- Places at the same path of corresponding variables. -/
structure Place.Matches (map : List (Nat × Nat)) (p p' : Place) : Prop where
  mem : (p.variableIndex, p'.variableIndex) ∈ map
  path : p'.path = p.path

structure Register.Matches (map : List (Nat × Nat)) (r r' : Register) : Prop where
  place : r.place.Matches map r'.place
  lanes : r'.lanes = r.lanes
  base : r'.base = r.base

theorem Place.Matches.mono (h : p.Matches map p') (hmap : ∀ a ∈ map, a ∈ map') :
    p.Matches map' p' := ⟨hmap _ h.mem, h.path⟩

theorem Register.Matches.mono {r r' : Register} (h : r.Matches map r')
    (hmap : ∀ a ∈ map, a ∈ map') : r.Matches map' r' := ⟨h.place.mono hmap, h.lanes, h.base⟩

theorem Place.Matches.elementIndex (h : p.Matches map p') :
    State.elementIndex p' = State.elementIndex p := by
  rw [State.elementIndex, State.elementIndex, h.path]

namespace Course

/-- How the storage of a predicate register on the left corresponds to that on the right.  The one
that the guard tests may not be declared on the right yet. -/
inductive PredicateMatches (σ : Course) (map : List (Nat × Nat)) (l : Listing) (s : State)
    (slot : Nat) : Option Place → Option Place → Prop
  | none : PredicateMatches σ map l s slot none none
  | both {p p' : Place} (h : p.Matches map p') : PredicateMatches σ map l s slot (some p) (some p')
  | pending {x : Nat} (tested : slot = σ.slot) (unmatched : ∀ a ∈ map, a.1 ≠ x)
      (declared : x < l.vars.size) (is_predicate : l.vars.getD x default = predicateVariable slot)
      (unchanged : (s.read ⟨x, []⟩).x = (σ.before.read ⟨x, []⟩).x) :
    PredicateMatches σ map l s slot (some ⟨x, []⟩) none

/-- Nothing changes when variables are declared and matched that are new on the left. -/
theorem PredicateMatches.mono {σ : Course} {l l' : Listing} {s : State} {slot : Nat}
    {p p' : Option Place} (h : σ.PredicateMatches map l s slot p p') (hmap : ∀ a ∈ map, a ∈ map')
    (hnew : ∀ a ∈ map', a ∈ map ∨ l.vars.size ≤ a.1) (hl : l.Extends l')
    (hread : ∀ {p}, l.Declares p → s'.read p = s.read p) :
    σ.PredicateMatches map' l' s' slot p p' := by
  cases h with
  | none => exact .none
  | both hp => exact .both (hp.mono hmap)
  | @pending x tested unmatched declared is_predicate unchanged =>
    apply PredicateMatches.pending tested
    · intro a ha
      rcases hnew a ha with ha | hle
      · exact unmatched a ha
      · exact Nat.ne_of_gt (Nat.lt_of_lt_of_le declared hle)
    · exact Nat.lt_of_lt_of_le declared hl.vars_size
    · rw [hl.vars x declared]
      exact is_predicate
    · have hdeclared : l.Declares ⟨x, []⟩ := declared
      rw [hread hdeclared]
      exact unchanged

/-- The guard holds, both listings are well typed, and corresponding variables started alike. -/
structure Linked (σ : Course) (map : List (Nat × Nat)) (l l' : Listing) (s : State) : Prop where
  holds : (s.lanes σ.guard).x ≠ 0#32
  typed : l.WellTyped
  typed' : l'.WellTyped
  started : ∀ a ∈ map, σ.before'.held a.2 = σ.before.held a.1

/-- No lane and no predicate register has changed since the start. -/
structure Still (σ : Course) (w : Workspace) (s : State) : Prop where
  lanes : ∀ {bank lane x}, σ.base.registers.laneAt σ.before bank lane = some x →
    w.registers.laneAt s bank lane = some x
  predicates : ∀ {slot place}, slot < 4 → w.registers.predicates.get slot = some place →
    (s.read place).x = (σ.before.read place).x

end Course

/-- Two workspaces side by side, with the states of their code. -/
structure Tandem (σ : Course) where
  left : Workspace
  right : Workspace
  leftState : State
  rightState : State
  /-- The variables that correspond. -/
  map : List (Nat × Nat)
  goodLeft : Good left leftState
  goodRight : Good right rightState
  increments : right.increments = left.increments
  tables : right.registers.tables = left.registers.tables
  bound : ∀ {bank lane found}, left.registers.bound? bank lane = some found →
    found.register.place.Matches map found.register.place
  shadows : ∀ bank group, Option.Rel (Register.Matches map) (left.registers.shadow? bank group)
    (right.registers.shadow? bank group)
  predicates : ∀ slot, slot < 4 → σ.PredicateMatches map left.listing leftState slot
    (left.registers.predicates.get slot) (right.registers.predicates.get slot)
  injective : ∀ a ∈ map, ∀ b ∈ map, a.1 = b.1 ↔ a.2 = b.2
  declared : ∀ a ∈ map, a.1 < left.listing.vars.size ∧ a.2 < right.listing.vars.size
  alike : ∀ a ∈ map,
    right.listing.vars.getD a.2 default = left.listing.vars.getD a.1 default
  memory : leftState.memory = σ.before.memory
  memory' : rightState.memory = leftState.memory
  guard_defined : left.listing.Defines σ.guard
  guard_shape : left.listing.shapeOf σ.guard = Shape.bool
  same : σ.Linked map left.listing right.listing leftState → ∀ {p p' : Place}, p.Matches map p' →
    State.elementIndex p < (left.listing.variableAt p).length →
      ∀ i, i < (left.listing.variableAt p).shape.count →
        (rightState.read p').get i = (leftState.read p).get i
  still : (leftState.lanes σ.guard).x = 0#32 → σ.Still left leftState

namespace Tandem

variable {σ : Course} {W W' W'' : Tandem σ}

/-- The code of both sides has gone on. -/
structure Later (W W' : Tandem σ) : Prop where
  left : Steps σ.before.held W.left.listing W.leftState W'.left.listing W'.leftState
  right : Steps σ.before'.held W.right.listing W.rightState W'.right.listing W'.rightState
  map : ∀ a ∈ W.map, a ∈ W'.map
  predicates : ∀ {slot place}, slot < 4 → W.left.registers.predicates.get slot = some place →
    W'.left.registers.predicates.get slot = some place

theorem Later.refl (W : Tandem σ) : W.Later W := ⟨.refl, .refl, fun _ h => h, fun _ h => h⟩

theorem Later.trans (h : W.Later W') (h' : W'.Later W'') : W.Later W'' :=
  ⟨h.left.trans h'.left, h.right.trans h'.right, fun a ha => h'.map a (h.map a ha),
    fun hslot hp => h'.predicates hslot (h.predicates hslot hp)⟩

def Linked (W : Tandem σ) : Prop := σ.Linked W.map W.left.listing W.right.listing W.leftState

end Tandem

theorem Course.Linked.before {σ : Course} {l l' m m' : Listing} {s t t' : State}
    (h : σ.Linked map' l' m' s') (hmap : ∀ a ∈ map, a ∈ map') (hl : Steps σ.before.held l s l' s')
    (hm : Steps σ.before'.held m t m' t') (hs : s.Fits l) (hguard : l.Defines σ.guard) :
    σ.Linked map l m s where
  holds := by rw [← hl.lanes_eq hs hguard]; exact h.holds
  typed := hl.wellTyped h.typed
  typed' := hm.wellTyped h.typed'
  started a ha := h.started a (hmap a ha)

namespace Tandem

variable {σ : Course} {W W' : Tandem σ}

theorem Later.linked (h : W.Later W') (hW : W'.Linked) : W.Linked :=
  Course.Linked.before hW h.map h.left h.right W.goodLeft.live.fits W.guard_defined

/-! ## Corresponding values -/

/-- Values with the same shape, and with the same components as far as that is known. -/
structure Val (W : Tandem σ) (v v' : Value) : Prop where
  defined : W.left.listing.Defines v
  defined' : W.right.listing.Defines v'
  shape : W.right.listing.shapeOf v' = W.left.listing.shapeOf v
  lanes : W.Linked → ∀ i, i < W.left.listing.countOf v →
    (W.rightState.lanes v').get i = (W.leftState.lanes v).get i

theorem Val.later {v v' : Value} (h : W.Val v v') (hW : W.Later W') : W'.Val v v' where
  defined := hW.left.extension.defines h.defined
  defined' := hW.right.extension.defines h.defined'
  shape := by
    rw [hW.left.extension.shapeOf h.defined, hW.right.extension.shapeOf h.defined']
    exact h.shape
  lanes hlinked i hi := by
    rw [Listing.countOf, hW.left.extension.shapeOf h.defined] at hi
    rw [hW.left.lanes_eq W.goodLeft.live.fits h.defined,
      hW.right.lanes_eq W.goodRight.live.fits h.defined']
    exact h.lanes (hW.linked hlinked) i hi

/-- Corresponding places. -/
def Storage (W : Tandem σ) (p p' : Place) : Prop := p.Matches W.map p'

theorem Storage.declares (h : W.Storage p p') :
    W.left.listing.Declares p ∧ W.right.listing.Declares p' := W.declared _ h.mem

theorem Storage.variableAt (h : W.Storage p p') :
    W.right.listing.variableAt p' = W.left.listing.variableAt p := W.alike _ h.mem

/-! ## Code that changes no variable -/

/-- Code that only defines values. -/
def quiet (W : Tandem σ) {w w' : Workspace} {s s' : State}
    (h : Quiet σ.before.held W.left W.leftState w s)
    (h' : Quiet σ.before'.held W.right W.rightState w' s') : Tandem σ where
  left := w
  right := w'
  leftState := s
  rightState := s'
  map := W.map
  goodLeft := ⟨h.live_after, by rw [h.registers]; exact W.goodLeft.registers.mono h.steps.extension⟩
  goodRight :=
    ⟨h'.live_after, by rw [h'.registers]; exact W.goodRight.registers.mono h'.steps.extension⟩
  increments := by rw [h.increments, h'.increments, W.increments]
  tables := by rw [h.registers, h'.registers, W.tables]
  bound hb := W.bound (h.registers ▸ hb)
  shadows := by rw [h.registers, h'.registers]; exact W.shadows
  predicates slot hslot := by
    rw [h.registers, h'.registers]
    exact (W.predicates slot hslot).mono (fun _ ha => ha) (fun _ ha => .inl ha) h.steps.extension
      fun _ => h.read _
  injective := W.injective
  declared := by rw [h.declared, h'.declared]; exact W.declared
  alike := by rw [h.declared, h'.declared]; exact W.alike
  memory := h.memory.trans W.memory
  memory' := by rw [h.memory, h'.memory, W.memory']
  guard_defined := h.steps.extension.defines W.guard_defined
  guard_shape := (h.steps.extension.shapeOf W.guard_defined).trans W.guard_shape
  same hlinked p p' hp hin i hi := by
    rw [Listing.variableAt, h.declared] at hin hi
    rw [h.read, h'.read]
    exact W.same (hlinked.before (fun _ ha => ha) h.steps h'.steps W.goodLeft.live.fits
      W.guard_defined) hp hin i hi
  still hguard := by
    rw [h.steps.lanes_eq W.goodLeft.live.fits W.guard_defined] at hguard
    have hstill := W.still hguard
    constructor
    · intro bank lane x hx
      rw [h.laneAt]
      exact hstill.lanes hx
    · intro slot place hslot hplace
      rw [h.read]
      exact hstill.predicates hslot (h.registers ▸ hplace)

theorem later_quiet (W : Tandem σ) {w w' : Workspace} {s : State}
    (h : Quiet σ.before.held W.left W.leftState w s)
    (h' : Quiet σ.before'.held W.right W.rightState w' s') : W.Later (W.quiet h h') :=
  ⟨h.steps, h'.steps, fun _ ha => ha, fun _ hp => h.registers ▸ hp⟩

/-! ## Computations side by side -/

/-- If both computations succeed, they end in a later tandem with results that correspond. -/
def Sim (W : Tandem σ) {α β : Type} (x : Emit α) (y : Emit β) (Q : Tandem σ → α → β → Prop) : Prop :=
  ∀ a w b w', x W.left = .ok a w → y W.right = .ok b w' →
    ∃ W' : Tandem σ, W.Later W' ∧ W'.left = w ∧ W'.right = w' ∧ Q W' a b

namespace Sim

variable {α β γ δ : Type} {x : Emit α} {y : Emit β} {f : α → Emit γ} {g : β → Emit δ}
  {Q : Tandem σ → α → β → Prop} {R : Tandem σ → γ → δ → Prop}

theorem pure {a : α} {b : β} (h : Q W a b) : W.Sim (Pure.pure a) (Pure.pure b) Q := by
  intro a' w b' w' ha hb
  cases ha
  cases hb
  exact ⟨W, .refl W, rfl, rfl, h⟩

theorem throw {e : Error} : W.Sim (throw e : Emit α) y Q := by
  intro a w b w' ha
  cases ha

theorem bind (hx : W.Sim x y Q) (hf : ∀ W' a b, W.Later W' → Q W' a b → W'.Sim (f a) (g b) R) :
    W.Sim (x >>= f) (y >>= g) R := by
  intro c w d w' hc hd
  obtain ⟨a, w1, ha, hc⟩ := Emit.bind_eq_ok hc
  obtain ⟨b, w1', hb, hd⟩ := Emit.bind_eq_ok hd
  obtain ⟨W1, h1, rfl, rfl, hQ⟩ := hx a w1 b w1' ha hb
  obtain ⟨W2, h2, hleft, hright, hR⟩ := hf W1 a b h1 hQ c w d w' hc hd
  exact ⟨W2, h1.trans h2, hleft, hright, hR⟩

theorem ite {p : Prop} [Decidable p] {x' : Emit α} {y' : Emit β} (hx : p → W.Sim x y Q)
    (hx' : ¬ p → W.Sim x' y' Q) : W.Sim (if p then x else x') (if p then y else y') Q := by
  by_cases hp : p
  · rw [if_pos hp, if_pos hp]
    exact hx hp
  · rw [if_neg hp, if_neg hp]
    exact hx' hp

end Sim

/-! ## What corresponds -/

/-- When two things of a type correspond, and that they go on doing so. -/
class Related (σ : Course) (α : Type) where
  rel : Tandem σ → α → α → Prop
  later : ∀ {W W' : Tandem σ} {a b : α}, W.Later W' → rel W a b → rel W' a b

/-- What is the same on both sides. -/
@[reducible] def Related.same (σ : Course) (α : Type) : Related σ α :=
  ⟨fun _ a b => a = b, fun _ h => h⟩

/-- Things of the type correspond only to themselves. -/
class Data (σ : Course) (α : Type) [Related σ α] : Prop where
  eq : ∀ {W : Tandem σ} {a b : α}, Related.rel W a b → a = b
  self : ∀ (W : Tandem σ) (a : α), Related.rel W a a

instance : Related σ Value := ⟨Val, fun h hv => hv.later h⟩
instance : Related σ Place := ⟨Storage, fun h hp => hp.mono h.map⟩
instance : Related σ Nat := .same σ Nat
instance : Related σ Int := .same σ Int
instance : Related σ Unit := .same σ Unit
instance : Related σ Shape := .same σ Shape
instance : Related σ Scalar := .same σ Scalar
instance : Related σ (Quad Int) := .same σ (Quad Int)
instance : Related σ Access.Pick := .same σ Access.Pick
instance {α : Type} : @Data σ α (.same σ α) :=
  let _ := Related.same σ α
  ⟨id, fun _ _ => rfl⟩

instance {α : Type} [Related σ α] : Related σ (List α) where
  rel W := List.Forall₂ (Related.rel W)
  later h hs := hs.imp fun _ _ => Related.later h

instance {α : Type} [Related σ α] [Data σ α] : Data σ (List α) where
  eq h := by
    have heq := h.imp fun _ _ => Data.eq
    rw [forall₂_eq_eq_eq] at heq
    exact heq
  self W as := forall₂_same.2 fun a _ => Data.self W a

instance {α : Type} [Related σ α] : Related σ (Option α) where
  rel W := Option.Rel (Related.rel W)
  later h hs := by
    cases hs with
    | none => exact .none
    | some hab => exact .some (Related.later h hab)

instance {α : Type} [Related σ α] [Data σ α] : Data σ (Option α) where
  eq h := by
    cases h with
    | none => rfl
    | some hab => rw [Data.eq hab]
  self W a := by
    cases a with
    | none => exact .none
    | some a => exact .some (Data.self W a)

instance {α β : Type} [Related σ α] [Related σ β] : Related σ (α × β) where
  rel W a b := Related.rel W a.1 b.1 ∧ Related.rel W a.2 b.2
  later h hs := ⟨Related.later h hs.1, Related.later h hs.2⟩

/-- Two things that correspond. -/
structure Pair (W : Tandem σ) (α : Type) [Related σ α] where
  left : α
  right : α
  rel : Related.rel W left right

/-- A tandem after this one. -/
structure After (W : Tandem σ) where
  tandem : Tandem σ
  later : W.Later tandem

class Twins {α : Type} [Related σ α] (W : Tandem σ) (a b : α) : Prop where
  rel : Related.rel W a b

/-- The computations go side by side. -/
class Sided {α : Type} [Related σ α] (W : Tandem σ) (x y : Emit α) : Prop where
  sim : W.Sim x y Related.rel

section

variable {α β γ : Type} [Related σ α] [Related σ β] [Related σ γ]

instance twins_pair (p : Pair W α) : Twins W p.left p.right := ⟨p.rel⟩

instance twins_after (W' : After W) (a b : α) [Twins W a b] : Twins W'.tandem a b :=
  ⟨Related.later W'.later Twins.rel⟩

instance twins_fst (p q : α × β) [h : Twins W p q] : Twins W p.1 q.1 := ⟨h.rel.1⟩

instance twins_snd (p q : α × β) [h : Twins W p q] : Twins W p.2 q.2 := ⟨h.rel.2⟩

instance twins_mk (a b : α) (c d : β) [h : Twins W a b] [h' : Twins W c d] :
    Twins W (a, c) (b, d) := ⟨h.rel, h'.rel⟩

instance twins_nil : Twins W ([] : List α) [] := ⟨.nil⟩

instance twins_cons (a b : α) (as bs : List α) [h : Twins W a b] [h' : Twins W as bs] :
    Twins W (a :: as) (b :: bs) := ⟨.cons h.rel h'.rel⟩

instance (priority := low) twins_data [Data σ α] (a : α) : Twins W a a := ⟨Data.self W a⟩

instance sided_pure (a b : α) [h : Twins W a b] : Sided W (pure a) (pure b) := ⟨.pure h.rel⟩

instance sided_throw (e e' : Error) : Sided W (throw e : Emit α) (throw e') := ⟨.throw⟩

instance sided_unsupported (what what' : Unsupported) :
    Sided W (Emit.unsupported what : Emit α) (Emit.unsupported what') := ⟨.throw⟩

instance sided_bind (x y : Emit α) (f g : α → Emit β) [h : Sided W x y]
    [hf : ∀ (W' : After W) (p : Pair W'.tandem α), Sided W'.tandem (f p.left) (g p.right)] :
    Sided W (x >>= f) (y >>= g) :=
  ⟨.bind h.sim fun W' a b h1 hab => (hf ⟨W', h1⟩ ⟨a, b, hab⟩).sim⟩

theorem Sided.of_data [Data σ α] (p : Pair W α) {f g : α → Emit β}
    (h : ∀ a, Sided W (f a) (g a)) : Sided W (f p.left) (g p.right) := Data.eq p.rel ▸ h p.left

instance (priority := high) sided_bindData [Data σ α] (x y : Emit α) (f g : α → Emit β)
    [h : Sided W x y] [hf : ∀ (W' : After W) (a : α), Sided W'.tandem (f a) (g a)] :
    Sided W (x >>= f) (y >>= g) :=
  ⟨.bind h.sim fun W' a b h1 hab => (Sided.of_data ⟨a, b, hab⟩ (hf ⟨W', h1⟩)).sim⟩

theorem Sided.data_cases [Data σ α] {x y : Emit α} {f g : α → Emit β} [Sided W x y]
    (h : ∀ (W' : After W) (a : α), Sided W'.tandem (f a) (g a)) : Sided W (x >>= f) (y >>= g) :=
  inferInstance

theorem Sided.bind_cases {x y : Emit α} {f g : α → Emit β} [Sided W x y]
    (h : ∀ (W' : After W) (p : Pair W'.tandem α), Sided W'.tandem (f p.left) (g p.right)) :
    Sided W (x >>= f) (y >>= g) := sided_bind x y f g

instance sided_map (h : α → β) (x y : Emit α)
    [Sided W (x >>= fun a => pure (h a)) (y >>= fun a => pure (h a))] :
    Sided W (h <$> x) (h <$> y) := by
  rw [map_eq_pure_bind, map_eq_pure_bind]
  infer_instance

instance sided_ite (p : Prop) [Decidable p] (x y x' y' : Emit α) [h : Sided W x y]
    [h' : Sided W x' y'] : Sided W (if p then x else x') (if p then y else y') :=
  ⟨.ite (fun _ => h.sim) fun _ => h'.sim⟩

theorem Sided.mapM_cases {as bs : List α} {f g : α → Emit β} [h : Twins W as bs]
    (hf : ∀ (W' : After W) (p : Pair W'.tandem α), Sided W'.tandem (f p.left) (g p.right)) :
    Sided W (as.mapM f) (bs.mapM g) := by
  have hrel : List.Forall₂ (Related.rel W) as bs := h.rel
  clear h
  induction as generalizing W bs with
  | nil =>
    cases hrel
    rw [mapM_nil, mapM_nil]
    infer_instance
  | cons a rest ih =>
    cases hrel with
    | @cons _ b _ rest' hab hrest =>
      have (W' : After W) : Sided W'.tandem (rest.mapM f) (rest'.mapM g) :=
        ih (fun W'' => hf ⟨W''.tandem, W'.later.trans W''.later⟩)
          (hrest.imp fun _ _ => Related.later W'.later)
      have : Sided W (f a) (g b) := hf ⟨W, .refl W⟩ ⟨a, b, hab⟩
      rw [mapM_cons, mapM_cons]
      infer_instance

theorem Sided.foldlM_cases {as bs : List α} {f g : β → α → Emit β} {b c : β} [h : Twins W as bs]
    [hb : Twins W b c] (hf : ∀ (W' : After W) (p : Pair W'.tandem β) (q : Pair W'.tandem α),
      Sided W'.tandem (f p.left q.left) (g p.right q.right)) :
    Sided W (as.foldlM f b) (bs.foldlM g c) := by
  have hrel : List.Forall₂ (Related.rel W) as bs := h.rel
  clear h
  induction as generalizing W bs b c with
  | nil =>
    cases hrel
    exact sided_pure b c
  | cons x as ih =>
    cases hrel with
    | @cons _ y _ bs hxy hrest =>
      have : Sided W (f b x) (g c y) := hf ⟨W, .refl W⟩ ⟨b, c, hb.rel⟩ ⟨x, y, hxy⟩
      rw [foldlM_cons, foldlM_cons]
      apply Sided.bind_cases
      intro W' p
      apply ih
      · exact fun W'' => hf ⟨W''.tandem, W'.later.trans W''.later⟩
      · exact hrest.imp fun _ _ => Related.later W'.later

theorem forM_eq_foldlM {A : Type} (as : List A) (f : A → Emit Unit) :
    as.forM f = as.foldlM (fun _ => f) () := by
  induction as with
  | nil => rfl
  | cons a as ih =>
    show (f a >>= fun _ => as.forM f) = f a >>= fun _ => as.foldlM (fun _ => f) ()
    rw [ih]

theorem Sided.forM_cases {as bs : List α} {f g : α → Emit Unit} [h : Twins W as bs]
    (hf : ∀ (W' : After W) (p : Pair W'.tandem α), Sided W'.tandem (f p.left) (g p.right)) :
    Sided W (as.forM f) (bs.forM g) := by
  rw [forM_eq_foldlM, forM_eq_foldlM]
  exact Sided.foldlM_cases fun W' _ p => hf W' p

instance (priority := low) sided_mapM_twins (xs ys : List α) (f g : α → Emit β)
    [h : Twins W xs ys]
    [hf : ∀ (W' : After W) (p : Pair W'.tandem α), Sided W'.tandem (f p.left) (g p.right)] :
    Sided W (xs.mapM f) (ys.mapM g) := .mapM_cases hf

instance sided_mapM {A : Type} (xs : List A) (f g : A → Emit α)
    [hf : ∀ (W' : After W) (a : A), Sided W'.tandem (f a) (g a)] :
    Sided W (xs.mapM f) (xs.mapM g) :=
  let _ := Related.same σ A
  .mapM_cases fun W' p => .of_data p (hf W')

instance sided_forM {A : Type} (xs : List A) (f g : A → Emit Unit)
    [hf : ∀ (W' : After W) (a : A), Sided W'.tandem (f a) (g a)] :
    Sided W (xs.forM f) (xs.forM g) :=
  let _ := Related.same σ A
  .forM_cases fun W' p => .of_data p (hf W')

instance sided_foldlM {A : Type} (xs : List A) (f g : α → A → Emit α) (a b : α) [h : Twins W a b]
    [hf : ∀ (W' : After W) (p : Pair W'.tandem α) (c : A),
      Sided W'.tandem (f p.left c) (g p.right c)] :
    Sided W (xs.foldlM f a) (xs.foldlM g b) :=
  let _ := Related.same σ A
  .foldlM_cases fun W' p q => .of_data q (hf W' p)

instance sided_get (f g : Workspace → Emit α) [h : Sided W (f W.left) (g W.right)] :
    Sided W (get >>= f) (get >>= g) := ⟨h.sim⟩

end

/-! ## Requests -/

section

variable {α : Type} [Related σ α]

theorem sided_define {op op' : Op} (h : Op.Alike W.Val W.Storage op op') :
    Sided W (define op) (define op') := by
  constructor
  intro v w v' w' hv hv'
  cases hv
  cases hv'
  obtain ⟨hscoped, hscoped'⟩ := h.scoped (fun _ _ hv => ⟨hv.defined, hv.defined'⟩)
    fun _ _ hp => hp.declares
  have q : Quiet σ.before.held W.left W.leftState
      { W.left with listing := (W.left.listing.define op).2 } _ :=
    ⟨W.goodLeft.live, .one (.define op hscoped), rfl, rfl, rfl, rfl, rfl⟩
  have q' : Quiet σ.before'.held W.right W.rightState
      { W.right with listing := (W.right.listing.define op').2 } _ :=
    ⟨W.goodRight.live, .one (.define op' hscoped'), rfl, rfl, rfl, rfl, rfl⟩
  have hlater := W.later_quiet q q'
  have htarget : W.right.listing.target = W.left.listing.target :=
    W.goodRight.live.target.trans W.goodLeft.live.target.symm
  have hshape : W.right.listing.opShape op' = W.left.listing.opShape op :=
    h.opShape htarget (fun hv => hv.shape) fun hp => congrArg Variable.shape hp.variableAt
  refine ⟨W.quiet q q', hlater, rfl, rfl, ?_⟩
  constructor
  · show W.left.listing.shapes.size < (W.left.listing.shapes.push _).size
    simp
  · show W.right.listing.shapes.size < (W.right.listing.shapes.push _).size
    simp
  · exact (W.right.listing.shapeOf_define op').trans
      (hshape.trans (W.left.listing.shapeOf_define op).symm)
  · intro hlinked i hi
    have hbefore := hlater.linked hlinked
    have hi : i < (W.left.listing.opShape op).count := by
      rw [← W.left.listing.shapeOf_define op]
      exact hi
    obtain ⟨hl, hadmits⟩ := Listing.WellTyped.of_add (e := .define (W.left.listing.opShape op) op)
      hlinked.typed
    cases hadmits with
    | define typed =>
      show ((W.rightState.values.push _).getD W.right.listing.shapes.size _).get i =
        ((W.leftState.values.push _).getD W.left.listing.shapes.size _).get i
      rw [← W.goodRight.live.fits.values, ← W.goodLeft.live.fits.values, getD_push_size,
        getD_push_size, hshape]
      exact h.eval hl.proper typed (fun hv => hv.shape) (fun hv => hv.lanes hbefore)
        (fun hp => W.same hbefore hp) W.memory' hi

theorem sided_push {e e' : Entry} (h : Step σ.before.held W.left.listing W.leftState
      (W.left.listing.push e) W.leftState)
    (h' : Step σ.before'.held W.right.listing W.rightState (W.right.listing.push e')
      W.rightState) : Sided W (push e) (push e') := by
  constructor
  intro _ w _ w' hw hw'
  cases hw
  cases hw'
  have q : Quiet σ.before.held W.left W.leftState { W.left with listing := _ } _ :=
    ⟨W.goodLeft.live, .one h, rfl, rfl, rfl, rfl, rfl⟩
  have q' : Quiet σ.before'.held W.right W.rightState { W.right with listing := _ } _ :=
    ⟨W.goodRight.live, .one h', rfl, rfl, rfl, rfl, rfl⟩
  exact ⟨W.quiet q q', W.later_quiet q q', rfl, rfl, rfl⟩

instance sided_reuse (op op' : Op) (v v' : Value) [Twins W v v'] :
    Sided W (reuse op v) (reuse op' v') := by
  have : Sided W (push (.reuse op v)) (push (.reuse op' v')) :=
    sided_push (.reuse op v) (.reuse op' v')
  unfold reuse
  infer_instance

instance sided_constant (c : Constant) : Sided W (constant c) (constant c) :=
  sided_define (.constant c)

instance sided_load (p p' : Place) [h : Twins W p p'] : Sided W (Emit.load p) (Emit.load p') :=
  sided_define (.load h.rel)

instance sided_shuffle (a b a' b' : Value) (indices : List Nat) [ha : Twins W a a']
    [hb : Twins W b b'] : Sided W (shuffle a b indices) (shuffle a' b' indices) :=
  sided_define (.shuffle ha.rel hb.rel indices)

instance sided_binary (op : BinaryOp) (a b a' b' : Value) [ha : Twins W a a'] [hb : Twins W b b'] :
    Sided W (binary op a b) (binary op a' b') := sided_define (.binary op ha.rel hb.rel)

instance sided_unary (op : UnaryOp) (a a' : Value) [ha : Twins W a a'] :
    Sided W (unary op a) (unary op a') := sided_define (.unary op ha.rel)

instance sided_compare (op : CompareOp) (a b a' b' : Value) [ha : Twins W a a']
    [hb : Twins W b b'] : Sided W (compare op a b) (compare op a' b') :=
  sided_define (.compare op ha.rel hb.rel)

instance sided_select (c a b c' a' b' : Value) [hc : Twins W c c'] [ha : Twins W a a']
    [hb : Twins W b b'] : Sided W (select c a b) (select c' a' b') :=
  sided_define (.select hc.rel ha.rel hb.rel)

instance sided_builtin (f : Builtin) (a a' : Value) (args args' : List Value) [ha : Twins W a a']
    [h : Twins W args args'] : Sided W (builtin f (a :: args)) (builtin f (a' :: args')) :=
  sided_define (.builtin f (.cons ha.rel h.rel) (cons_ne_nil _ _))

instance sided_convert (conversion : Conversion) (v v' : Value) (scalar : Scalar)
    [h : Twins W v v'] : Sided W (convert conversion v scalar) (convert conversion v' scalar) :=
  sided_define (.convert conversion h.rel scalar)

instance sided_helper (helper : Helper) (v v' : Value) [h : Twins W v v'] :
    Sided W (Emit.helper helper v) (Emit.helper helper v') := sided_define (.helper helper h.rel)

instance sided_fetchMemory (space : MemorySpace) (v v' : Value) [h : Twins W v v'] :
    Sided W (fetchMemory space v) (fetchMemory space v') := sided_define (.fetch space h.rel)

instance sided_construct (parts parts' : List Value) [h : Twins W parts parts'] :
    Sided W (construct parts) (construct parts') := by
  have hdefine : Sided W (define (.construct parts)) (define (.construct parts')) :=
    sided_define (.construct h.rel)
  unfold construct
  obtain _ | @⟨a, a', _, _, ha, _ | hrest⟩ := h.rel
  · exact hdefine
  · have : Twins W a a' := ⟨ha⟩
    exact sided_reuse _ _ a a'
  · exact hdefine

instance sided_splat (v v' : Value) (count : Nat) [h : Twins W v v'] :
    Sided W (splat v count) (splat v' count) := by
  have : Twins W (List.replicate count v) (List.replicate count v') := by
    constructor
    induction count with
    | zero => exact .nil
    | succ n ih => exact .cons h.rel ih
  unfold splat
  infer_instance

instance sided_splatConstant (c : Constant) (count : Nat) :
    Sided W (splatConstant c count) (splatConstant c count) := by
  unfold splatConstant
  infer_instance

instance sided_shapeOf (v v' : Value) [h : Twins W v v'] : Sided W (shapeOf v) (shapeOf v') := by
  constructor
  intro a w b w' ha hb
  cases ha
  cases hb
  exact ⟨W, .refl W, rfl, rfl, h.rel.shape.symm⟩

instance sided_countOf (v v' : Value) [h : Twins W v v'] : Sided W (countOf v) (countOf v') := by
  constructor
  intro a w b w' ha hb
  cases ha
  cases hb
  exact ⟨W, .refl W, rfl, rfl, congrArg Shape.count h.rel.shape.symm⟩

instance sided_scalarOf (v v' : Value) [h : Twins W v v'] : Sided W (scalarOf v) (scalarOf v') := by
  constructor
  intro a w b w' ha hb
  cases ha
  cases hb
  exact ⟨W, .refl W, rfl, rfl, congrArg Shape.scalar h.rel.shape.symm⟩

instance sided_extract (v v' : Value) (index : Nat) [h : Twins W v v'] :
    Sided W (extract v index) (extract v' index) := by
  have (W' : After W) : Sided W'.tandem (define (.extract v index)) (define (.extract v' index)) :=
    sided_define (.extract (Related.later W'.later h.rel) index)
  unfold Emit.extract
  infer_instance

instance sided_insert (v part v' part' : Value) (index : Nat) [h : Twins W v v']
    [hp : Twins W part part'] : Sided W (Emit.insert v part index) (Emit.insert v' part' index) := by
  have (W' : After W) :
      Sided W'.tandem (define (.insert v part index)) (define (.insert v' part' index)) :=
    sided_define (.insert (Related.later W'.later h.rel) (Related.later W'.later hp.rel) index)
  unfold Emit.insert
  infer_instance

instance sided_word (n : Nat) : Sided W (word n) (word n) := by
  unfold word
  infer_instance

instance sided_offset (n : Int) : Sided W (offset n) (offset n) := by
  unfold offset
  infer_instance

end

end Tandem

end Microcode
