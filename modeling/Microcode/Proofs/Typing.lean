import Microcode.Proofs.Contract
import Microcode.Proofs.Resolution
import Microcode.Access.Store

/-!
Computations that keep the contract.

`Checks` says of a computation of the front end that every entry it adds is admitted, whether it
succeeds or fails, and that it does the same for every target.  The second part follows from the
first: a computation sees its target only in the shapes of operations, and all targets give an
operation whose operands fit the same shape.

Within a function values keep their shapes and registers their places.  Functions begin and end, and
variables are bound to lanes, only while a shader is assembled; a `Passage` says which of the two is
meant.
-/

namespace Microcode

open Machine List

variable {parts : List Value} {place : Place} {γ : Type}

/-! ## Workspaces within the contract -/

def Workspace.retarget (w : Workspace) (t : Target) : Workspace :=
  { w with listing := w.listing.retarget t }

/-- The same outcome for another target. -/
def retargetResult {α : Type} (t : Target) :
    EStateM.Result Error Workspace α → EStateM.Result Error Workspace α
  | .ok a w => .ok a (w.retarget t)
  | .error e w => .error e (w.retarget t)

/-- Every binding, every shadow and every predicate register has a place of its shape. -/
structure RegisterFile.Typed (l : Listing) (r : RegisterFile) : Prop where
  sorted : ∀ bank, (r.tables bank).entries.Pairwise fun a b => a.1 < b.1
  binding : ∀ bank, ∀ e ∈ (r.tables bank).entries, e.2.Valid l
  shadow : ∀ {bank group register}, r.shadow? bank group = some register →
    register.Valid l ∧ register.lanes = 4 ∧ register.base = group
  predicate : ∀ {slot place}, r.predicates.get slot = some place → place.Valid l Shape.bool

structure Workspace.Sound (w : Workspace) : Prop where
  listing : w.listing.WellTyped
  registers : w.registers.Typed w.listing

theorem Binding.Valid.mono {l l' : Listing} {binding : Binding} (h : binding.Valid l)
    (hl : l.Extends l') : binding.Valid l' := by
  cases binding with
  | vector place lanes => exact ⟨h.1.mono hl, h.2⟩
  | array place length =>
    obtain ⟨hdecl, hshape, hlen⟩ := h
    rw [← hl.variableAt hdecl] at hshape hlen
    exact ⟨hl.declares hdecl, hshape, hlen⟩

theorem RegisterFile.Typed.mono {l l' : Listing} {r : RegisterFile} (h : r.Typed l)
    (hl : l.Extends l') : r.Typed l' where
  sorted := h.sorted
  binding bank e he := (h.binding bank e he).mono hl
  shadow hs := ⟨(h.shadow hs).1.mono hl, (h.shadow hs).2⟩
  predicate hp := (h.predicate hp).mono hl

/-! ## Passages -/

/-- Neither begins nor ends a function, nor declares a variable that the host sees. -/
def Entry.isPlain : Entry → Bool
  | .declare v => v.isInner
  | .beginFunction _ | .endFunction | .beginEntry => false
  | _ => true

/-- How far a computation may go.  Code of a function goes that far at least. -/
structure Passage where
  Rel : Workspace → Workspace → Prop
  refl : ∀ w, Rel w w
  trans : ∀ {w w' w''}, Rel w w' → Rel w' w'' → Rel w w''
  add : ∀ w (e : Entry), e.isPlain = true → Rel w { w with listing := w.listing.add e }

/-- The later listing is in the same function. -/
structure Listing.Stays (l l' : Listing) : Prop where
  extension : l.Extends l'
  start : l'.scope.start = l.scope.start
  phase : l'.scope.phase = l.scope.phase
  functions : l'.functions = l.functions

namespace Listing.Stays

variable {l l' l'' : Listing}

theorem refl (l : Listing) : l.Stays l := ⟨.refl l, rfl, rfl, rfl⟩

theorem trans (h : l.Stays l') (h' : l'.Stays l'') : l.Stays l'' where
  extension := h.extension.trans h'.extension
  start := h'.start.trans h.start
  phase := h'.phase.trans h.phase
  functions := h'.functions.trans h.functions

theorem declare (l : Listing) (v : Variable) : l.Stays (l.add (.declare v)) := by
  have hscope := l.scope_add (.declare v)
  exact ⟨l.extends_add _, congrArg Scope.start hscope, congrArg Scope.phase hscope, rfl⟩

theorem add (l : Listing) {e : Entry} (he : e.isPlain = true) : l.Stays (l.add e) := by
  have hscope : (l.add e).scope.start = l.scope.start ∧ (l.add e).scope.phase = l.scope.phase ∧
      (l.add e).functions = l.functions := by
    rw [scope_add]
    cases e with
    | beginFunction _ | endFunction | beginEntry => cases he
    | _ => exact ⟨rfl, rfl, rfl⟩
  exact ⟨l.extends_add e, hscope.1, hscope.2.1, hscope.2.2⟩

end Listing.Stays

/-- The later workspace is in the same function, and has the same bindings, the same variables of
the host and every shadow of the earlier one. -/
structure Workspace.Continues (w w' : Workspace) : Prop extends
    Listing.Stays w.listing w'.listing where
  outer : w'.listing.outer = w.listing.outer
  tables : w'.registers.tables = w.registers.tables
  shadows : ∀ {bank group register}, w.registers.shadow? bank group = some register →
    w'.registers.shadow? bank group = some register

namespace Workspace.Continues

variable {w w' w'' : Workspace}

theorem refl (w : Workspace) : w.Continues w := ⟨.refl _, rfl, rfl, fun h => h⟩

theorem trans (h : w.Continues w') (h' : w'.Continues w'') : w.Continues w'' where
  toStays := h.toStays.trans h'.toStays
  outer := h'.outer.trans h.outer
  tables := h'.tables.trans h.tables
  shadows hs := h'.shadows (h.shadows hs)

theorem add (w : Workspace) (e : Entry) (he : e.isPlain = true) :
    w.Continues { w with listing := w.listing.add e } where
  toStays := .add w.listing he
  outer := by
    cases e with
    | declare v =>
      have hinner : v.isInner = true := he
      simp only [Listing.outer_declare, if_pos hinner, append_nil]
    | _ => rfl
  tables := rfl
  shadows h := h

end Workspace.Continues

/-- Code of one function that leaves the register file as it is. -/
def Passage.quiet : Passage where
  Rel w w' := w.Continues w' ∧ w'.registers = w.registers
  refl w := ⟨.refl w, rfl⟩
  trans h h' := ⟨h.1.trans h'.1, h'.2.trans h.2⟩
  add w e he := ⟨.add w e he, rfl⟩

/-- Code of one function. -/
def Passage.within : Passage where
  Rel := Workspace.Continues
  refl := .refl
  trans := .trans
  add := .add

/-- Declarations, and code that declares variables of the host. -/
def Passage.declaring : Passage where
  Rel w w' := w.listing.Stays w'.listing
  refl w := .refl w.listing
  trans := .trans
  add w _ he := .add w.listing he

/-- The later listing has the functions of the earlier one, and more of them with short names. -/
structure Listing.Calls (l l' : Listing) : Prop where
  size : l.functions.size ≤ l'.functions.size
  names : ∀ name ∈ l'.functions, name ∈ l.functions ∨ name.length ≤ 30

namespace Listing.Calls

variable {l l' l'' : Listing}

theorem of_eq (h : l'.functions = l.functions) : l.Calls l' :=
  ⟨Nat.le_of_eq (congrArg Array.size h.symm), fun _ hname => .inl (h ▸ hname)⟩

theorem trans (h : l.Calls l') (h' : l'.Calls l'') : l.Calls l'' where
  size := Nat.le_trans h.size h'.size
  names name hname := (h'.names name hname).elim (h.names name) .inr

end Listing.Calls

/-- Code of any functions, and declarations. -/
def Passage.across : Passage where
  Rel w w' := w.listing.Extends w'.listing ∧ w.listing.Calls w'.listing
  refl _ := ⟨.refl _, .of_eq rfl⟩
  trans h h' := ⟨h.1.trans h'.1, h.2.trans h'.2⟩
  add w e he := ⟨w.listing.extends_add e, .of_eq (Workspace.Continues.add w e he).functions⟩

theorem Emit.getRegisters_bind {α : Type} (f : RegisterFile → Emit α) (w : Workspace) :
    (Emit.getRegisters >>= f) w = f w.registers w :=
  rfl

/-- From a sound workspace the computation leads to a sound one, in the same way for every target,
and its result has the property. -/
def Checks {α : Type} (P : Passage) (x : Emit α) (w : Workspace) (Q : α → Workspace → Prop) : Prop :=
  w.Sound → (∀ t, x (w.retarget t) = retargetResult t (x w)) ∧
    match x w with
    | .ok a w' => P.Rel w w' ∧ w'.Sound ∧ Q a w'
    | .error _ w' => P.Rel w w' ∧ w'.Sound

/-- The result is a value of the shape. -/
abbrev Yields (P : Passage) (x : Emit Value) (w : Workspace) (shape : Shape) : Prop :=
  Checks P x w fun v w' => w'.listing.Has v shape

namespace Checks

variable {α β : Type} {P : Passage} {w : Workspace} {x : Emit α} {f : α → Emit β}
  {Q : α → Workspace → Prop} {R : β → Workspace → Prop}

theorem pure {a : α} (h : Q a w) : Checks P (Pure.pure a) w Q :=
  fun hw => ⟨fun _ => rfl, P.refl w, hw, h⟩

theorem throw {e : Error} : Checks P (throw e : Emit α) w Q :=
  fun hw => ⟨fun _ => rfl, P.refl w, hw⟩

theorem unsupported {what : Unsupported} : Checks P (Emit.unsupported what : Emit α) w Q := throw

theorem bind (hx : Checks P x w Q)
    (hf : ∀ a w', P.Rel w w' → w'.Sound → Q a w' → Checks P (f a) w' R) :
    Checks P (x >>= f) w R := by
  intro hw
  obtain ⟨htarget, hx⟩ := hx hw
  refine ⟨fun t => ?_, Emit.Ends.bind hx ?_ fun _ _ h => h⟩
  · rw [Emit.bind_apply, Emit.bind_apply, htarget]
    cases h : x w with
    | ok a w' =>
      obtain ⟨hrel, hsound, hQ⟩ := Emit.Ends.of_ok hx h
      exact (hf a w' hrel hsound hQ hsound).1 t
    | error e w' => rfl
  · rintro a w' ⟨hrel, hsound, hQ⟩
    refine Emit.Ends.mono (hf a w' hrel hsound hQ hsound).2 ?_ ?_
    · exact fun b w'' h => ⟨P.trans hrel h.1, h.2⟩
    · exact fun e w'' h => ⟨P.trans hrel h.1, h.2⟩

theorem widen {P' : Passage} {Q' : α → Workspace → Prop} (hx : Checks P x w Q)
    (hP : ∀ w', P.Rel w w' → P'.Rel w w')
    (hQ : ∀ a w', P.Rel w w' → w'.Sound → Q a w' → Q' a w') : Checks P' x w Q' := by
  intro hw
  obtain ⟨htarget, hx⟩ := hx hw
  refine ⟨htarget, Emit.Ends.mono hx (fun a w' h => ?_) fun _ w' h => ⟨hP w' h.1, h.2⟩⟩
  exact ⟨hP w' h.1, h.2.1, hQ a w' h.1 h.2.1 h.2.2⟩

theorem mono {Q' : α → Workspace → Prop} (hx : Checks P x w Q)
    (h : ∀ a w', P.Rel w w' → w'.Sound → Q a w' → Q' a w') : Checks P x w Q' :=
  hx.widen (fun _ h => h) h

/-- What is sound to begin with may be used. -/
theorem sound (h : w.Sound → Checks P x w Q) : Checks P x w Q := fun hw => h hw hw

/-- Whatever fails inside, the workspace stays sound. -/
theorem attempt (hx : Checks P x w Q) :
    Checks P (Emit.attempt x) w fun r w' => ∀ a, r = .ok a → Q a w' := by
  intro hw
  obtain ⟨htarget, hx⟩ := hx hw
  refine ⟨fun t => ?_, Emit.Ends.attempt hx (fun a w' h => ⟨h.1, h.2.1, ?_⟩)
    fun _ _ h => ⟨h.1, h.2, nofun⟩⟩
  · unfold Emit.attempt
    rw [htarget]
    cases x w <;> rfl
  · rintro _ ⟨⟩
    exact h.2.2

theorem ite {p : Prop} [Decidable p] {y : Emit α} (hx : p → Checks P x w Q)
    (hy : ¬ p → Checks P y w Q) : Checks P (if p then x else y) w Q :=
  iteInduction (motive := (Checks P · w Q)) hx hy

theorem join {p : Prop} [Decidable p] {y : Emit α} (hx : p → Checks P x w Q)
    (hy : ¬ p → Checks P y w Q)
    (hf : ∀ a w', P.Rel w w' → w'.Sound → Q a w' → Checks P (f a) w' R) :
    Checks P (if p then x >>= f else y >>= f) w R :=
  ite (fun hp => bind (hx hp) hf) fun hp => bind (hy hp) hf

theorem kept (hx : Checks .quiet x w Q) :
    Checks .within x w fun a w' => w'.registers = w.registers ∧ Q a w' :=
  hx.widen (fun _ h => h.1) fun _ _ h _ hQ => ⟨h.2, hQ⟩

/-- Code of one function leaves the variables of the host alone. -/
theorem declaring (hx : Checks .within x w Q) :
    Checks .declaring x w fun a w' => w'.listing.outer = w.listing.outer ∧ Q a w' :=
  hx.widen (fun _ h => h.toStays) fun _ _ h _ hQ => ⟨h.outer, hQ⟩

/-- What stays within a function may stand where several are written. -/
theorem across (hx : Checks .declaring x w Q) :
    Checks .across x w fun a w' => w.listing.Stays w'.listing ∧ Q a w' :=
  hx.widen (fun _ h => ⟨h.extension, .of_eq h.functions⟩) fun _ _ h _ hQ => ⟨h, hQ⟩

/-! Questions change nothing. -/

section

variable {v : Value} {shape : Shape}

theorem shapeOf {f : Shape → Emit β} (hv : w.listing.Has v shape) (h : Checks P (f shape) w R) :
    Checks P (Emit.shapeOf v >>= f) w R := by
  rw [← hv.shape] at h
  exact h

theorem countOf {f : Nat → Emit β} (hv : w.listing.Has v shape) (h : Checks P (f shape.count) w R) :
    Checks P (Emit.countOf v >>= f) w R := by
  rw [← hv.shape] at h
  exact h

theorem scalarOf {f : Scalar → Emit β} (hv : w.listing.Has v shape)
    (h : Checks P (f shape.scalar) w R) : Checks P (Emit.scalarOf v >>= f) w R := by
  rw [← hv.shape] at h
  exact h

theorem getRegisters {f : RegisterFile → Emit β} (h : Checks P (f w.registers) w R) :
    Checks P (Emit.getRegisters >>= f) w R := h

theorem word {n : Nat} {f : Nat → Emit β} (h : n < 0x100000000 → Checks P (f n) w R) :
    Checks P (Emit.word n >>= f) w R := by
  rw [Emit.word]
  by_cases hn : n < 0x100000000
  · rw [if_pos hn]
    exact h hn
  · rw [if_neg hn]
    exact throw

theorem offset {n : Int} {f : Int → Emit β} (h : Checks P (f n) w R) :
    Checks P (Emit.offset n >>= f) w R := by
  rw [Emit.offset]
  by_cases hn : -0x80000000 ≤ n ∧ n < 0x80000000
  · rw [if_pos hn]
    exact h
  · rw [if_neg hn]
    exact throw

end

/-! Lists. -/

/-- One rule for all elements of a list, if what it gives is kept by what follows.  Each element may
add one to what is counted. -/
theorem mapM_counting {g : γ → Emit β} {S : β → Workspace → Prop} {I : Nat → Workspace → Prop}
    {k : Nat} (xs : List γ) (keep : ∀ b w w', P.Rel w w' → S b w → S b w') (hk : I k w)
    (hg : ∀ c ∈ xs, ∀ k w', P.Rel w w' → w'.Sound → I k w' →
      Checks P (g c) w' fun b w'' => S b w'' ∧ I (k + 1) w'') :
    Checks P (xs.mapM g) w fun ys w' =>
      (ys.length = xs.length ∧ ∀ y ∈ ys, S y w') ∧ I (k + xs.length) w' := by
  induction xs generalizing w k with
  | nil => exact pure ⟨⟨rfl, by simp⟩, hk⟩
  | cons c rest ih =>
    rw [mapM_cons]
    refine sound fun hw => bind (hg c mem_cons_self k w (P.refl w) hw hk) ?_
    intro b w1 h1 _ hb
    refine bind (ih hb.2 fun d hd k w' h => hg d (.tail _ hd) k w' (P.trans h1 h)) ?_
    intro bs w2 h2 _ hbs
    refine pure ⟨⟨congrArg Nat.succ hbs.1.1, fun y hy => ?_⟩, ?_⟩
    · rcases mem_cons.1 hy with rfl | hy
      · exact keep _ w1 w2 h2 hb.1
      · exact hbs.1.2 y hy
    · rw [length_cons, Nat.add_comm rest.length, ← Nat.add_assoc]
      exact hbs.2

theorem mapM {g : γ → Emit β} {S : β → Workspace → Prop} (xs : List γ)
    (keep : ∀ b w w', P.Rel w w' → S b w → S b w')
    (hg : ∀ c ∈ xs, ∀ w', P.Rel w w' → w'.Sound → Checks P (g c) w' S) :
    Checks P (xs.mapM g) w fun ys w' => ys.length = xs.length ∧ ∀ y ∈ ys, S y w' :=
  (mapM_counting (I := fun _ _ => True) (k := 0) xs keep trivial fun c hc _ w' h hw _ =>
    (hg c hc w' h hw).mono fun _ _ _ _ hS => ⟨hS, trivial⟩).mono fun _ _ _ _ h => h.1

/-- What holds to begin with and is kept by each element holds in the end. -/
theorem forM_keeping {g : γ → Emit Unit} {I : Workspace → Prop} (xs : List γ) (hI : I w)
    (hg : ∀ c ∈ xs, ∀ w', P.Rel w w' → w'.Sound → I w' → Checks P (g c) w' fun _ w'' => I w'') :
    Checks P (xs.forM g) w fun _ w' => I w' := by
  induction xs generalizing w with
  | nil => exact pure hI
  | cons c rest ih =>
    refine sound fun hw => bind (hg c mem_cons_self w (P.refl w) hw hI) ?_
    intro _ w1 h1 _ hI1
    exact ih hI1 fun d hd w' h => hg d (.tail _ hd) w' (P.trans h1 h)

theorem forM {g : γ → Emit Unit} (xs : List γ)
    (hg : ∀ c ∈ xs, ∀ w', P.Rel w w' → w'.Sound → Checks P (g c) w' fun _ _ => True) :
    Checks P (xs.forM g) w fun _ _ => True :=
  forM_keeping (I := fun _ => True) xs trivial fun c hc w' h hw _ => hg c hc w' h hw

theorem foldlM {g : β → γ → Emit β} (xs : List γ) {b : β} (hb : R b w)
    (hg : ∀ c ∈ xs, ∀ b w', P.Rel w w' → w'.Sound → R b w' → Checks P (g b c) w' R) :
    Checks P (xs.foldlM g b) w R := by
  induction xs generalizing w b with
  | nil => exact pure hb
  | cons c rest ih =>
    rw [foldlM_cons]
    refine sound fun hw => bind (hg c mem_cons_self b w (P.refl w) hw hb) ?_
    intro b1 w1 h1 _ hb1
    exact ih hb1 fun d hd b' w' h => hg d (.tail _ hd) b' w' (P.trans h1 h)

end Checks

/-! ## Requests -/

section

open Emit

variable {P : Passage} {w : Workspace} {op : Op} {shape : Shape} {scalar : Scalar} {m n : Nat} {a b v : Value}

/-- An entry that is admitted, and that every target records alike. -/
theorem Workspace.Sound.add {e : Entry} (hw : w.Sound) (he : w.listing.Admits e) :
    { w with listing := w.listing.add e }.Sound :=
  ⟨hw.listing.add he, hw.registers.mono (w.listing.extends_add e)⟩

theorem checks_define (h : w.listing.Typed op shape) : Yields P (define op) w shape := by
  intro hw
  have hshape := h.opShape hw.listing.proper
  have hsound := hw.add (.define h)
  rw [← hshape] at hsound
  refine ⟨fun t => ?_, P.add w (.define (w.listing.opShape op) op) rfl, hsound, ?_⟩
  · show EStateM.Result.ok _ _ = EStateM.Result.ok _ _
    have ht := h.opShape_retarget hw.listing.proper t
    simp only [Workspace.retarget, ht, hshape]
    rfl
  · refine ⟨?_, by simp [Listing.Defines], (w.listing.shapeOf_define op).trans hshape⟩
    show (w.listing.add (.define (w.listing.opShape op) op)).scope.start ≤ w.listing.shapes.size
    rw [Listing.scope_add]
    exact hw.listing.start_le

theorem checks_reuse (h : w.listing.Typed op shape) (hv : w.listing.Has v shape) :
    Yields P (reuse op v) w shape := by
  intro hw
  have hcont := Workspace.Continues.add w (.reuse op v) rfl
  exact ⟨fun _ => rfl, P.add w (.reuse op v) rfl, hw.add (.reuse h hv), hv.mono hcont.extension hcont.start⟩

theorem checks_constant (c : Constant) : Yields P (constant c) w ⟨c.scalar, 1⟩ :=
  checks_define (.constant c)

theorem checks_construct {counts : List Nat}
    (h : List.Forall₂ (fun v n => w.listing.Has v ⟨scalar, n⟩) parts counts) (hne : parts ≠ [])
    (hwidth : counts.sum ≤ 4) : Yields P (construct parts) w ⟨scalar, counts.sum⟩ := by
  have typed := Listing.Typed.construct h hne hwidth
  cases h with
  | nil => exact absurd rfl hne
  | cons hv hrest =>
    cases hrest with
    | nil => exact checks_reuse typed (by simpa using hv)
    | cons => exact checks_define typed

theorem checks_construct_same (h : ∀ v ∈ parts, w.listing.Has v ⟨scalar, n⟩) (hne : parts ≠ [])
    (hwidth : parts.length * n ≤ 4) : Yields P (construct parts) w ⟨scalar, parts.length * n⟩ := by
  have hparts : List.Forall₂ (fun v n => w.listing.Has v ⟨scalar, n⟩) parts
      (List.replicate parts.length n) := by
    clear hne hwidth
    induction parts with
    | nil => exact .nil
    | cons v rest ih =>
      exact .cons (h v mem_cons_self) (ih fun u hu => h u (.tail _ hu))
  have hsum : (List.replicate parts.length n).sum = parts.length * n := by simp
  have := checks_construct (P := P) hparts hne (by rw [hsum]; exact hwidth)
  rwa [hsum] at this

theorem checks_construct_scalars (h : ∀ v ∈ parts, w.listing.Has v ⟨scalar, 1⟩) (hne : parts ≠ [])
    (hwidth : parts.length ≤ 4) : Yields P (construct parts) w ⟨scalar, parts.length⟩ := by
  have := checks_construct_same (P := P) h hne (by omega)
  rwa [Nat.mul_one] at this

theorem checks_load (h : place.Valid w.listing shape) : Yields P (load place) w shape :=
  checks_define (.load h)

theorem checks_extract (hv : w.listing.Has v ⟨scalar, n⟩) {i : Nat} (hi : i < n) :
    Yields P (extract v i) w ⟨scalar, 1⟩ := by
  rw [Emit.extract]
  refine .shapeOf hv (.ite (fun h => ?_) fun _ => checks_define (.extract hv hi))
  have hone : n = 1 := by simpa [Shape.isScalar] using h
  subst hone
  exact checks_reuse (.extract hv hi) hv

theorem checks_insert (hv : w.listing.Has v ⟨scalar, n⟩) (hb : w.listing.Has b ⟨scalar, 1⟩) {i : Nat}
    (hi : i < n) : Yields P (insert v b i) w ⟨scalar, n⟩ := by
  rw [Emit.insert]
  refine .shapeOf hv (.ite (fun h => ?_) fun _ => checks_define (.insert hv hb hi))
  have hone : n = 1 := by simpa [Shape.isScalar] using h
  subst hone
  exact checks_reuse (.insert hv hb hi) hb

theorem checks_shuffle (ha : w.listing.Has a ⟨scalar, m⟩) (hb : w.listing.Has b ⟨scalar, n⟩)
    {indices : List Nat} (hne : indices ≠ []) (hwidth : indices.length ≤ 4)
    (hin : ∀ i ∈ indices, i < m + n) : Yields P (shuffle a b indices) w ⟨scalar, indices.length⟩ :=
  checks_define (.shuffle ha hb hne hwidth hin)

theorem checks_select {c : Value} (hc : w.listing.Has c ⟨.bool, m⟩) (ha : w.listing.Has a ⟨scalar, n⟩)
    (hb : w.listing.Has b ⟨scalar, n⟩) (hm : m = 1 ∨ m = n) :
    Yields P (select c a b) w ⟨scalar, n⟩ := by
  have typed : w.listing.Typed (.select c a b) ⟨scalar, max n n⟩ :=
    .select hc ha hb (.inl rfl) (by rwa [Nat.max_self])
  rw [Nat.max_self] at typed
  exact checks_define typed

theorem checks_declareAs {x : Variable} (h : x.Fits)
    (hP : P.Rel w { w with listing := w.listing.add (.declare x) }) :
    Checks P (declare x) w fun place w' => (place.Valid w'.listing x.shape ∧
      w'.listing.variableAt place = x) ∧ w'.listing = w.listing.add (.declare x) := by
  intro hw
  exact ⟨fun _ => rfl, hP, hw.add (.declare h),
    ⟨w.listing.valid_declare x, w.listing.variableAt_declare x⟩, rfl⟩

theorem checks_declare {x : Variable} (h : x.Fits) (hx : x.isInner = true) :
    Checks P (declare x) w fun place w' => place.Valid w'.listing x.shape :=
  (checks_declareAs h (P.add w (.declare x) hx)).mono fun _ _ _ _ h => h.1.1

theorem checks_element (hp : w.listing.Declares place) {index : Nat}
    (hi : index < (w.listing.variableAt place).length) :
    Checks P (element place index) w fun p w' =>
      p = { place with path := place.path ++ [index] } ∧
        p.Valid w'.listing (w.listing.variableAt place).shape := by
  intro hw
  refine ⟨fun _ => rfl, P.add w (.element place index) rfl, hw.add (.element hp hi), rfl, hp, rfl, ?_⟩
  show State.elementIndex _ < (w.listing.variableAt place).length
  simpa [State.elementIndex] using hi

theorem checks_store (hp : place.Valid w.listing shape) (hv : w.listing.Has v shape) :
    Checks P (store place v) w fun _ _ => True := by
  intro hw
  exact ⟨fun _ => rfl, P.add w (.store place v) rfl, hw.add (.store hp hv), trivial⟩

end

/-! ## Rules

Most of the front end only puts requests together.  What a request takes and what it gives is a
rule, and rules are instances, so that the shape of a result is found by looking at how the
computation is put together.  `Inferred` finds it, and `Checked` compares it with one that is asked
for. -/

/-- What is known of data in a workspace, and stays known within the function. -/
class Described (α : Type) (γ : outParam Type) where
  Is : Workspace → α → γ → Prop
  later : ∀ {w w' a g}, w.Continues w' → Is w a g → Is w' a g

/-- A later workspace of the same function. -/
structure Workspace.Later (w : Workspace) where
  workspace : Workspace
  continues : w.Continues workspace

section

variable {α β γ' δ : Type} [Described α γ'] [Described β δ]

class Known (w : Workspace) (a : α) (g : outParam γ') : Prop where
  is : Described.Is w a g

/-- Data with what is known of it. -/
structure Given (w : Workspace) (α : Type) {γ' : Type} [Described α γ'] (g : γ') where
  data : α
  is : Described.Is w data g

class Checked (w : Workspace) (x : Emit α) (g : γ') : Prop where
  checks : Checks .within x w fun a w' => Described.Is w' a g

class Inferred (w : Workspace) (x : Emit α) (g : outParam γ') : Prop where
  checks : Checks .within x w fun a w' => Described.Is w' a g

variable {w : Workspace} {g : γ'} {d : δ}

instance Known.later (w' : w.Later) (a : α) [h : Known w a g] : Known w'.workspace a g :=
  ⟨Described.later w'.continues h.is⟩

instance Given.known (a : Given w α g) : Known w a.data g := ⟨a.is⟩

instance (priority := low) Inferred.checked (x : Emit α) [h : Inferred w x g] : Checked w x g :=
  ⟨h.checks⟩

theorem Inferred.of_parts {x : Emit α} [h : Checked w x g] : Inferred w x g := ⟨h.checks⟩

instance checked_bind (x : Emit α) (f : α → Emit β) [hx : Inferred w x g]
    [hf : ∀ (w' : w.Later) (a : Given w'.workspace α g), Checked w'.workspace (f a.data) d] :
    Checked w (x >>= f) d :=
  ⟨hx.checks.bind fun a w' h _ ha => (hf ⟨w', h⟩ ⟨a, ha⟩).checks⟩

instance inferred_pure (a : α) [h : Known w a g] : Inferred w (pure a) g := ⟨.pure h.is⟩

instance checked_ite (p : Prop) [Decidable p] (x y : Emit α) [hx : Checked w x g]
    [hy : Checked w y g] : Checked w (if p then x else y) g :=
  ⟨.ite (fun _ => hx.checks) fun _ => hy.checks⟩

instance checked_throw (e : Error) : Checked w (throw e : Emit α) g := ⟨.throw⟩

instance checked_unsupported (what : Unsupported) : Checked w (Emit.unsupported what : Emit α) g :=
  ⟨.throw⟩

instance checked_unsupported_bind (what : Unsupported) (f : α → Emit β) :
    Checked w (Emit.unsupported what >>= f) d :=
  ⟨.throw⟩

instance checked_word (n : Nat) (f : Nat → Emit β) [h : Checked w (f n) d] :
    Checked w (Emit.word n >>= f) d :=
  ⟨.word fun _ => h.checks⟩

end

instance : Described Value Shape where
  Is w v shape := w.listing.Has v shape
  later h hv := hv.mono h.extension h.start

instance : Described Place Shape where
  Is w place shape := place.Valid w.listing shape
  later h hp := hp.mono h.extension

instance : Described Unit Unit where
  Is _ _ _ := True
  later _ h := h

instance {w : Workspace} : Known w () () := ⟨trivial⟩

instance : Described (List Value) Shape where
  Is w vs shape := ∀ v ∈ vs, w.listing.Has v shape
  later h hvs v hv := (hvs v hv).mono h.extension h.start

/-- Between one and four components. -/
class Width (n : Nat) : Prop where
  pos : 0 < n
  le : n ≤ 4

instance : Width 3 := ⟨by decide, by decide⟩

instance : Width 4 := ⟨by decide, by decide⟩

class Constant.Of (c : Constant) (scalar : outParam Scalar) : Prop where
  scalar : c.scalar = scalar

instance (bits : Lane) : Constant.Of (.f32 bits) .f32 := ⟨rfl⟩

instance (bits : Lane) : Constant.Of (.i32 bits) .i32 := ⟨rfl⟩

instance (bits : Lane) : Constant.Of (.u32 bits) .u32 := ⟨rfl⟩

instance (scalar : Scalar) (bits : Lane) : Constant.Of (.ofNumber scalar bits) scalar :=
  ⟨by cases scalar <;> rfl⟩

instance (scalar : Scalar) : Constant.Of (.zero scalar) scalar := ⟨by cases scalar <;> rfl⟩

/-- Numbers, which can be converted to each other. -/
class Scalar.IsNumber (scalar : Scalar) : Prop where
  ne : scalar ≠ .bool

instance : Scalar.IsNumber .f32 := ⟨by decide⟩

instance : Scalar.IsNumber .i32 := ⟨by decide⟩

instance : Scalar.IsNumber .u32 := ⟨by decide⟩

/-- A function of so many arguments that works on each component by itself. -/
class Builtin.Takes (f : Builtin) (arity : Nat) : Prop where
  ne : f ≠ .dot
  arity : arity = f.arity

instance : Builtin.Takes .floor 1 := ⟨by decide, rfl⟩

instance : Builtin.Takes .fract 1 := ⟨by decide, rfl⟩

instance : Builtin.Takes .round 1 := ⟨by decide, rfl⟩

instance : Builtin.Takes .sign 1 := ⟨by decide, rfl⟩

instance : Builtin.Takes .inverseSqrt 1 := ⟨by decide, rfl⟩

instance : Builtin.Takes .exp2 1 := ⟨by decide, rfl⟩

instance : Builtin.Takes .log2 1 := ⟨by decide, rfl⟩

instance : Builtin.Takes .dfdx 1 := ⟨by decide, rfl⟩

instance : Builtin.Takes .dfdy 1 := ⟨by decide, rfl⟩

instance : Builtin.Takes .step 2 := ⟨by decide, rfl⟩

instance : Builtin.Takes .mix 3 := ⟨by decide, rfl⟩

instance : Builtin.Takes .clamp 3 := ⟨by decide, rfl⟩

section

open Emit

variable {w : Workspace} {shape : Shape} {scalar : Scalar} {n : Nat} (a b c v : Value)

instance known_singleton [h : Known w v shape] : Known w [v] shape :=
  ⟨forall_mem_singleton.2 h.is⟩

instance known_cons (vs : List Value) [h : Known w v shape] [hs : Known w (a :: vs) shape] :
    Known w (v :: a :: vs) shape :=
  ⟨forall_mem_cons.2 ⟨h.is, hs.is⟩⟩

theorem Inferred.proper {α γ' : Type} [Described α γ'] {x : Emit α} {g : γ'} (v : Value)
    [hv : Known w v ⟨scalar, n⟩] (h : Width n → Checked w x g) : Inferred w x g :=
  ⟨.sound fun hw => have proper := hw.listing.proper.has hv.is
    (h ⟨proper.1, proper.2⟩).checks⟩

instance inferred_constant (c : Constant) [h : c.Of scalar] : Inferred w (constant c) ⟨scalar, 1⟩ :=
  ⟨h.scalar ▸ checks_constant c⟩

instance inferred_splat (n : Nat) [h : Known w v ⟨scalar, 1⟩] [hn : Width n] :
    Inferred w (splat v n) ⟨scalar, n⟩ := by
  have := hn.pos
  unfold splat
  refine ⟨.ite (fun hle => ?_) fun hlt => ?_⟩
  · obtain rfl : n = 1 := by omega
    exact .pure h.is
  · have hne : List.replicate n v ≠ [] := by
      rw [ne_eq, replicate_eq_nil_iff]
      omega
    have := checks_construct_scalars (P := .within) (fun u hu => eq_of_mem_replicate hu ▸ h.is)
      hne (by simpa using hn.le)
    rwa [length_replicate] at this

instance inferred_splatConstant (c : Constant) (n : Nat) [c.Of scalar] [Width n] :
    Inferred w (splatConstant c n) ⟨scalar, n⟩ := by
  unfold splatConstant
  exact .of_parts

instance inferred_load (place : Place) [h : Known w place shape] : Inferred w (load place) shape :=
  ⟨checks_load h.is⟩

instance inferred_store (place : Place) [hp : Known w place shape] [hv : Known w v shape] :
    Inferred w (store place v) () :=
  ⟨checks_store hp.is hv.is⟩

instance inferred_binary (op : BinaryOp) [ha : Known w a shape] [hb : Known w b shape] :
    Inferred w (binary op a b) shape := by
  obtain ⟨scalar, n⟩ := shape
  have typed : w.listing.Typed (.binary op a b) ⟨scalar, max n n⟩ := .binary ha.is hb.is (.inl rfl)
  rw [Nat.max_self] at typed
  exact ⟨checks_define typed⟩

instance inferred_unary (op : UnaryOp) [ha : Known w a shape] : Inferred w (unary op a) shape :=
  ⟨checks_define (.unary ha.is)⟩

instance inferred_compare (op : CompareOp) [ha : Known w a ⟨scalar, n⟩] [hb : Known w b ⟨scalar, n⟩] :
    Inferred w (compare op a b) ⟨.bool, n⟩ := by
  have typed : w.listing.Typed (.compare op a b) ⟨.bool, max n n⟩ := .compare ha.is hb.is (.inl rfl)
  rw [Nat.max_self] at typed
  exact ⟨checks_define typed⟩

instance inferred_select [hc : Known w c ⟨.bool, n⟩] [ha : Known w a ⟨scalar, n⟩]
    [hb : Known w b ⟨scalar, n⟩] : Inferred w (select c a b) ⟨scalar, n⟩ :=
  ⟨checks_select hc.is ha.is hb.is (.inr rfl)⟩

instance inferred_builtin_one (f : Builtin) [h : f.Takes 1] [ha : Known w a ⟨.f32, n⟩] :
    Inferred w (builtin f [a]) ⟨.f32, n⟩ :=
  ⟨checks_define (.builtin h.ne h.arity (known_singleton a).is)⟩

instance inferred_builtin_two (f : Builtin) [h : f.Takes 2] [ha : Known w a ⟨.f32, n⟩]
    [hb : Known w b ⟨.f32, n⟩] : Inferred w (builtin f [a, b]) ⟨.f32, n⟩ :=
  ⟨checks_define (.builtin h.ne h.arity (known_cons b a []).is)⟩

instance inferred_builtin_three (f : Builtin) [h : f.Takes 3] [ha : Known w a ⟨.f32, n⟩]
    [hb : Known w b ⟨.f32, n⟩] [hc : Known w c ⟨.f32, n⟩] :
    Inferred w (builtin f [a, b, c]) ⟨.f32, n⟩ :=
  ⟨checks_define (.builtin h.ne h.arity (known_cons b a [c]).is)⟩

instance inferred_convert (conversion : Conversion) (target : Scalar) [hv : Known w v ⟨scalar, n⟩]
    [hscalar : scalar.IsNumber] [htarget : target.IsNumber] :
    Inferred w (convert conversion v target) ⟨target, n⟩ :=
  ⟨checks_define (.convert hv.is hscalar.ne htarget.ne)⟩

instance checked_shapeOf {β δ : Type} [Described β δ] {d : δ} (f : Shape → Emit β)
    [hv : Known w v shape] [hf : Checked w (f shape) d] : Checked w (shapeOf v >>= f) d :=
  ⟨.shapeOf hv.is hf.checks⟩

instance checked_countOf {β δ : Type} [Described β δ] {d : δ} (f : Nat → Emit β)
    [hv : Known w v ⟨scalar, n⟩] [hf : Checked w (f n) d] : Checked w (countOf v >>= f) d :=
  ⟨.countOf hv.is hf.checks⟩

end
end Microcode
