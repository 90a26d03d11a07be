import Microcode.Assembly
import Microcode.Proofs.Typing

/-!
Footprints: what a computation of the front end leaves alone.

A frame relates the workspace before a computation to the one after it, and says how the computation
may fail.  Most of the front end only defines values and looks elements of arrays up, and stays in
every frame; `Within` is a class so that this is found by looking at how a computation is put
together.  What declares variables, loads from them or stores to them is left to the frame at hand.
-/

namespace Microcode

open List

variable (s : BlendSources) (scale : Bool) (ctx : Context) (mask : Mask) (index selector : Nat)
  (op : Operand) (scalar : Scalar) (swizzle : Swizzle) (a b v : Value)

/-- Has to do neither with variables nor with functions. -/
def Entry.isNeutral : Entry → Bool
  | .define _ (.load _) => false
  | .declare _ | .store _ _ | .beginFunction _ | .endFunction | .beginEntry | .call _ => false
  | _ => true

structure Footprint where
  Rel : Workspace → Workspace → Prop
  /-- The error that a computation may end with, and the workspaces before and after it. -/
  Fails : Workspace → Error → Workspace → Prop
  refl : ∀ w, Rel w w
  trans : ∀ {w w' w''}, Rel w w' → Rel w' w'' → Rel w w''
  add : ∀ w (e : Entry), e.isNeutral = true → Rel w { w with listing := w.listing.add e }
  increments : ∀ w table, Rel w { w with increments := table }
  earlier : ∀ {w w' e w''}, Rel w w' → Fails w' e w'' → Fails w e w''

/-- The computation stays in the frame, and its result has the property. -/
def Footprint.Leads (F : Footprint) {α : Type} (x : Emit α) (w : Workspace) (Q : α → Workspace → Prop) :
    Prop :=
  match x w with
  | .ok a w' => F.Rel w w' ∧ Q a w'
  | .error e w' => F.Fails w e w'

/-- Computations of the frame may end with the error. -/
class Footprint.May (F : Footprint) (e : Error) : Prop where
  fails : ∀ w, F.Fails w e w

/-- Computations of the frame may declare variables. -/
class Footprint.Declaring (F : Footprint) : Prop where
  declare : ∀ w v, F.Rel w { w with listing := w.listing.add (.declare v) }

/-- Computations that fail stay in the frame too. -/
class Footprint.Lenient (F : Footprint) : Prop where
  rel : ∀ {w e w'}, F.Fails w e w' → F.Rel w w'

/-- Code that may do anything, and fails with errors of `E` only. -/
def Footprint.free (E : Error → Prop) : Footprint where
  Rel _ _ := True
  Fails _ e _ := E e
  refl _ := trivial
  trans _ _ := trivial
  add _ _ _ := trivial
  increments _ _ := trivial
  earlier _ h := h

/-- The computation stays in the frame. -/
class Within (F : Footprint) {α : Type} (x : Emit α) : Prop where
  leads : ∀ w, F.Leads x w fun _ _ => True

namespace Footprint.Leads

variable {F : Footprint} {α β : Type} {x : Emit α} {f : α → Emit β} {w : Workspace}
  {Q : α → Workspace → Prop} {R : β → Workspace → Prop}

theorem pure {a : α} (h : Q a w) : F.Leads (Pure.pure a) w Q := ⟨F.refl w, h⟩

theorem throw {e : Error} (h : F.Fails w e w) : F.Leads (throw e : Emit α) w Q := h

theorem raise {e : Error} [F.May e] : F.Leads (MonadExcept.throw e : Emit α) w Q :=
  throw (Footprint.May.fails w)

theorem bind (hx : F.Leads x w Q) (hf : ∀ a w', F.Rel w w' → Q a w' → F.Leads (f a) w' R) :
    F.Leads (x >>= f) w R := by
  refine Emit.Ends.bind hx ?_ fun _ _ h => h
  rintro a w' ⟨hrel, hQ⟩
  refine Emit.Ends.mono (hf a w' hrel hQ) ?_ fun _ _ => F.earlier hrel
  exact fun b w'' h => ⟨F.trans hrel h.1, h.2⟩

theorem mono {Q' : α → Workspace → Prop} (hx : F.Leads x w Q)
    (h : ∀ a w', F.Rel w w' → Q a w' → Q' a w') : F.Leads x w Q' :=
  Emit.Ends.mono hx (fun a w' hx => ⟨hx.1, h a w' hx.1 hx.2⟩) fun _ _ h => h

theorem widen {F' : Footprint} (hx : F.Leads x w Q) (h : ∀ w', F.Rel w w' → F'.Rel w w')
    (hfails : ∀ e w', F.Fails w e w' → F'.Fails w e w') : F'.Leads x w Q :=
  Emit.Ends.mono hx (fun _ w' hx => ⟨h w' hx.1, hx.2⟩) hfails

/-- What follows succeeds, and is in the frame together with what it follows. -/
theorem complete {F' : Footprint} (hx : F.Leads x w Q)
    (hfails : ∀ e w', F.Fails w e w' → F'.Fails w e w')
    (hf : ∀ a w', F.Rel w w' → Q a w' → ∃ b w'', f a w' = .ok b w'' ∧ F'.Rel w w'' ∧ R b w'') :
    F'.Leads (x >>= f) w R := by
  refine Emit.Ends.bind hx ?_ hfails
  rintro a w' ⟨hrel, hQ⟩
  obtain ⟨b, w'', hb, hres⟩ := hf a w' hrel hQ
  rw [Emit.Ends, hb]
  exact hres

theorem attempt [F.Lenient] (hx : F.Leads x w Q) :
    F.Leads (Emit.attempt x) w fun r w' =>
      (∀ a, r = .ok a → Q a w') ∧ ∀ e, r = .error e → F.Fails w e w' := by
  refine Emit.Ends.attempt hx (fun a w' h => ⟨h.1, ?_, nofun⟩)
    fun e w' h => ⟨Lenient.rel h, nofun, ?_⟩
  · rintro _ ⟨⟩
    exact h.2
  · rintro _ ⟨⟩
    exact h

theorem ite {p : Prop} [Decidable p] {y : Emit α} (hx : p → F.Leads x w Q)
    (hy : ¬ p → F.Leads y w Q) : F.Leads (if p then x else y) w Q :=
  iteInduction (motive := (F.Leads · w Q)) hx hy

theorem getRegisters {f : RegisterFile → Emit β} (h : F.Leads (f w.registers) w R) :
    F.Leads (Emit.getRegisters >>= f) w R := h

/-- What is computed in the frame may be followed by what needs nothing of it. -/
theorem andThen [Within F x] (hf : ∀ a w', F.Rel w w' → F.Leads (f a) w' R) :
    F.Leads (x >>= f) w R :=
  bind (Within.leads w) fun a w' h _ => hf a w' h

theorem foldlM {γ : Type} {g : β → γ → Emit β} (xs : List γ) {b : β} (hb : R b w)
    (hg : ∀ c ∈ xs, ∀ b w', F.Rel w w' → R b w' → F.Leads (g b c) w' R) :
    F.Leads (xs.foldlM g b) w R := by
  induction xs generalizing w b with
  | nil => exact pure hb
  | cons c rest ih =>
    rw [foldlM_cons]
    apply bind (hg c mem_cons_self b w (F.refl w) hb)
    intro b' w' h hb'
    exact ih hb' fun d hd b'' w'' h' => hg d (.tail _ hd) b'' w'' (F.trans h h')

theorem mapM {γ κ : Type} {g : γ → Emit α} {key : γ → κ} {key' : α → κ} {I : Workspace → Prop}
    (xs : List γ) (hI : I w)
    (hg : ∀ c ∈ xs, ∀ w', I w' → F.Leads (g c) w' fun a w'' => key' a = key c ∧ I w'') :
    F.Leads (xs.mapM g) w fun as w' => as.map key' = xs.map key ∧ I w' := by
  induction xs generalizing w with
  | nil => exact pure ⟨rfl, hI⟩
  | cons c rest ih =>
    rw [mapM_cons]
    apply bind (hg c mem_cons_self w hI)
    intro a w1 _ ha
    apply bind (ih ha.2 fun d hd => hg d (.tail _ hd))
    intro as w2 _ has
    refine pure ⟨?_, has.2⟩
    rw [map_cons, map_cons, ha.1, has.1]

theorem forM {γ : Type} {g : γ → Emit Unit} {I : Workspace → Prop} (xs : List γ) (hI : I w)
    (hg : ∀ c ∈ xs, ∀ w', F.Rel w w' → I w' → F.Leads (g c) w' fun _ w'' => I w'') :
    F.Leads (xs.forM g) w fun _ w' => I w' := by
  induction xs generalizing w with
  | nil => exact pure hI
  | cons c rest ih =>
    apply bind (hg c mem_cons_self w (F.refl w) hI)
    intro _ w' h hI'
    exact ih hI' fun d hd w'' h' => hg d (.tail _ hd) w'' (F.trans h h')

end Footprint.Leads

/-! ## How computations are put together -/

-- Instances are sought for blocks of up to ten requests.
set_option synthInstance.maxSize 400

section

variable {F : Footprint} {α β γ : Type}

instance within_pure (a : α) : Within F (pure a : Emit α) := ⟨fun _ => .pure trivial⟩

instance within_throw (e : Error) [F.May e] : Within F (throw e : Emit α) := ⟨fun _ => .raise⟩

instance within_unsupported (what : Unsupported) [F.May (.unsupported what)] :
    Within F (Emit.unsupported what : Emit α) := ⟨fun _ => .raise⟩

instance within_bind (x : Emit α) (f : α → Emit β) [Within F x] [∀ a, Within F (f a)] :
    Within F (x >>= f) :=
  ⟨fun _ => .andThen fun _ _ _ => Within.leads _⟩

instance within_throwBind (e : Error) [F.May e] (f : α → Emit β) : Within F (throw e >>= f) :=
  ⟨fun _ => .bind (Q := fun _ _ => False) .raise fun _ _ _ h => h.elim⟩

/-- For what goes on by cases. -/
theorem Within.bind_cases {x : Emit α} {f : α → Emit β} [Within F x] (h : ∀ a, Within F (f a)) :
    Within F (x >>= f) := inferInstance

instance within_map (f : α → β) (x : Emit α) [Within F x] : Within F (f <$> x) := by
  rw [map_eq_pure_bind]
  infer_instance

instance within_discard (x : Emit α) [Within F x] : Within F (discard x) := by
  show Within F ((fun _ => ()) <$> x)
  infer_instance

instance within_ite (p : Prop) [Decidable p] (x y : Emit α) [Within F x] [Within F y] :
    Within F (if p then x else y) :=
  ⟨fun w => .ite (fun _ => Within.leads w) fun _ => Within.leads w⟩

instance within_mapM (xs : List γ) (g : γ → Emit β) [∀ c, Within F (g c)] :
    Within F (xs.mapM g) := by
  induction xs with
  | nil =>
    rw [mapM_nil]
    infer_instance
  | cons c rest ih =>
    rw [mapM_cons]
    infer_instance

instance within_forM (xs : List γ) (g : γ → Emit Unit) [∀ c, Within F (g c)] :
    Within F (xs.forM g) :=
  ⟨fun _ => .forM xs trivial fun _ _ w' _ _ => Within.leads w'⟩

instance within_foldlM (xs : List γ) (g : β → γ → Emit β) (b : β) [∀ b c, Within F (g b c)] :
    Within F (xs.foldlM g b) :=
  ⟨fun _ => .foldlM xs trivial fun _ _ _ w' _ _ => Within.leads w'⟩

instance within_get : Within F (get : Emit Workspace) := ⟨fun w => ⟨F.refl w, trivial⟩⟩

instance within_table (table : Workspace → Quad Increment) :
    Within F (modify fun w => { w with increments := table w } : Emit Unit) :=
  ⟨fun w => ⟨F.increments w _, trivial⟩⟩

end

/-! ## Requests -/

namespace Emit

variable {F : Footprint}

theorem within_define {op : Op} (h : (Entry.define default op).isNeutral = true) :
    Within F (define op) := by
  constructor
  intro w
  have hneutral : (Entry.define (w.listing.opShape op) op).isNeutral = true := by
    rw [← h]
    cases op <;> rfl
  exact ⟨F.add w _ hneutral, trivial⟩

instance within_reuse (op : Op) : Within F (reuse op v) :=
  ⟨fun w => ⟨F.add w (.reuse op v) rfl, trivial⟩⟩

instance within_declare [F.Declaring] (v : Variable) : Within F (declare v) :=
  ⟨fun w => ⟨Footprint.Declaring.declare w v, trivial⟩⟩

instance within_element (place : Place) : Within F (element place index) :=
  ⟨fun w => ⟨F.add w (.element place index) rfl, trivial⟩⟩

instance within_storeMemory (space : MemorySpace) (offset : Value) :
    Within F (storeMemory space offset v) :=
  ⟨fun w => ⟨F.add w (.storeMemory space offset v) rfl, trivial⟩⟩

instance within_constant (c : Constant) : Within F (constant c) := within_define rfl

instance within_shuffle (indices : List Nat) : Within F (shuffle a b indices) := within_define rfl

instance within_binary (op : BinaryOp) : Within F (binary op a b) := within_define rfl

instance within_unary (op : UnaryOp) : Within F (unary op a) := within_define rfl

instance within_compare (op : CompareOp) : Within F (compare op a b) := within_define rfl

instance within_select (c : Value) : Within F (select c a b) := within_define rfl

instance within_builtin (f : Builtin) (args : List Value) : Within F (builtin f args) := within_define rfl

instance within_convert (conversion : Conversion) :
    Within F (convert conversion v scalar) := within_define rfl

instance within_helper (h : Helper) : Within F (helper h v) := within_define rfl

instance within_fetchMemory (space : MemorySpace) (offset : Value) : Within F (fetchMemory space offset) :=
  within_define rfl

theorem within_word_of_lt {n : Nat} (h : n < 0x100000000) : Within F (word n) := by
  have heq : word n = pure n := if_pos h
  rw [heq]
  infer_instance

theorem within_offset_of_lt {n : Int} (hle : -0x80000000 ≤ n) (hlt : n < 0x80000000) :
    Within F (offset n) := by
  have heq : offset n = pure n := if_pos ⟨hle, hlt⟩
  rw [heq]
  infer_instance

instance within_word (n : Nat) [F.May .overflow] : Within F (word n) := by
  unfold word
  infer_instance

instance within_offset (n : Int) [F.May .overflow] : Within F (offset n) := by
  unfold offset
  infer_instance

theorem leads_word {n : Nat} (h : Within F (word n)) (w : Workspace) :
    F.Leads (word n) w fun m w' => m = n ∧ w' = w := by
  by_cases hn : n < 0x100000000
  · have heq : word n = pure n := if_pos hn
    rw [heq]
    exact .pure ⟨rfl, rfl⟩
  · have heq : word n = throw .overflow := if_neg hn
    have hleads := h.leads w
    rw [heq] at hleads ⊢
    exact .throw hleads

theorem leads_offset {n : Int} (h : Within F (offset n)) (w : Workspace) :
    F.Leads (offset n) w fun m w' => m = n ∧ w' = w := by
  by_cases hn : -0x80000000 ≤ n ∧ n < 0x80000000
  · have heq : offset n = pure n := if_pos hn
    rw [heq]
    exact .pure ⟨rfl, rfl⟩
  · have heq : offset n = throw .overflow := if_neg hn
    have hleads := h.leads w
    rw [heq] at hleads ⊢
    exact .throw hleads

instance within_shapeOf : Within F (shapeOf v) := by
  unfold shapeOf
  infer_instance

instance within_countOf : Within F (countOf v) := by
  unfold countOf
  infer_instance

instance within_scalarOf : Within F (scalarOf v) := by
  unfold scalarOf
  infer_instance

instance within_getRegisters : Within F getRegisters := by
  unfold getRegisters
  infer_instance

instance within_construct (parts : List Value) : Within F (construct parts) := by
  unfold construct
  split
  · infer_instance
  · exact within_define rfl

instance within_splat (count : Nat) : Within F (splat v count) := by
  unfold splat
  infer_instance

instance within_splatConstant (c : Constant) (count : Nat) : Within F (splatConstant c count) := by
  unfold splatConstant
  infer_instance

instance within_extract : Within F (extract v index) := by
  unfold extract
  have : Within F (define (.extract v index)) := within_define rfl
  infer_instance

instance within_insert (part : Value) : Within F (insert v part index) := by
  unfold insert
  have : Within F (define (.insert v part index)) := within_define rfl
  infer_instance

instance within_findBinding (bank : Bank) (lane : Nat) [F.May .overflow] :
    Within F (findBinding bank lane) := by
  unfold findBinding
  apply Within.bind_cases
  intro registers
  split <;> infer_instance

instance within_lookup (bank : Bank) (lane : Nat) [F.May .overflow] :
    Within F (lookup bank lane) := by
  unfold Emit.lookup
  apply Within.bind_cases
  intro found
  split <;> infer_instance

end Emit

/-! ## Access -/

namespace Access

open Emit

variable {F : Footprint}

theorem within_bridge_of {swizzle : Swizzle} {shift : Int}
    (h : ∀ i c, (swizzle.get i).storage? = some c → Within F (offset (c + shift)))
    (left right : Value) (mask : Mask) : Within F (bridge left right swizzle shift mask) := by
  have (total i : Nat) : Within F (pick total shift (swizzle.get i)) := by
    unfold pick
    split
    case h_1 c hc =>
      have := h i c hc
      infer_instance
    case h_2 => infer_instance
  unfold bridge
  iterate 4
    apply Within.bind_cases
    intro _
  split <;> infer_instance

instance within_bridge (left right : Value) (shift : Int) [F.May .overflow] :
    Within F (bridge left right swizzle shift mask) :=
  within_bridge_of (fun _ _ _ => inferInstance) left right mask

instance within_modify (m : Modifiers) : Within F (modify m v) := by
  unfold modify
  infer_instance

instance within_splitBits (lane : Value) (width : Nat) (signed : Bool) :
    Within F (splitBits lane width signed) := by
  unfold splitBits
  infer_instance

instance within_joinBits (bits : Value) (width : Nat) : Within F (joinBits bits width) := by
  unfold joinBits
  infer_instance

instance within_unpackLane (lane : Value) (element : Element) :
    Within F (unpackLane ctx lane element) := by
  unfold unpackLane
  split <;> infer_instance

instance within_asUnsigned : Within F (asUnsigned v) := by
  unfold asUnsigned
  infer_instance

instance within_toUnorm (maximum : Lane) : Within F (toUnorm v maximum) := by
  unfold toUnorm
  infer_instance

instance within_packLane (elements : Value) (element : Element) :
    Within F (packLane ctx elements element) := by
  unfold packLane
  split <;> infer_instance

theorem within_unpack_of (ctx : Context) (packed : Value) (element : Element) {swizzle : Swizzle}
    (mask : Mask) {shift : Int}
    (h : ∀ i c, (swizzle.get i).storage? = some c → Within F (offset (c + shift))) :
    Within F (unpack ctx packed element swizzle mask shift) := by
  have (left right : Value) := within_bridge_of h left right mask
  unfold unpack
  infer_instance

instance within_unpack (packed : Value) (element : Element) (shift : Int) [F.May .overflow] :
    Within F (unpack ctx packed element swizzle mask shift) :=
  within_unpack_of ctx packed element mask fun _ _ _ => inferInstance

instance within_compactSegment (s : Segment) : Within F s.compact := by
  unfold Segment.compact
  infer_instance

instance within_compact (segments : List Segment) : Within F (compact segments) := by
  unfold compact
  infer_instance

instance within_twoValues (segments : List Segment) : Within F (twoValues segments) := by
  unfold twoValues
  split <;> infer_instance

instance within_literalChannels : Within F (literalChannels scalar swizzle mask) := by
  unfold literalChannels
  infer_instance

theorem within_mergeSlot (F : Footprint) (dest : Operand) (lane : Nat) (parts : List (Nat × Value))
    (old : Option Value) (c : Nat) : Within F
      (match parts.lookup c, old with
      | some part, _ => return part
      | none, some old => extract old (c - lane * dest.storage.ratio)
      | none, none => constant (.zero dest.storage.scalar) : Emit Value) := by
  split <;> infer_instance

theorem within_loadConstant_of [∀ text fault, F.May (.load text fault)] (ctx : Context)
    {op : Operand} (mask : Mask)
    (h : ∀ i, Within F (word (op.num + (op.swizzle.get i).storage?.getD 0))) :
    Within F (loadConstant ctx op mask) := by
  unfold loadConstant
  refine @within_bind _ _ _ _ _ (@within_mapM _ _ _ _ _ fun i => ?_) inferInstance
  dsimp only
  split
  · infer_instance
  · have := h i
    apply Within.bind_cases
    intro index
    split <;> infer_instance

instance within_loadConstant [F.May .overflow] [∀ text fault, F.May (.load text fault)] :
    Within F (loadConstant ctx op mask) :=
  within_loadConstant_of ctx mask fun _ => inferInstance

theorem within_loadImmediate_of {op : Operand} (mask : Mask)
    (h : ∀ i c, (op.swizzle.get i).storage? = some c → Within F (offset (c + 0))) :
    Within F (loadImmediate op mask) := by
  have (v : Value) := within_bridge_of h v v mask
  unfold loadImmediate
  dsimp only
  split <;> infer_instance

instance within_loadImmediate [F.May .overflow] : Within F (loadImmediate op mask) :=
  within_loadImmediate_of mask fun _ _ _ => inferInstance

instance within_predicateNumber (sub : Int) [F.May .overflow] :
    Within F (predicateNumber op sub) := by
  unfold predicateNumber
  infer_instance

instance within_toFloat (source : Element) : Within F (toFloat v source scale) := by
  unfold toFloat
  infer_instance

instance within_ofFloat (dest : Element) : Within F (ofFloat v dest scale) := by
  unfold ofFloat
  infer_instance

instance within_coerce (keepBits : Bool) : Within F (coerce v scalar keepBits) := by
  unfold coerce
  infer_instance

instance within_component (channel ordinal : Nat) : Within F (component v channel ordinal) := by
  unfold component
  apply Within.bind_cases
  intro count
  split <;> infer_instance

instance within_channels (element : Element) : Within F (channels v element mask) := by
  unfold channels
  infer_instance

end Access

/-! ## Lowering and assembly -/

namespace Lowering

open Emit

variable {F : Footprint}


instance within_dot (x y : Value) : Within F (dot x y) := by
  unfold dot
  infer_instance

instance within_rotateLeft (amount : Value) : Within F (rotateLeft a amount) := by
  unfold rotateLeft
  infer_instance

instance within_derivative (f : Builtin) : Within F (derivative ctx f a) := by
  unfold derivative
  infer_instance

instance within_compute (opcode : Opcode) (sources : List Value) (same : Bool)
    [∀ what, F.May (.unsupported what)] : Within F (compute ctx opcode sources same) := by
  have arg (i : Nat) : Within F (match sources[i]? with
      | some v => pure v
      | none => unsupported (.missingSource opcode i) : Emit Value) := by
    split <;> infer_instance
  unfold compute
  dsimp only
  split
  · infer_instance
  · split <;> infer_instance

instance within_complement (enabled : Bool) : Within F (complement v enabled) := by
  unfold complement
  infer_instance

instance within_colorFactor [∀ what, F.May (.unsupported what)] :
    Within F (colorFactor selector s) := by
  unfold colorFactor
  split <;> infer_instance

instance within_alphaFactor [∀ what, F.May (.unsupported what)] :
    Within F (alphaFactor selector s) := by
  unfold alphaFactor
  split <;> infer_instance

instance within_blendColors (b : Blend) [∀ what, F.May (.unsupported what)] :
    Within F (blendColors b s) := by
  unfold blendColors
  iterate 8
    apply Within.bind_cases
    intro _
  infer_instance

instance within_maskedFactor (src1 src2 : Value) [∀ what, F.May (.unsupported what)] :
    Within F (maskedFactor selector src1 src2) := by
  unfold maskedFactor
  split <;> infer_instance

instance within_blendMove (test : ZeroTest) (subject on off : Value) :
    Within F (blendMove test subject on off) := by
  unfold blendMove
  apply Within.bind_cases
  intro count
  apply Within.bind_cases
  intro zero
  split <;> infer_instance

instance within_selectMove (test : ZeroTest) (subject on off : Value) :
    Within F (selectMove test subject on off) := by
  unfold selectMove
  infer_instance

instance within_convertElements (dest source : Element) :
    Within F (convertElements dest source scale v) := by
  unfold convertElements
  split <;> infer_instance

instance within_advances (o : Operation) (iteration : Nat) [F.May .overflow] :
    Within F (advances o iteration) := by
  unfold advances
  infer_instance

instance within_setIncrements (modes : Quad Bool) (steps : Quad (BitVec 8)) :
    Within F (setIncrements modes steps) := by
  unfold setIncrements
  infer_instance

end Lowering

namespace Assembly

open Emit

variable {F : Footprint}

instance within_nextLocation (inputs : List Input) [F.May .overflow] :
    Within F (nextLocation inputs) := by
  unfold nextLocation
  infer_instance

instance within_flipPosition (position : Value) : Within F (flipPosition position) := by
  unfold flipPosition
  infer_instance

end Assembly
end Microcode
