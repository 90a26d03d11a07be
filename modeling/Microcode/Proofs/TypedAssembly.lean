import Microcode.Assembly
import Microcode.Proofs.TypedLowering

/-!
Assembled shaders keep the contract.

Variables are bound while declarations are made; after that each function is written within its own
scope, and the entry point comes last.  Whatever the metadata and the words of a shader are, every
entry of its listing is admitted by the entries before it, and every target sees the same entries.
-/

namespace Microcode

open Emit List Assembly Shape

set_option synthInstance.maxSize 1000000

variable (ctx : Context)

variable {w : Workspace}

/-! ## Variables of the host -/

/-- A variable through which the shader is connected to its host. -/
def Variable.isInterface (v : Variable) : Bool :=
  match v.storage with
  | .input _ | .output _ | .builtinInput _ | .builtinOutput _ => true
  | .hidden | .uniformArray _ _ => false

/-- All names are short, and at most `k` variables belong to the interface. -/
structure Listing.Small (l : Listing) (k : Nat) : Prop where
  names : ∀ v ∈ l.outer, v.name.length ≤ 30
  interface : (l.outer.filter Variable.isInterface).length ≤ k

/-- The numbers that variables are named for are words. -/
structure Shader.Words (s : Shader) : Prop where
  inputs : ∀ i ∈ s.inputs, i.location < 0x100000000
  uniformBuffers : ∀ b ∈ s.uniformBuffers, b.index < 0x100000000
  temporaries : s.temporaries ≤ 0x100000000
  primaryAttributes : s.primaryAttributes ≤ 0x100000000
  secondaryAttributes : s.secondaryAttributes ≤ 0x100000000
  outputs : s.outputs ≤ 0x100000000

namespace Listing.Small

variable {l l' : Listing} {k m : Nat} {x : Variable}

theorem of_outer (h : l.Small k) (houter : l'.outer = l.outer) : l'.Small k :=
  ⟨houter ▸ h.names, houter ▸ h.interface⟩

theorem mono (h : l.Small k) (hk : k ≤ m) : l.Small m := ⟨h.names, Nat.le_trans h.interface hk⟩

theorem declare (h : l.Small k) (hx : x.name.length ≤ 30) :
    (l.add (.declare x)).Small (k + if x.isInterface then 1 else 0) := by
  by_cases hinner : x.isInner = true
  · have houter : (l.add (.declare x)).outer = l.outer := by
      rw [l.outer_declare, if_pos hinner, append_nil]
    exact (h.of_outer houter).mono (Nat.le_add_right ..)
  · have houter : (l.add (.declare x)).outer = l.outer ++ [x] := by
      rw [l.outer_declare, if_neg hinner]
    constructor
    · intro v hv
      rw [houter, mem_append, mem_singleton] at hv
      rcases hv with hv | rfl
      · exact h.names v hv
      · exact hx
    · rw [houter, filter_append, length_append]
      refine Nat.add_le_add h.interface (Nat.le_of_eq ?_)
      cases hi : x.isInterface <;> simp [hi]

end Listing.Small

theorem checks_declareHost {x : Variable} (h : x.Fits) :
    Checks .declaring (declare x) w fun place w' =>
      (place.Valid w'.listing x.shape ∧ w'.listing.variableAt place = x) ∧
        ∀ k, x.name.length ≤ 30 → w.listing.Small k →
          w'.listing.Small (k + if x.isInterface then 1 else 0) := by
  refine (checks_declareAs (P := .declaring) h (Listing.Stays.declare w.listing x)).mono ?_
  intro place w' _ _ hplace
  refine ⟨hplace.1, fun k hx hsmall => ?_⟩
  rw [hplace.2]
  exact hsmall.declare hx

/-! ## Declarations -/

theorem RegisterFile.Typed.bind {l : Listing} {r : RegisterFile} (h : r.Typed l) (bank : Bank)
    (base : Nat) {binding : Binding} (hb : binding.Valid l) : (r.bind bank base binding).Typed l where
  sorted b := by
    by_cases hbank : b = bank
    · simp only [RegisterFile.bind, if_pos hbank]
      exact OrderedMap.pairwise_insertList base binding (h.sorted bank)
    · simp only [RegisterFile.bind, if_neg hbank]
      exact h.sorted b
  binding b e he := by
    rcases mem_bind he with ⟨-, rfl⟩ | he
    · exact hb
    · exact h.binding b e he
  shadow := h.shadow
  predicate := h.predicate

theorem checks_bind (bank : Bank) (base : Nat) (binding : Binding) (h : binding.Valid w.listing) :
    Checks .declaring (Emit.bind bank base binding) w fun _ w' => w'.listing = w.listing := fun hw =>
  ⟨fun _ => rfl, .refl _, ⟨hw.listing, hw.registers.bind bank base h⟩, rfl⟩

/-- A copy of a builtin input has the place of an integer. -/
def Assembly.BuiltinCopy.Valid (l : Listing) (copy : BuiltinCopy) : Prop :=
  copy.place.Valid l i32

theorem checks_bindInput (input : Input) :
    Checks .declaring (bindInput input) w fun copy? w' =>
      (∀ copy, copy? = some copy → copy.Valid w'.listing) ∧
        ∀ k, input.location < 0x100000000 → w.listing.Small k → w'.listing.Small (k + 1) := by
  have builtin (name : String) (meaning : BuiltinVariable) (hname : isName name = true)
      (hlength : name.length ≤ 30) : Checks .declaring (do
        let place ← declare ⟨name, i32, .builtinInput meaning⟩
        return some ⟨place, input.register⟩) w fun (copy? : Option BuiltinCopy) w' =>
          (∀ copy, copy? = some copy → copy.Valid w'.listing) ∧
            ∀ k, input.location < 0x100000000 → w.listing.Small k → w'.listing.Small (k + 1) := by
    refine (checks_declareHost ⟨proper_scalar _, hname⟩).bind ?_
    intro place w1 _ _ hplace
    refine .pure ⟨fun copy h => ?_, fun k _ => hplace.2 k hlength⟩
    rw [← Option.some.inj h]
    exact hplace.1.1
  unfold bindInput
  cases input.meaning with
  | generic =>
    refine .ite (fun _ => .throw) fun hcomponents => ?_
    simp only [Bool.or_eq_true, decide_eq_true_eq, not_or, Nat.not_lt] at hcomponents
    refine (checks_declareHost (x := ⟨_, ⟨.f32, input.components⟩, _⟩)
      ⟨hcomponents, isName_numbered rfl _⟩).bind ?_
    intro place w1 _ _ hplace
    refine (checks_bind _ _ (.vector place input.components) ⟨hplace.1.1, hcomponents⟩).bind ?_
    intro _ w2 _ _ heq
    refine .pure ⟨fun _ h => absurd h (by simp), fun k hlocation hsmall => ?_⟩
    have hlength : ("in" ++ toString input.location).length ≤ 18 :=
      length_numbered (by decide) hlocation
    rw [heq]
    exact hplace.2 k (Nat.le_trans hlength (by decide)) hsmall
  | vertexIndex | instanceIndex => exact builtin _ _ rfl (by decide)

theorem checks_bindUniformBuffer (b : UniformBuffer) :
    Checks .declaring (bindUniformBuffer b) w fun _ w' =>
      ∀ k, b.index < 0x100000000 → w.listing.Small k → w'.listing.Small k := by
  unfold bindUniformBuffer
  refine .ite (fun _ => .pure fun _ _ h => h) fun _ => ?_
  refine (checks_declareHost ⟨proper_group, isName_numbered rfl _⟩).bind ?_
  intro place w1 _ _ hplace
  obtain ⟨⟨hvalid, hvariable⟩, hsmall⟩ := hplace
  refine (checks_bind _ _ (.array place _) ⟨hvalid.declared, hvalid.shape, ?_⟩).mono ?_
  · rw [hvariable]
    exact Nat.le_max_right _ _
  · intro _ w2 _ _ heq k hindex
    have hlength : ("ubo" ++ toString b.index).length ≤ 18 := length_numbered (by decide) hindex
    rw [heq]
    exact hsmall k (Nat.le_trans hlength (by decide))

theorem checks_nextLocation (inputs : List Input) :
    Checks .quiet (nextLocation inputs) w fun _ _ => True := by
  rw [nextLocation]
  refine (Checks.mapM (S := fun _ _ => True) inputs (fun _ _ _ _ h => h) fun i _ w' _ _ => ?_).bind
    fun _ _ _ _ _ => .pure trivial
  rw [← bind_pure (word _)]
  exact .word fun _ => .pure trivial

theorem checks_declareLastColor :
    Checks .declaring (declareLastColor ctx) w fun place? w' =>
      (∀ place, place? = some place → place.Valid w'.listing group) ∧
        ∀ k, w.listing.Small k → w'.listing.Small (k + 1) := by
  rw [declareLastColor]
  refine .ite (fun _ => ?_) fun _ =>
    .pure ⟨fun _ h => absurd h (by simp), fun k h => h.mono (Nat.le_succ k)⟩
  refine (checks_nextLocation ctx.shader.inputs).kept.declaring.bind ?_
  intro location w1 _ _ h1
  have hname : isName "last_color" = true := rfl
  have hlength : "last_color".length ≤ 30 := by decide
  rw [map_eq_pure_bind]
  refine (checks_declareHost ⟨proper_group, hname⟩).bind ?_
  intro place w2 _ _ hplace
  refine .pure ⟨fun p h => ?_, fun k hsmall => ?_⟩
  · rw [← Option.some.inj h]
    exact hplace.1.1
  · exact hplace.2 k hlength (hsmall.of_outer h1.1)

theorem checks_declareBank (bank : Bank) (hbank : bank.isRegister = true) (lanes : Nat) :
    Checks .declaring (declareBank bank lanes) w fun _ w' =>
      ∀ k, lanes ≤ 0x100000000 → w.listing.Small k → w'.listing.Small k := by
  rw [declareBank]
  refine .forM_keeping (I := fun w' => ∀ k, lanes ≤ 0x100000000 → w.listing.Small k →
    w'.listing.Small k) _ (fun _ _ h => h) fun j hj w1 _ _ hkept =>
      .getRegisters (.ite (fun _ => .pure hkept) fun _ => ?_)
  refine (checks_declareHost ⟨proper_group, isName_numbered (Bank.isName_name hbank) _⟩).bind ?_
  intro place w2 _ _ hplace
  refine (checks_bind _ _ (.vector place 4) ⟨hplace.1.1, by decide, by decide⟩).mono ?_
  intro _ w3 _ _ heq k hlanes hsmall
  have hj := mem_range.1 hj
  have hlength : (bank.name ++ toString (4 * j)).length ≤ 18 :=
    length_numbered bank.length_name (by omega)
  rw [heq]
  exact hplace.2 k (Nat.le_trans hlength (by decide)) (hkept k hlanes hsmall)

theorem checks_declareRegisterFiles (s : Shader) :
    Checks .declaring (declareRegisterFiles s) w fun _ w' =>
      ∀ k, s.Words → w.listing.Small k → w'.listing.Small k := by
  rw [declareRegisterFiles]
  refine (checks_declareBank .temporary rfl _).bind fun _ _ _ _ h1 => ?_
  refine (checks_declareBank .output rfl _).bind fun _ _ _ _ h2 => ?_
  refine (checks_declareBank .primaryAttribute rfl _).bind fun _ _ _ _ h3 => ?_
  refine (checks_declareBank .secondaryAttribute rfl _).bind fun _ _ _ _ h4 => ?_
  refine (checks_declareBank .internal rfl _).mono fun _ _ _ _ h5 k hs hsmall => ?_
  have hsmall1 := h1 k hs.temporaries hsmall
  have hsmall2 := h2 k hs.outputs hsmall1
  have hsmall3 := h3 k hs.primaryAttributes hsmall2
  have hsmall4 := h4 k hs.secondaryAttributes hsmall3
  exact h5 k (by decide) hsmall4

/-! ## Bodies -/

instance inferred_copyLiteral (literal : Literal) : Inferred w (copyLiteral ctx literal) () := by
  unfold copyLiteral
  split <;> exact .of_parts

instance inferred_copyBaseAddress (buffer : UniformBuffer) :
    Inferred w (copyBaseAddress ctx buffer) () := by
  unfold copyBaseAddress
  split <;> exact .of_parts

theorem checks_fillRegisters {copies : List BuiltinCopy}
    (h : ∀ copy ∈ copies, copy.Valid w.listing) :
    Checks .within (fillRegisters ctx copies) w fun _ _ => True := by
  refine (Checks.forM copies fun copy hcopy w' h' _ => ?_).bind fun _ w1 _ _ _ =>
    Checked.checks (g := ())
  have : Known w' copy.place ⟨.i32, 1⟩ := ⟨h'.valid (h copy hcopy)⟩
  unfold copyBuiltin
  exact Checked.checks (g := ())

theorem checks_seedColor {place : Place} (h : place.Valid w.listing group) :
    Checks .within (seedColor ctx place) w fun _ _ => True := by
  have : Known w place ⟨.f32, 4⟩ := ⟨h⟩
  unfold seedColor
  exact Checked.checks (g := ())

theorem Listing.Stays.has {l l' : Listing} {v : Value} {shape : Shape} (h : l.Stays l')
    (hv : l.Has v shape) : l'.Has v shape := hv.mono h.extension h.start

theorem checks_output {name : String} {shape : Shape} {location : Nat} {v : Value}
    (hname : isName name = true) (hlength : name.length ≤ 30) (hv : w.listing.Has v shape) :
    Checks .declaring (do store (← declare ⟨name, shape, .output location⟩) v) w fun _ w' =>
      ∀ k, w.listing.Small k → w'.listing.Small (k + 1) := by
  refine .sound fun hw => (checks_declareHost ⟨hw.listing.proper.has hv, hname⟩).bind ?_
  intro place w1 h1 _ hplace
  refine (checks_store hplace.1.1 (h1.has hv)).declaring.mono ?_
  intro _ w2 _ _ h2 k hsmall
  exact (hplace.2 k hlength hsmall).of_outer h2.1

theorem checks_writeColor :
    Checks .declaring (writeColor ctx) w fun _ w' =>
      ∀ k, w.listing.Small k → w'.listing.Small (k + 1) := by
  have hbank : (colorRegister ctx.shader.fragment).bank ≠ .predicate := by
    rw [colorRegister, Operand.ofRegister]
    dsimp only
    split <;> decide
  rw [writeColor]
  refine (inferred_loadOperand ctx hbank 0b1111 0).checks.declaring.bind ?_
  intro color w1 _ _ hcolor
  have : Known w1 color ⟨_, 4⟩ := ⟨hcolor.2⟩
  refine .join (Q := fun v w' => w'.listing.outer = w1.listing.outer ∧ ∃ s, w'.listing.Has v ⟨s, 4⟩)
    (fun _ => .pure ⟨rfl, _, hcolor.2⟩)
    (fun _ => (inferred_toFloat _ true).checks.declaring.mono fun _ _ _ _ h => ⟨h.1, _, h.2⟩) ?_
  rintro v w2 _ _ ⟨houter, s, hv⟩
  refine .shapeOf hv ((checks_output rfl (by decide) hv).mono fun _ w3 _ _ h k hsmall => ?_)
  exact h k (hsmall.of_outer (houter.trans hcolor.1))

theorem inferred_flipPosition {position : Value} [Known w position ⟨.f32, 4⟩] :
    Inferred w (flipPosition position) ⟨.f32, 4⟩ := by
  unfold flipPosition
  exact .of_parts

theorem checks_declarePosition : Checks .declaring declarePosition w fun place w' =>
    place.Valid w'.listing group ∧ ∀ k, w.listing.Small k → w'.listing.Small (k + 1) :=
  (checks_declareHost ⟨proper_group, rfl⟩).mono fun _ _ _ _ h =>
    ⟨h.1.1, fun k => h.2 k (by decide)⟩

theorem checks_writePosition (enabled : Bool) :
    Checks .declaring (writePosition ctx enabled) w fun _ w' =>
      ∀ k, w.listing.Small k → w'.listing.Small (k + 1) := by
  rw [writePosition]
  refine .ite (fun _ => ?_) fun _ => ?_
  · have hbank : (Operand.ofRegister .output 0 .f32).bank ≠ .predicate := by decide
    refine (inferred_loadOperand ctx hbank 0b1111 0).checks.declaring.bind ?_
    intro position w1 _ _ hposition
    refine checks_declarePosition.bind ?_
    intro place w2 h2 _ hplace
    have : Known w2 position ⟨.f32, 4⟩ := ⟨h2.has hposition.2⟩
    refine .join (Q := fun v w' => w2.listing.Extends w'.listing ∧ w'.listing.outer = w2.listing.outer ∧
      w'.listing.Has v ⟨.f32, 4⟩)
      (fun _ => inferred_flipPosition.checks.declaring.mono fun _ _ h _ hv => ⟨h.extension, hv⟩)
      (fun _ => .pure ⟨.refl _, rfl, h2.has hposition.2⟩) ?_
    rintro v w3 _ _ ⟨hextends, houter, hv⟩
    refine (checks_store (hplace.1.mono hextends) hv).declaring.mono fun _ w4 _ _ h k hsmall => ?_
    exact (hplace.2 k (hsmall.of_outer hposition.1)).of_outer (h.1.trans houter)
  · refine checks_declarePosition.bind ?_
    intro place w1 _ _ hplace
    refine (inferred_splatConstant (.f32 0#32) 4).checks.declaring.bind ?_
    intro zero w2 h2 _ hzero
    refine (checks_store (hplace.1.mono h2.extension) hzero.2).declaring.mono ?_
    intro _ w3 _ _ h k hsmall
    exact (hplace.2 k hsmall).of_outer (h.1.trans hzero.1)

/-- Names of varyings are fixed. -/
def Assembly.Varying.Named (v : Varying) : Prop := isName v.name = true ∧ v.name.length ≤ 30

theorem checks_writeVaryings (lane location : Nat) {varyings : List Varying}
    (hnamed : ∀ v ∈ varyings, v.Named) :
    Checks .declaring (writeVaryings ctx lane location varyings) w fun _ w' =>
      ∀ k, w.listing.Small k → w'.listing.Small (k + varyings.length) := by
  induction varyings generalizing w lane location with
  | nil => exact .pure fun _ h => h
  | cons v rest ih =>
    have hrest : ∀ v ∈ rest, v.Named := fun u hu => hnamed u (.tail _ hu)
    rw [writeVaryings]
    refine .ite (fun _ => ?_) fun _ => (ih lane location hrest).mono fun _ _ _ _ h k hsmall =>
      (h k hsmall).mono (Nat.le_succ _)
    have hbank : (Operand.ofRegister .output lane .f32).bank ≠ .predicate := by
      simp [Operand.ofRegister]
    refine (inferred_loadOperand ctx hbank 0b1111 0).checks.declaring.bind ?_
    intro value w1 _ _ hvalue
    have hv := hnamed v mem_cons_self
    refine .sound fun hw => (checks_declareHost ⟨proper_group, hv.1⟩).bind ?_
    intro place w2 h2 _ hplace
    refine (checks_store hplace.1.1 (h2.has hvalue.2)).declaring.bind ?_
    intro _ w3 _ _ h3
    refine (ih _ _ hrest).mono fun _ w4 _ _ h k hsmall => ?_
    have hsmall3 : w3.listing.Small (k + 1) :=
      (hplace.2 k hv.2 (hsmall.of_outer hvalue.1)).of_outer h3.1
    rw [length_cons, Nat.add_comm rest.length, ← Nat.add_assoc]
    exact h (k + 1) hsmall3

theorem varyings_named (v : VertexOutputs) : ∀ x ∈ (varyings v).tail, x.Named := by
  intro x hx
  simp only [varyings, cons_append, tail_cons, mem_cons, nil_append,
    mem_map, mem_range] at hx
  rcases hx with rfl | rfl | rfl | ⟨k, hk, rfl⟩
  · exact ⟨rfl, by decide⟩
  · exact ⟨rfl, by decide⟩
  · exact ⟨rfl, by decide⟩
  · have hlength : (toString k).length ≤ 10 := length_digits (by omega)
    have hstem : "v_texcoord".length = 10 := rfl
    refine ⟨isName_numbered rfl k, ?_⟩
    simp only [texcoord, String.length_append, hstem]
    omega

theorem checks_writeVertexOutputs :
    Checks .declaring (writeVertexOutputs ctx) w fun _ w' =>
      ∀ k, w.listing.Small k → w'.listing.Small (k + 14) := by
  rw [writeVertexOutputs]
  refine (checks_writePosition ctx _).bind ?_
  intro _ w1 _ _ h1
  refine (checks_writeVaryings ctx _ _ (varyings_named _)).mono fun _ w2 _ _ h2 k hsmall => ?_
  exact h2 (k + 1) (h1 k hsmall)

/-! ## Functions -/

theorem checks_beginFunction (name : String) (hname : isName name = true)
    (hlength : name.length ≤ 30) (h : w.listing.scope.phase = .outside) :
    Checks .across (beginFunction name) w fun f w' => w'.listing.scope.phase = .function ∧
      f.index < w'.listing.functions.size ∧ w'.listing.outer = w.listing.outer := by
  intro hw
  have hscope := w.listing.scope_add (.beginFunction name)
  have hcalls : w.listing.Calls (w.listing.add (.beginFunction name)) := by
    constructor
    · show w.listing.functions.size ≤ (w.listing.functions.push name).size
      simp
    · intro name' hname'
      rcases Array.mem_push.1 hname' with hold | rfl
      · exact .inl hold
      · exact .inr hlength
  exact ⟨fun _ => rfl, ⟨w.listing.extends_add (.beginFunction name), hcalls⟩,
    hw.add (.beginFunction h hname), congrArg Scope.phase hscope, by simp, rfl⟩

theorem checks_push {e : Entry} (hadd : w.listing.add e = w.listing.push e)
    (he : w.listing.Admits e) : Checks .across (push e) w fun _ w' =>
      w'.listing.scope.phase = (w.listing.scope.add e).phase ∧
        w'.listing.functions = w.listing.functions ∧ w'.listing.outer = w.listing.outer := by
  intro hw
  have hsound := hw.add he
  have hextends := w.listing.extends_add e
  have hscope := w.listing.scope_add e
  rw [hadd] at hsound hextends hscope
  exact ⟨fun _ => rfl, ⟨hextends, .of_eq rfl⟩, hsound, congrArg Scope.phase hscope, rfl, rfl⟩

theorem Checks.body {α : Type} {x : Emit α} {Q : α → Workspace → Prop} (hx : Checks .within x w Q) :
    Checks .across x w fun a w' =>
      w.listing.Stays w'.listing ∧ w'.listing.outer = w.listing.outer ∧ Q a w' :=
  hx.declaring.across

theorem checks_secondaryFunction (h : w.listing.scope.phase = .outside) :
    Checks .across (secondaryFunction ctx) w fun f? w' =>
      w'.listing.scope.phase = .outside ∧ w'.listing.outer = w.listing.outer ∧
        ∀ f, f? = some f → f.index < w'.listing.functions.size := by
  rw [secondaryFunction]
  refine .ite (fun _ => .pure ⟨h, rfl, fun _ h => nomatch h⟩) fun _ => ?_
  refine (checks_beginFunction "secondary" rfl (by decide) h).bind ?_
  intro f w1 _ _ hf
  refine (checks_lowerStream ctx ctx.shader.secondary true).body.bind ?_
  intro _ w2 _ _ hbody
  have hphase : w2.listing.scope.phase = .function := hbody.1.phase.trans hf.1
  refine (checks_push rfl (.endFunction hphase)).bind ?_
  intro _ w3 _ _ hend
  refine .pure ⟨hend.1, hend.2.2.trans (hbody.2.1.trans hf.2.2), fun g hg => ?_⟩
  rw [← Option.some.inj hg, hend.2.1, hbody.1.functions]
  exact hf.2.1

theorem checks_call {f : Function} (hphase : w.listing.scope.phase = .entry)
    (hf : f.index < w.listing.functions.size) :
    Checks .across (call f) w fun _ w' => w'.listing.scope.phase = .entry ∧
      w'.listing.functions = w.listing.functions ∧ w'.listing.outer = w.listing.outer := by
  refine (checks_push rfl (.call hphase hf)).mono fun _ w' _ _ h => ⟨h.1.trans ?_, h.2⟩
  exact hphase

theorem checks_lastColor {place? : Option Place}
    (h : ∀ place, place? = some place → place.Valid w.listing group) :
    Checks .within (place?.forM (seedColor ctx)) w fun _ _ => True := by
  cases place? with
  | none => exact .pure trivial
  | some place => exact checks_seedColor ctx (h place rfl)

theorem checks_callSecondary {f? : Option Function} (hphase : w.listing.scope.phase = .entry)
    (h : ∀ f, f? = some f → f.index < w.listing.functions.size) :
    Checks .across (f?.forM call) w fun _ w' => w'.listing.outer = w.listing.outer := by
  cases f? with
  | none => exact .pure rfl
  | some f => exact (checks_call hphase (h f rfl)).mono fun _ _ _ _ h => h.2.2

theorem checks_inputs :
    Checks .declaring (ctx.shader.inputs.mapM bindInput) w fun copies w' =>
      (∀ copy ∈ copies.filterMap id, BuiltinCopy.Valid w'.listing copy) ∧
        ∀ k, ctx.shader.Words → w.listing.Small k →
          w'.listing.Small (k + ctx.shader.inputs.length) := by
  refine (Checks.mapM_counting (P := .declaring)
    (S := fun copy? w' => ∀ copy, copy? = some copy → BuiltinCopy.Valid w'.listing copy)
    (I := fun n w' => ∀ k, ctx.shader.Words → w.listing.Small k → w'.listing.Small (k + n))
    ctx.shader.inputs (fun copy? _ _ h hcopy copy heq => (hcopy copy heq).mono h.extension)
    (k := 0) (fun _ _ h => h) fun input hinput n w' _ _ hkept => ?_).mono ?_
  · refine (checks_bindInput input).mono fun copy? w'' _ _ h => ⟨h.1, fun k hs hsmall => ?_⟩
    rw [← Nat.add_assoc]
    exact h.2 (k + n) (hs.inputs input hinput) (hkept k hs hsmall)
  · intro copies w' _ _ h
    refine ⟨fun copy hcopy => ?_, fun k hs hsmall => ?_⟩
    · obtain ⟨copy?, hmem, hid⟩ := mem_filterMap.1 hcopy
      exact h.1.2 copy? hmem copy hid
    · have := h.2 k hs hsmall
      rwa [Nat.zero_add] at this

theorem checks_uniformBuffers :
    Checks .declaring (ctx.shader.uniformBuffers.forM bindUniformBuffer) w fun _ w' =>
      ∀ k, ctx.shader.Words → w.listing.Small k → w'.listing.Small k := by
  refine .forM_keeping (I := fun w' => ∀ k, ctx.shader.Words → w.listing.Small k → w'.listing.Small k)
    _ (fun _ _ h => h) fun b hb w' _ _ hkept => ?_
  refine (checks_bindUniformBuffer b).mono fun _ w'' _ _ h k hs hsmall => ?_
  exact h k (hs.uniformBuffers b hb) (hkept k hs hsmall)

theorem checks_emitShader (h : w.listing.scope.phase = .outside) :
    Checks .across (emitShader ctx) w fun _ w' => ∀ k, ctx.shader.Words →
      w.listing.Small k → w'.listing.Small (k + ctx.shader.inputs.length + 15) := by
  rw [emitShader]
  -- declarations
  refine (checks_inputs ctx).across.bind ?_
  intro copies w1 _ _ h1
  refine (checks_uniformBuffers ctx).across.bind ?_
  intro _ w2 e2 _ h2
  refine (checks_declareLastColor ctx).across.bind ?_
  intro lastColor w3 e3 _ h3
  refine (checks_declareRegisterFiles ctx.shader).across.bind ?_
  intro _ w4 e4 _ h4
  have hphase : w4.listing.scope.phase = .outside := by
    rw [h4.1.phase, h3.1.phase, h2.1.phase, h1.1.phase]
    exact h
  -- functions
  refine (checks_beginFunction "init" rfl (by decide) hphase).bind ?_
  intro init w5 e5 _ h5
  have hcopies : ∀ copy ∈ copies.filterMap id, BuiltinCopy.Valid w5.listing copy :=
    fun copy hcopy => (h1.2.1 copy hcopy).mono (e2.1.trans (e3.1.trans (e4.1.trans e5.1)))
  refine (checks_fillRegisters ctx hcopies).body.bind ?_
  intro _ w6 e6 _ h6
  refine (checks_push rfl (.endFunction (h6.1.phase.trans h5.1))).bind ?_
  intro _ w7 e7 _ h7
  refine (checks_secondaryFunction ctx h7.1).bind ?_
  intro secondary w8 e8 _ h8
  -- the entry point
  refine (checks_push rfl (.beginEntry h8.1)).bind ?_
  intro _ w9 e9 _ h9
  have hinit : init.index < w9.listing.functions.size := by
    have hfunctions := e8.2.size
    rw [h7.2.1, h6.1.functions] at hfunctions
    rw [h9.2.1]
    exact Nat.lt_of_lt_of_le h5.2.1 hfunctions
  refine (checks_call h9.1 hinit).bind ?_
  intro _ w10 e10 _ h10
  have hcolor : ∀ place, lastColor = some place → place.Valid w10.listing group := by
    intro place hplace
    exact (h3.2.1 place hplace).mono (e4.1.trans (e5.1.trans (e6.1.trans (e7.1.trans
      (e8.1.trans (e9.1.trans e10.1))))))
  refine (checks_lastColor ctx hcolor).body.bind ?_
  intro _ w11 e11 _ h11
  have hsecondary : ∀ f, secondary = some f → f.index < w11.listing.functions.size := by
    intro f hf
    rw [h11.1.functions, h10.2.1, h9.2.1]
    exact h8.2.2 f hf
  refine (checks_callSecondary (h11.1.phase.trans h10.1) hsecondary).bind ?_
  intro _ w12 _ _ h12
  refine (checks_lowerStream ctx ctx.shader.primary false).body.bind ?_
  intro _ w13 _ _ h13
  have houter : w13.listing.outer = w4.listing.outer := by
    rw [h13.2.1, h12, h11.2.1, h10.2.2, h9.2.2, h8.2.1, h7.2.2, h6.2.1, h5.2.2]
  have hsmall (k : Nat) (hs : ctx.shader.Words) (hk : w.listing.Small k) :
      w13.listing.Small (k + ctx.shader.inputs.length + 1) :=
    (h4.2 _ hs (h3.2.2 _ (h2.2 _ hs (h1.2.2 k hs hk)))).of_outer houter
  cases ctx.shader.stage with
  | fragment =>
    refine (checks_writeColor ctx).across.mono fun _ _ _ _ h k hs hk => ?_
    exact (h.2 _ (hsmall k hs hk)).mono (by omega)
  | vertex =>
    refine (checks_writeVertexOutputs ctx).across.mono fun _ _ _ _ h k hs hk => ?_
    exact h.2 _ (hsmall k hs hk)

/-! ## Whole listings -/

/-- What is emitted for a target until the shader is complete or a fault ends it. -/
def emitted (ctx : Context) (t : Target) : Listing :=
  match emitShader ctx { listing := { target := t } } with
  | .ok _ w | .error _ w => w.listing

theorem sound_empty (t : Target) : Workspace.Sound { listing := { target := t } } where
  listing := .empty t
  registers :=
    { sorted := fun _ => .nil
      binding := fun _ _ h => nomatch h
      shadow := fun h => nomatch h
      predicate := fun {slot} _ h => by
        rw [Quad.get_replicate] at h
        exact nomatch h }

theorem wellTyped_emitted (t : Target) : (emitted ctx t).WellTyped := by
  have h := (checks_emitShader ctx (w := { listing := { target := t } }) rfl (sound_empty t)).2
  unfold emitted
  split at h
  case h_1 heq =>
    rw [heq]
    exact h.2.1.listing
  case h_2 heq =>
    rw [heq]
    exact h.2.listing

/-- Whatever the metadata and the words of a shader are, and whether or not they are at fault, each
request that is made while it is assembled fits the requests before it. -/
theorem requests_fit (ctx : Context) (t : Target) :
    (emitted ctx t).upTo (emitted ctx t).entries.size = emitted ctx t ∧
      ∀ i : Fin (emitted ctx t).entries.size,
        ((emitted ctx t).upTo i).Admits ((emitted ctx t).entries[i]) :=
  ⟨(wellTyped_emitted ctx t).upTo_size, fun i => (wellTyped_emitted ctx t).admits i i.isLt⟩

/-! ## Other targets -/

theorem emitShader_retarget (t t' : Target) :
    emitShader ctx { listing := { target := t' } } =
      retargetResult t' (emitShader ctx { listing := { target := t } }) :=
  (checks_emitShader ctx (w := { listing := { target := t } }) rfl (sound_empty t)).1 t'

/-- The front end does the same for every target: it makes the same requests, each value has the
same shape, and either all assemblies give the same interface or all end with the same error. -/
theorem assemblies_agree (ctx : Context) (t t' : Target) :
    ((emitted ctx t').entries = (emitted ctx t).entries ∧
      ∀ v, (emitted ctx t').shapeOf v = (emitted ctx t).shapeOf v) ∧
    ((∃ e, assemble ctx t = .error e ∧ assemble ctx t' = .error e) ∨
      ∃ a a', assemble ctx t = .ok a ∧ assemble ctx t' = .ok a' ∧
        a.listing = emitted ctx t ∧ a'.listing = emitted ctx t' ∧
        a'.stage = a.stage ∧ a'.samplers = a.samplers ∧ a'.written = a.written) := by
  have hrun := emitShader_retarget ctx t t'
  rw [assemble, assemble, emitted, emitted, hrun]
  cases emitShader ctx { listing := { target := t } } with
  | error e w => exact ⟨⟨rfl, fun _ => rfl⟩, .inl ⟨e, rfl, rfl⟩⟩
  | ok _ w => exact ⟨⟨rfl, fun _ => rfl⟩, .inr ⟨_, _, rfl, rfl, rfl, rfl, rfl, rfl, rfl⟩⟩

end Microcode
