import Microcode.Proofs.Backing
import Microcode.Proofs.Nearness

/-!
Descriptions whose numbers are in range.

The description of a shader binds lanes to its inputs and buffers, and names lanes that are filled
before the shader runs.  If these leave room for what is counted from them, no word of the shader
makes register arithmetic overflow.
-/

namespace Microcode

open Emit Footprint List

variable {bank : Bank} {lane register : Nat}

/-! ## Descriptions -/

namespace Shader

/-- A description whose numbers have 32 bits, with the usual register counts. -/
structure Plain (s : Shader) : Prop where
  temporaries : s.temporaries = 32
  primaryAttributes : s.primaryAttributes = 32
  secondaryAttributes : s.secondaryAttributes = 32
  outputs : s.outputs = 16
  inputs : ∀ i ∈ s.inputs, i.location < 2 ^ 32 ∧ i.register < 2 ^ 32
  literals : ∀ l ∈ s.literals, l.register < 2 ^ 32
  buffers : ∀ b ∈ s.uniformBuffers, b.size < 2 ^ 32 ∧ b.start < 2 ^ 32 ∧
    ∀ register, b.baseRegister? = some register → register < 2 ^ 32
  color : s.fragment.start < 2 ^ 32

/-- A secondary attribute outside the last group, up to the group of which all buffers end in
range. -/
structure Stores (s : Shader) (register : Nat) : Prop where
  group : register + 4 < 2 ^ 32
  buffers : ∀ b ∈ s.uniformBuffers, b.start ≤ register / 4 * 4 + 3 →
    b.start + (b.size + 15) / 16 * 4 < 2 ^ 32

/-- Lanes and locations that leave room for what is counted from them. -/
structure InRange (s : Shader) : Prop where
  locations : s.stage = .fragment → ∀ i ∈ s.inputs, i.location + 1 < 2 ^ 32
  builtins : ∀ i ∈ s.inputs, i.meaning ≠ .generic → i.register + 4 < 2 ^ 32
  literals : ∀ l ∈ s.literals, s.Stores l.register
  bases : ∀ b ∈ s.uniformBuffers, ∀ register, b.baseRegister? = some register → s.Stores register
  color : s.stage = .fragment → s.fragment.native = false →
    s.fragment.start + 4 / s.fragment.element.ratio + 4 ≤ 2 ^ 32

/-- Inputs have one to four components, literals are found in their buffer, and uniform buffers end
in range. -/
structure Accepted (s : Shader) : Prop where
  components : ∀ i ∈ s.inputs, i.meaning = .generic → 1 ≤ i.components ∧ i.components ≤ 4
  literals : ∀ l ∈ s.literals, l.offset + 4 ≤ s.literalBuffer.size
  buffers : ∀ b ∈ s.uniformBuffers, b.start + (b.size + 15) / 16 * 4 < 2 ^ 32

/-! ## Bindings -/

/-- What a shader binds to lanes. -/
inductive Binds (s : Shader) : Bank → Nat × Binding → Prop
  | input (base : Nat) (place : Place) {lanes : Nat} (h : lanes ≤ 4) :
      Binds s .primaryAttribute (base, .vector place lanes)
  | buffer {b : UniformBuffer} (hb : b ∈ s.uniformBuffers) (place : Place) :
      Binds s .secondaryAttribute (b.start, .array place ((b.size + 15) / 16))
  | group (bank : Bank) {base : Nat} (h : base < 64) (place : Place) :
      Binds s bank (base, .vector place 4)

/-- A register file as the declarations leave it. -/
structure Declares (s : Shader) (r : RegisterFile) : Prop where
  bound : ∀ bank, ∀ e ∈ (r.tables bank).entries, s.Binds bank e
  shadows : r.shadows = []

theorem Declares.bind {s : Shader} {r : RegisterFile} (h : s.Declares r) {base : Nat}
    {binding : Binding} (hb : s.Binds bank (base, binding)) :
    s.Declares (r.bind bank base binding) := by
  refine ⟨fun b e he => ?_, h.shadows⟩
  rcases RegisterFile.mem_bind he with ⟨rfl, rfl⟩ | he
  · exact hb
  · exact h.bound b e he

section

variable {s : Shader} {r : RegisterFile} (h : s.Declares r)
include h

theorem Declares.over : r.Over r :=
  ⟨rfl, fun bank => by rw [RegisterFile.shadow?, h.shadows]; rfl⟩

theorem Declares.narrow : r.Narrow := by
  refine ⟨fun bank e he place lanes heq => ?_⟩
  cases h.bound bank e he with
  | input base place' hlanes =>
    obtain ⟨-, rfl⟩ := Binding.vector.inj heq
    exact hlanes
  | buffer hb place' => cases heq
  | group bank hbase place' =>
    obtain ⟨-, rfl⟩ := Binding.vector.inj heq
    exact Nat.le_refl 4

/-- Bindings that start no later than a lane end in range, if those of buffers do. -/
theorem Declares.endsAt (hlane : lane + 4 < 2 ^ 32)
    (hbuffers : bank = .secondaryAttribute → ∀ b ∈ s.uniformBuffers, b.start ≤ lane →
      b.start + (b.size + 15) / 16 * 4 < 2 ^ 32) : r.EndsAt bank lane := by
  intro base binding hc
  obtain ⟨hmem, hle⟩ := OrderedMap.floorList_mem hc
  cases h.bound bank _ hmem with
  | input _ place hlanes | group _ hbase place =>
    dsimp only [Binding.lanes] at hle ⊢
    omega
  | buffer hb place => exact hbuffers rfl _ hb hle

theorem Declares.clear (hlane : lane + 4 < 2 ^ 32)
    (hbuffers : bank = .secondaryAttribute → ∀ b ∈ s.uniformBuffers, b.start ≤ lane / 4 * 4 + 3 →
      b.start + (b.size + 15) / 16 * 4 < 2 ^ 32) : r.Clear bank lane := by
  refine ⟨h.endsAt hlane fun hbank b hb hle => hbuffers hbank b hb (by omega),
    fun _ => ⟨by omega, ?_⟩⟩
  exact fun i hi => h.endsAt (by omega) fun hbank b hb hle => hbuffers hbank b hb (by omega)

theorem Declares.clear_output : r.Clear .output lane := by
  refine ⟨fun base binding hc => ?_, fun h => nomatch h⟩
  cases h.bound .output _ (OrderedMap.floorList_mem hc).1 with
  | group _ hbase place =>
    dsimp only [Binding.lanes]
    omega

theorem Declares.roomy (plain : s.Plain) : r.Roomy := by
  refine { h.narrow with clear := fun bank lane hlane => h.clear (by omega) fun _ b hb hle => ?_ }
  have hsize := (plain.buffers b hb).1
  omega

end
end Shader

/-! ## Declarations -/

/-- Errors of `E` are all errors but overflows, or the description is accepted. -/
def Tolerates (E : Error → Prop) (s : Shader) : Prop := Ordinary E ∨ s.Accepted

namespace Described

open Assembly

variable {E : Error → Prop} {s : Shader} {w : Workspace}

/-- The register that a builtin input is copied to. -/
def builtinRegister? (i : Input) : Option Nat :=
  if i.meaning = .generic then none else some i.register

theorem leads_bindInput (hE : Tolerates E s) {input : Input} (hinput : input ∈ s.inputs)
    (h : s.Declares w.registers) : (free E).Leads (bindInput input) w fun copy? w' =>
      copy?.map BuiltinCopy.register = builtinRegister? input ∧ s.Declares w'.registers := by
  unfold bindInput builtinRegister?
  cases hmeaning : input.meaning with
  | generic =>
    apply Leads.ite
    · intro hcomponents
      refine Leads.bind (Q := fun _ _ => False) (.throw ?_) fun _ _ _ h => h.elim
      rcases hE with hordinary | haccepted
      · exact hordinary.holds _ nofun
      · have hfour := haccepted.components input hinput hmeaning
        simp only [Bool.or_eq_true, decide_eq_true_eq] at hcomponents
        omega
    · intro hcomponents
      simp only [Bool.or_eq_true, decide_eq_true_eq, not_or] at hcomponents
      exact ⟨trivial, rfl, h.bind (.input _ _ (by omega))⟩
  | vertexIndex => exact ⟨trivial, rfl, h⟩
  | instanceIndex => exact ⟨trivial, rfl, h⟩

theorem leads_bindUniformBuffer {b : UniformBuffer} (hb : b ∈ s.uniformBuffers)
    (h : s.Declares w.registers) :
    (free E).Leads (bindUniformBuffer b) w fun _ w' => s.Declares w'.registers := by
  unfold bindUniformBuffer
  exact .ite (fun _ => .pure h) fun _ => ⟨trivial, h.bind (.buffer hb _)⟩

theorem leads_declareRegisterFiles (plain : s.Plain) (h : s.Declares w.registers) :
    (free E).Leads (declareRegisterFiles s) w fun _ w' => s.Declares w'.registers := by
  rw [declareRegisterFiles_eq, declareBanks_eq]
  apply Leads.forM (I := fun w => s.Declares w.registers) _ h
  intro group hgroup w1 _ h1
  have hlanes : 4 * group.2 < s.lanesOf group.1 := Shader.mem_groupsOf_files.1 hgroup
  have hsmall : s.lanesOf group.1 ≤ 32 := by
    unfold Shader.lanesOf
    rw [plain.temporaries, plain.outputs, plain.primaryAttributes, plain.secondaryAttributes]
    split <;> decide
  apply Leads.getRegisters
  exact .ite (fun _ => .pure h1) fun _ => ⟨trivial, h1.bind (.group group.1 (by omega) _)⟩

theorem leads_nextLocation {F : Footprint} {inputs : List Input}
    (h : ∀ i ∈ inputs, i.location + 1 < 2 ^ 32) (w : Workspace) :
    F.Leads (nextLocation inputs) w fun _ w' => w' = w := by
  unfold nextLocation
  have hwords : F.Leads (inputs.mapM fun i => word (i.location + 1)) w fun locations w' =>
      locations.map (fun _ => ()) = inputs.map (fun _ => ()) ∧ w' = w := by
    apply Leads.mapM (I := fun w' => w' = w) _ rfl
    rintro i hi _ rfl
    exact (leads_word (within_word_of_lt (h i hi)) _).mono fun _ _ _ h => ⟨rfl, h.2⟩
  apply hwords.bind
  rintro locations w1 - ⟨-, rfl⟩
  exact .pure rfl

/-- Everything before the first function. -/
def declarations (ctx : Context) : Emit (List (Option BuiltinCopy) × Option Place) := do
  let copies ← ctx.shader.inputs.mapM bindInput
  ctx.shader.uniformBuffers.forM bindUniformBuffer
  let lastColor ← declareLastColor ctx
  declareRegisterFiles ctx.shader
  return (copies, lastColor)

/-- The function that fills registers. -/
def initFunction (ctx : Context) (copies : List BuiltinCopy) : Emit Function := do
  let init ← beginFunction "init"
  fillRegisters ctx copies
  endFunction
  return init

/-- The secondary program and the entry point. -/
def programs (ctx : Context) (init : Function) (lastColor : Option Place) : Emit Unit := do
  let secondary ← secondaryFunction ctx
  beginEntry
  call init
  lastColor.forM (seedColor ctx)
  secondary.forM call
  lowerStream ctx ctx.shader.primary false
  match ctx.shader.stage with
  | .fragment => writeColor ctx
  | .vertex => writeVertexOutputs ctx

theorem emitShader_eq (ctx : Context) : emitShader ctx = (do
    let (copies, lastColor) ← declarations ctx
    let init ← initFunction ctx (copies.filterMap id)
    programs ctx init lastColor) := by
  cases hstage : ctx.shader.stage <;>
    simp only [emitShader, declarations, initFunction, programs, hstage, bind_assoc, pure_bind]

/-- The colour that a fragment is drawn over is shown. -/
def showsColor (ctx : Context) : Bool := ctx.shader.stage = .fragment && ctx.features.directColor

theorem leads_declareLastColor {ctx : Context}
    (hlocations : showsColor ctx = true → ∀ i ∈ ctx.shader.inputs, i.location + 1 < 2 ^ 32)
    (h : s.Declares w.registers) :
    (free E).Leads (declareLastColor ctx) w fun place? w' =>
      place?.isSome = showsColor ctx ∧ s.Declares w'.registers := by
  unfold declareLastColor
  change (free E).Leads (if showsColor ctx = true then _ else _) w _
  apply Leads.ite
  · intro hshown
    apply (leads_nextLocation (hlocations hshown) w).bind
    rintro location w1 - rfl
    exact ⟨trivial, hshown.symm, h⟩
  · intro hshown
    exact .pure ⟨(Bool.eq_false_iff.2 hshown).symm, h⟩

theorem leads_bindInputs (hE : Tolerates E s) (h : s.Declares w.registers) :
    (free E).Leads (s.inputs.mapM bindInput) w fun copies w' =>
      copies.map (Option.map BuiltinCopy.register) = s.inputs.map builtinRegister? ∧
        s.Declares w'.registers := by
  apply Leads.mapM (I := fun w => s.Declares w.registers) _ h
  exact fun input hinput w' h' => leads_bindInput hE hinput h'

theorem leads_bindUniformBuffers (h : s.Declares w.registers) :
    (free E).Leads (s.uniformBuffers.forM bindUniformBuffer) w fun _ w' =>
      s.Declares w'.registers :=
  Leads.forM (I := fun w => s.Declares w.registers) _ h fun _ hb _ _ h' =>
    leads_bindUniformBuffer hb h'

theorem leads_declarations {ctx : Context} (hE : Tolerates E ctx.shader) (plain : ctx.shader.Plain)
    (hlocations : showsColor ctx = true → ∀ i ∈ ctx.shader.inputs, i.location + 1 < 2 ^ 32)
    (h : ctx.shader.Declares w.registers) :
    (free E).Leads (declarations ctx) w fun result w' =>
      result.1.map (Option.map BuiltinCopy.register) = ctx.shader.inputs.map builtinRegister? ∧
      result.2.isSome = showsColor ctx ∧ ctx.shader.Declares w'.registers := by
  unfold declarations
  apply (leads_bindInputs hE h).bind
  rintro copies w1 - ⟨hcopies, h1⟩
  apply (leads_bindUniformBuffers h1).bind
  rintro _ w2 - h2
  apply (leads_declareLastColor hlocations h2).bind
  rintro lastColor w3 - ⟨hshown, h3⟩
  apply (leads_declareRegisterFiles plain h3).bind
  rintro _ w4 - h4
  exact .pure ⟨hcopies, hshown, h4⟩

/-! ## Registers that are filled -/

section

variable {r : RegisterFile}

instance within_steadyBegin (name : String) : Within (steady E r) (beginFunction name) :=
  ⟨fun _ => ⟨fun h => h, trivial⟩⟩

instance within_steadyEnd : Within (steady E r) endFunction := ⟨fun _ => ⟨fun h => h, trivial⟩⟩

instance within_steadyEntry : Within (steady E r) beginEntry := ⟨fun _ => ⟨fun h => h, trivial⟩⟩

instance within_steadyCall (f : Function) : Within (steady E r) (call f) :=
  ⟨fun _ => ⟨fun h => h, trivial⟩⟩

theorem touched_one {ratio k : Nat} (h : Access.Touched ratio 0b0001 k) : k = 0 := by
  obtain ⟨c, hc, rfl⟩ := h
  have hcomponents : Mask.components 0b0001 = [0] := by decide
  rw [hcomponents, mem_singleton] at hc
  rw [hc, Nat.zero_div]

theorem writable_of_clear (hbank : bank.isShadowed = true) {k : Nat} (element : Element)
    (hk : k < 4) (hlane : register + k < 2 ^ 32) (hclear : r.Clear bank (register + k)) :
    Steady.Writable E r (.ofRegister bank register element) 0 k := by
  have hnumber := laneNumber_of_isShadowed hbank register (0 + k)
  refine ⟨by omega, by omega, fun lane hnum _ => ?_, .inl ⟨?_, ?_, hbank, rfl⟩⟩
  · have heq : lane = register + k := by
      have := hnumber.symm.trans hnum
      omega
    exact heq ▸ hclear
  · show 0 ≤ laneNumber bank register (0 + k)
    omega
  · show laneNumber bank register (0 + k) < 0x100000000
    omega

theorem writable_lane (hbank : bank.isShadowed = true) (element : Element)
    (hlane : register < 2 ^ 32) (hclear : r.Clear bank register) (k : Nat)
    (hk : Access.Touched (Operand.ofRegister bank register element).storage.ratio 0b0001 k) :
    Steady.Writable E r (.ofRegister bank register element) 0 k := by
  obtain rfl := touched_one hk
  exact writable_of_clear hbank element (by decide) hlane hclear

variable (hr : s.Declares r)
include hr

theorem within_copyBuiltin (ctx : Context) {copy : BuiltinCopy} (h : copy.register + 4 < 2 ^ 32) :
    Within (steady E r) (copyBuiltin ctx copy) := by
  have := hr.narrow
  have (v : Value) : Within (steady E r) (Access.store ctx
      (.ofRegister .primaryAttribute copy.register .s32) v 0b0001 0 none) :=
    Steady.within_store ctx v none rfl
      (writable_lane rfl _ (by omega) (hr.clear h fun h => nomatch h))
  unfold copyBuiltin
  infer_instance

theorem within_storeSecondary (ctx : Context) (h : s.Stores register) (element : Element)
    (v : Value) : Within (steady E r)
      (Access.store ctx (.ofRegister .secondaryAttribute register element) v 0b0001 0 none) := by
  have := hr.narrow
  have hgroup := h.group
  exact Steady.within_store ctx v none rfl
    (writable_lane rfl _ (by omega) (hr.clear hgroup fun _ b hb hle => h.buffers b hb hle))

theorem within_copyBaseAddress (ctx : Context) {b : UniformBuffer}
    (h : ∀ register, b.baseRegister? = some register → s.Stores register) :
    Within (steady E r) (copyBaseAddress ctx b) := by
  unfold copyBaseAddress
  cases hbase : b.baseRegister? with
  | none =>
    dsimp only
    infer_instance
  | some register =>
    have (v : Value) := within_storeSecondary (E := E) hr ctx (h register hbase) .u32 v
    dsimp only
    infer_instance

end

theorem within_copyLiteral {r : RegisterFile} {ctx : Context} (hE : Tolerates E ctx.shader)
    (hr : ctx.shader.Declares r) {l : Literal} (hl : l ∈ ctx.shader.literals)
    (h : ctx.shader.Stores l.register) : Within (steady E r) (copyLiteral ctx l) := by
  have (v : Value) := within_storeSecondary (E := E) hr ctx h .f32 v
  unfold copyLiteral
  cases hliteral : ctx.shader.literal l.offset with
  | ok bits =>
    dsimp only
    infer_instance
  | error e =>
    rcases hE with hordinary | haccepted
    · have := may_literal (F := steady E r) hliteral
      dsimp only
      infer_instance
    · have hfound := haccepted.literals l hl
      unfold Shader.literal at hliteral
      dsimp only at hliteral
      rw [if_pos hfound] at hliteral
      cases hliteral

theorem within_initFunction {r : RegisterFile} {ctx : Context} (hE : Tolerates E ctx.shader)
    (hr : ctx.shader.Declares r) {copies : List BuiltinCopy}
    (hcopies : ∀ copy ∈ copies, copy.register + 4 < 2 ^ 32)
    (hliterals : ∀ l ∈ ctx.shader.literals, ctx.shader.Stores l.register)
    (hbases : ∀ b ∈ ctx.shader.uniformBuffers, ∀ register, b.baseRegister? = some register →
      ctx.shader.Stores register) : Within (steady E r) (initFunction ctx copies) := by
  have := Lowering.within_forM_mem copies fun copy hcopy =>
    within_copyBuiltin (E := E) hr ctx (hcopies copy hcopy)
  have := Lowering.within_forM_mem ctx.shader.literals fun l hl =>
    within_copyLiteral hE hr hl (hliterals l hl)
  have := Lowering.within_forM_mem ctx.shader.uniformBuffers fun b hb =>
    within_copyBaseAddress (E := E) hr ctx (hbases b hb)
  unfold initFunction fillRegisters
  infer_instance

/-! ## Programs -/

theorem texcoord_lanes_le (v : VertexOutputs) (k : Nat) : (texcoord v k).lanes ≤ 4 := by
  dsimp only [texcoord]
  split <;> omega

section

variable {r : RegisterFile} {ctx : Context} (hr : ctx.shader.Declares r)
include hr

theorem clear_colorRegister (range : ctx.shader.InRange) (hstage : ctx.shader.stage = .fragment) :
    (colorRegister ctx.shader.fragment).Clear r 0 := by
  have hcolor := range.color hstage
  generalize ctx.shader.fragment = f at hcolor
  obtain ⟨native, element, start⟩ := f
  cases native with
  | true =>
    exact ⟨by decide, by decide, fun h => (nomatch h), fun _ _ _ lane _ _ => hr.clear_output⟩
  | false =>
    refine ⟨by decide, by decide, fun h => (nomatch h), fun _ k hk lane hlane _ =>
      hr.clear ?_ fun h => nomatch h⟩
    have hroom := hcolor rfl
    replace hk : k < 4 / element.ratio := hk
    replace hlane : (start : Int) + (0 + k) = lane := hlane
    dsimp only at hroom
    omega

variable [Ordinary E]

theorem within_writeColor (range : ctx.shader.InRange) (hstage : ctx.shader.stage = .fragment) :
    Within (steady E r) (writeColor ctx) := by
  have := hr.narrow
  have := clear_colorRegister hr range hstage
  unfold writeColor
  infer_instance

theorem within_seedColor (range : ctx.shader.InRange) (hstage : ctx.shader.stage = .fragment)
    (place : Place) : Within (steady E r) (seedColor ctx place) := by
  have := hr.narrow
  have := (clear_colorRegister hr range hstage).open (E := E)
  unfold seedColor
  infer_instance

theorem within_writeVaryings (plain : ctx.shader.Plain) (lane location : Nat)
    (vs : List Varying) (hlanes : ∀ v ∈ vs, v.lanes ≤ 4) (hlane : lane + 4 * vs.length < 2 ^ 25) :
    Within (steady E r) (writeVaryings ctx lane location vs) := by
  have := hr.roomy plain
  induction vs generalizing lane location with
  | nil =>
    unfold writeVaryings
    infer_instance
  | cons v rest ih =>
    rw [length_cons] at hlane
    have hv := hlanes v mem_cons_self
    have hrest : ∀ v ∈ rest, v.lanes ≤ 4 := fun u hu => hlanes u (.tail _ hu)
    have : Operand.Clear r (.ofRegister .output lane .f32) 0 :=
      Operand.clear_of_lt (show lane < 2 ^ 25 by omega) ⟨by decide, by decide⟩
    have := ih (lane + v.lanes) (location + 1) hrest (by omega)
    have := ih lane location hrest (by omega)
    unfold writeVaryings
    infer_instance

theorem within_writeVertexOutputs (plain : ctx.shader.Plain) :
    Within (steady E r) (writeVertexOutputs ctx) := by
  have := hr.roomy plain
  have : Operand.Clear r (.ofRegister .output 0 .f32) 0 :=
    Operand.clear_of_lt (show 0 < 2 ^ 25 by decide) ⟨by decide, by decide⟩
  have hlanes : ∀ v ∈ (varyings ctx.shader.vertexOutputs).tail, v.lanes ≤ 4 := by
    intro v hv
    simp only [varyings, cons_append, tail_cons, nil_append, mem_cons,
      mem_map] at hv
    rcases hv with rfl | rfl | rfl | ⟨k, -, rfl⟩
    · decide
    · decide
    · decide
    · exact texcoord_lanes_le _ k
  have hvaryings (lane : Nat) (hlane : lane ≤ 4) : Within (steady E r)
      (writeVaryings ctx lane 0 (varyings ctx.shader.vertexOutputs).tail) := by
    apply within_writeVaryings hr plain lane 0 _ hlanes
    simp only [varyings, cons_append, tail_cons, nil_append, length_cons,
      length_map, length_range]
    omega
  have := hvaryings (if ctx.shader.vertexOutputs.enabled.getLsbD 0 = true then 4 else 0)
    (by split <;> decide)
  have (enabled : Bool) : Within (steady E r) (writePosition ctx enabled) := by
    unfold writePosition declarePosition
    infer_instance
  unfold writeVertexOutputs
  infer_instance

theorem within_programs (plain : ctx.shader.Plain) (range : ctx.shader.InRange) (init : Function)
    {lastColor : Option Place} (hshown : lastColor.isSome = showsColor ctx) :
    Within (steady E r) (programs ctx init lastColor) := by
  have := hr.roomy plain
  have (words : List Word) (secondary : Bool) :=
    Steady.within_stream (E := E) (r := r) ctx words secondary
  have : Within (steady E r) (secondaryFunction ctx) := by
    unfold secondaryFunction
    infer_instance
  have : Within (steady E r) (lastColor.forM (seedColor ctx)) := by
    cases lastColor with
    | none => exact within_pure ()
    | some place =>
      have hstage : ctx.shader.stage = .fragment := by
        have hshown : showsColor ctx = true := hshown.symm
        simp only [showsColor, Bool.and_eq_true, decide_eq_true_eq] at hshown
        exact hshown.1
      exact within_seedColor hr range hstage place
  have (secondary : Option Function) : Within (steady E r) (secondary.forM call) := by
    cases secondary with
    | none => exact within_pure ()
    | some f => exact within_steadyCall f
  have : Within (steady E r) (match ctx.shader.stage with
      | .fragment => writeColor ctx
      | .vertex => writeVertexOutputs ctx) := by
    cases hstage : ctx.shader.stage with
    | fragment => exact within_writeColor hr range hstage
    | vertex => exact within_writeVertexOutputs hr plain
  unfold programs
  infer_instance

end

end Described
end Microcode
