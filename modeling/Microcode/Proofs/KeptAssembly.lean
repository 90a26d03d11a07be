import Microcode.Proofs.ConfinedStreams

/-!
Assembled shaders keep their register files in order.

The banks that a function keeps to do not matter here.  Whatever the metadata and the words of a
shader are, and whether or not they are at fault, every register file of the run is orderly, shadows
are only added, and nothing is stored to an input or a uniform buffer.
-/

namespace Microcode

open Emit Footprint List

variable {f? : Option Function} {place : Place} {α : Type}

/-! ## Code of one function -/

/-- Does not begin or end a function, nor call one. -/
def Entry.isStraight : Entry → Bool
  | .beginFunction _ | .endFunction | .beginEntry | .call _ => false
  | _ => true

theorem Entry.Confined.isStraight {r : RegisterFile} {B : Bank → Prop} {e : Entry}
    (h : e.Confined r B) : e.isStraight = true := by
  cases e with
  | beginFunction | endFunction | beginEntry | call => exact absurd h id
  | _ => rfl

/-- What was emitted between two workspaces is code of one function, which keeps the register files
in order and adds shadows with new variables. -/
structure Workspace.Runs (w w' : Workspace) : Prop where
  entries : ∃ added, w'.listing.entries.toList = w.listing.entries.toList ++ added ∧
    ∀ e ∈ added, e.isStraight = true
  extension : w.listing.Extends w'.listing
  functions : w'.listing.functions = w.listing.functions
  shadows : ∃ new, w'.registers.shadows = new ++ w.registers.shadows ∧
    ∀ s ∈ new, w.listing.vars.size ≤ s.2.place.variableIndex
  kept : w.Kept → w'.Kept

/-- The workspace with one more entry. -/
def Workspace.add (w : Workspace) (e : Entry) : Workspace := { w with listing := w.listing.add e }

namespace Workspace

variable {w w' w'' : Workspace}

theorem Runs.refl (w : Workspace) : w.Runs w := ⟨⟨[], by simp⟩, .refl _, rfl, ⟨[], by simp⟩, id⟩

theorem Runs.trans (h : w.Runs w') (h' : w'.Runs w'') : w.Runs w'' := by
  obtain ⟨added, hadded, hstraight⟩ := h.entries
  obtain ⟨added', hadded', hstraight'⟩ := h'.entries
  obtain ⟨new, hnew, hvariables⟩ := h.shadows
  obtain ⟨new', hnew', hvariables'⟩ := h'.shadows
  constructor
  · refine ⟨added ++ added', by rw [hadded', hadded, append_assoc], fun e he => ?_⟩
    exact (mem_append.1 he).elim (hstraight e) (hstraight' e)
  · exact h.extension.trans h'.extension
  · exact h'.functions.trans h.functions
  · refine ⟨new' ++ new, by rw [hnew', hnew, append_assoc], fun s hs => ?_⟩
    rcases mem_append.1 hs with hs | hs
    · exact Nat.le_trans h.extension.vars_size (hvariables' s hs)
    · exact hvariables s hs
  · exact fun hw => h'.kept (h.kept hw)

theorem Confined.runs {B : Bank → Prop} (h : w.Confined B w') : w.Runs w' := by
  obtain ⟨added, hadded, hconfined⟩ := h.entries
  obtain ⟨new, hnew, hvariables⟩ := h.registers.shadows
  exact ⟨⟨added, hadded, fun e he => (hconfined e he).isStraight⟩, h.extension, h.functions,
    ⟨new, hnew, fun s hs => (hvariables s hs).2⟩, h.kept⟩

theorem Runs.prolongs (h : w.Runs w') : w.listing.Prolongs w'.listing := by
  obtain ⟨added, hadded, -⟩ := h.entries
  exact ⟨added, hadded⟩

/-- One more entry; a variable that it touches is declared, and may be written if it is stored
to. -/
theorem Runs.add {e : Entry} (he : e.isStraight = true)
    (htouches : ∀ x, e.touches x = true → x < w.listing.vars.size)
    (hstore : ∀ place v, e = .store place v →
      (w.listing.variableAt place).storage.isGiven = false) : w.Runs (w.add e) := by
  constructor
  · exact ⟨[e], by simp [Workspace.add], by simpa using he⟩
  · exact w.listing.extends_add e
  · cases e with
    | beginFunction => cases he
    | _ => rfl
  · exact ⟨[], rfl, by simp⟩
  · exact fun hw => hw.add htouches hstore

theorem Runs.load (h : w.listing.Declares place) :
    w.Runs (w.add (.define (w.listing.opShape (.load place)) (.load place))) := by
  apply Runs.add rfl
  · intro x hx
    have hplace : place.variableIndex = x := by simpa [Entry.touches] using hx
    exact hplace ▸ h
  · exact fun _ _ h => by cases h

theorem Kept.border {e : Entry} (hw : w.Kept) (he : e.isStraight = false) : (w.add e).Kept := by
  apply hw.add
  · intro x hx
    cases e with
    | beginFunction | endFunction | beginEntry | call => cases hx
    | _ => cases he
  · rintro place v rfl
    cases he

end Workspace

/-- Code of one function, whatever it reads. -/
def Footprint.running : Footprint where
  Rel := Workspace.Runs
  Fails w _ w' := w.Runs w'
  refl := .refl
  trans := .trans
  add _ _ he := (Workspace.Confined.add (B := Bank.any) (.of_neutral he)).runs
  increments w table := ((confined Bank.any).increments w table).runs
  earlier := .trans

instance Footprint.running_may (e : Error) : running.May e := ⟨.refl⟩

instance Footprint.running_declaring : running.Declaring :=
  ⟨fun w v => Workspace.Confined.runs (Declaring.declare (F := confined Bank.any) w v)⟩

section

variable {w : Workspace}

theorem within_running {B : Bank → Prop} {x : Emit α} (h : Within (confined B) x) :
    Within running x :=
  ⟨fun w => (h.leads w).widen (fun _ hrel => hrel.runs) fun _ _ hrel => hrel.runs⟩

instance within_loadAny (ctx : Context) (op : Operand) (mask : Mask) (sub : Int) :
    Within running (Access.load ctx op mask sub) :=
  have := op.in_any
  within_running (B := Bank.any) inferInstance

instance within_storeAny (ctx : Context) (dest : Operand) (v : Value) (mask : Mask) (sub : Int)
    (condition : Option Value) : Within running (Access.store ctx dest v mask sub condition) :=
  have := dest.in_any
  within_running (B := Bank.any) inferInstance

instance within_stream (ctx : Context) (words : List Word) (secondary : Bool) :
    Within running (lowerStream ctx words secondary) :=
  within_running (within_lowerStream ctx words secondary fun _ i _ => i.in_any.reached)

/-! ## Declared variables -/

theorem leads_declare (x : Variable) : running.Leads (declare x) w fun place w' =>
    w'.listing.Declares place ∧ w'.listing.variableAt place = x :=
  ⟨Declaring.declare w x, (w.listing.valid_declare x).declared,
    w.listing.variableAt_declare x⟩

theorem leads_loadDeclared (h : w.listing.Declares place) :
    running.Leads (Emit.load place) w fun _ _ => True :=
  ⟨.load h, trivial⟩

/-- A variable of the shader's own, which it may store to. -/
structure Listing.Owns (l : Listing) (place : Place) : Prop where
  declared : l.Declares place
  notGiven : (l.variableAt place).storage.isGiven = false

theorem Listing.Owns.mono {l l' : Listing} (h : l.Owns place) (hl : l.Extends l') : l'.Owns place :=
  ⟨hl.declares h.declared, (congrArg (·.storage.isGiven) (hl.variableAt h.declared)).trans h.notGiven⟩

theorem leads_storeOwned (h : w.listing.Owns place) (v : Value) :
    running.Leads (Emit.store place v) w fun _ _ => True := by
  refine ⟨?_, trivial⟩
  apply Workspace.Runs.add (e := .store place v) rfl
  · intro x hx
    have hplace : place.variableIndex = x := by simpa [Entry.touches] using hx
    exact hplace ▸ h.declared
  · intro place' v' heq
    obtain ⟨rfl, -⟩ := Entry.store.inj heq
    exact h.notGiven

theorem within_declared {x : Variable} {f : Place → Emit α} (hx : x.storage.isGiven = false)
    (h : ∀ place w, w.listing.Owns place → running.Leads (f place) w fun _ _ => True) :
    Within running (declare x >>= f) := by
  constructor
  intro w
  apply (leads_declare x).bind
  rintro place w1 - ⟨hdeclared, hvariable⟩
  exact h place w1 ⟨hdeclared, by rw [hvariable]; exact hx⟩

theorem leads_declareBind (x : Variable) (bank : Bank) (base : Nat) (binding : Place → Binding)
    (hplace : ∀ p, (binding p).place = p) (hx : bank.isShadowed = false → x.storage = .hidden) :
    running.Leads (do Emit.bind bank base (binding (← declare x))) w fun _ _ => True := by
  refine ⟨⟨⟨[.declare x], ?_, ?_⟩, w.listing.extends_add (.declare x), rfl, ⟨[], rfl, by simp⟩,
    fun hw => ?_⟩, trivial⟩
  · show (w.listing.add (.declare x)).entries.toList = _
    simp
  · simp [Entry.isStraight]
  · have hdeclared : ({ w with listing := w.listing.add (.declare x) } : Workspace).Kept :=
      hw.add (fun _ h => nomatch h) fun _ _ h => nomatch h
    apply hdeclared.bind
    · rw [hplace]
      exact hw.notUses_of_le (Nat.le_refl _)
    · rw [hplace]
      exact (w.listing.valid_declare x).declared
    · intro hbank
      rw [hplace]
      exact (congrArg Variable.storage (w.listing.variableAt_declare x)).trans (hx hbank)

/-! ## Declarations -/

namespace Assembly

/-- A builtin input that has been declared. -/
def Declared (copy? : Option BuiltinCopy) (w : Workspace) : Prop :=
  ∀ copy, copy? = some copy → w.listing.Declares copy.place

theorem leads_bindInput (input : Input) : running.Leads (bindInput input) w Declared := by
  have builtin (x : Variable) : running.Leads (do
      let place ← declare x
      return some ⟨place, input.register⟩ : Emit (Option BuiltinCopy)) w Declared := by
    apply (leads_declare x).bind
    intro place w1 _ hplace
    refine .pure fun copy h => ?_
    rw [← Option.some.inj h]
    exact hplace.1
  unfold bindInput
  cases input.meaning with
  | generic =>
    apply Leads.ite (fun _ => .raise)
    intro _
    have hbind := leads_declareBind (w := w)
      ⟨"in" ++ toString input.location, ⟨.f32, input.components⟩, .input input.location⟩
      .primaryAttribute input.register (fun p => .vector p input.components) (fun _ => rfl)
      fun h => nomatch h
    have hrest := hbind.bind (f := fun _ => pure none) (R := Declared)
      fun _ w1 _ _ => .pure fun _ h => nomatch h
    rw [bind_assoc] at hrest
    exact hrest
  | vertexIndex => exact builtin _
  | instanceIndex => exact builtin _

theorem leads_inputs (inputs : List Input) :
    running.Leads (inputs.mapM bindInput) w fun copies w' => ∀ copy? ∈ copies, Declared copy? w' := by
  induction inputs generalizing w with
  | nil => exact .pure fun _ h => nomatch h
  | cons input rest ih =>
    rw [mapM_cons]
    apply (leads_bindInput input).bind
    intro copy? w1 _ hcopy
    apply ih.bind
    intro copies w2 h2 hcopies
    refine .pure fun c hc copy heq => ?_
    rcases mem_cons.1 hc with rfl | hc
    · exact h2.extension.declares (hcopy copy heq)
    · exact hcopies c hc copy heq

instance within_bindUniformBuffer (b : UniformBuffer) : Within running (bindUniformBuffer b) := by
  unfold bindUniformBuffer
  dsimp only
  split
  · infer_instance
  · exact ⟨fun w => leads_declareBind _ _ _ (fun p => .array p _) (fun _ => rfl) fun h => nomatch h⟩

theorem leads_declareLastColor (ctx : Context) : running.Leads (declareLastColor ctx) w
    fun place? w' => ∀ place, place? = some place → w'.listing.Declares place ∧
      ∃ location, (w'.listing.variableAt place).storage = .input location := by
  unfold declareLastColor
  apply Leads.ite
  · intro _
    apply Leads.andThen
    intro location w1 _
    rw [map_eq_pure_bind]
    apply (leads_declare _).bind
    intro place w2 _ hplace
    refine .pure fun p h => ?_
    rw [← Option.some.inj h]
    exact ⟨hplace.1, location, congrArg Variable.storage hplace.2⟩
  · exact fun _ => .pure fun _ h => nomatch h

instance within_declareBank (bank : Bank) (lanes : Nat) : Within running (declareBank bank lanes) := by
  have (k : Nat) : Within running (do
      let place ← declare ⟨bank.name ++ toString (4 * k), Shape.group, .hidden⟩
      Emit.bind bank (4 * k) (.vector place 4)) :=
    ⟨fun w => leads_declareBind _ _ _ (fun p => .vector p 4) (fun _ => rfl) fun _ => rfl⟩
  unfold declareBank
  infer_instance

instance within_declareRegisterFiles (s : Shader) : Within running (declareRegisterFiles s) := by
  unfold declareRegisterFiles
  infer_instance

/-! ## Functions -/

theorem leads_fillRegisters (ctx : Context) {copies : List BuiltinCopy}
    (h : ∀ copy ∈ copies, w.listing.Declares copy.place) :
    running.Leads (fillRegisters ctx copies) w fun _ _ => True := by
  have hliteral (l : Literal) : Within running (copyLiteral ctx l) := by
    unfold copyLiteral
    split <;> infer_instance
  have haddress (b : UniformBuffer) : Within running (copyBaseAddress ctx b) := by
    unfold copyBaseAddress
    split <;> infer_instance
  have hcopies : running.Leads (copies.forM (copyBuiltin ctx)) w fun _ w' =>
      ∀ copy ∈ copies, w'.listing.Declares copy.place := by
    apply Leads.forM copies h
    intro copy hcopy w1 _ hdeclared
    unfold copyBuiltin
    apply (leads_loadDeclared (hdeclared copy hcopy)).bind
    intro v w2 h2 _
    apply (Within.leads w2).mono
    intro _ w3 h3 _ c hc
    exact h3.extension.declares (h2.extension.declares (hdeclared c hc))
  unfold fillRegisters
  apply hcopies.bind
  intro _ w1 _ _
  exact Within.leads w1

instance within_writeColor (ctx : Context) : Within running (writeColor ctx) := by
  have (color : Value) (shape : Shape) : Within running (do
      let place ← declare ⟨"out_color", shape, .output 0⟩
      Emit.store place color) :=
    within_declared rfl fun _ _ hplace => leads_storeOwned hplace color
  unfold writeColor
  infer_instance

instance within_writePosition (ctx : Context) (enabled : Bool) :
    Within running (writePosition ctx enabled) := by
  have hstore (v : Emit Value) (hv : Within running v) (place : Place) (w : Workspace)
      (hplace : w.listing.Owns place) :
      running.Leads (do Emit.store place (← v)) w fun _ _ => True := by
    apply Leads.andThen
    intro u w1 h1
    exact leads_storeOwned (hplace.mono h1.extension) u
  unfold writePosition
  split
  · apply Within.bind_cases
    intro position
    apply within_declared rfl
    intro place w hplace
    apply Leads.ite
    · exact fun _ => hstore (flipPosition position) inferInstance place w hplace
    · exact fun _ => hstore (pure position) inferInstance place w hplace
  · apply within_declared rfl
    exact hstore _ inferInstance

instance within_writeVaryings (ctx : Context) (lane location : Nat) (varyings : List Varying) :
    Within running (writeVaryings ctx lane location varyings) := by
  induction varyings generalizing lane location with
  | nil =>
    unfold writeVaryings
    infer_instance
  | cons v rest ih =>
    unfold writeVaryings
    split
    · apply Within.bind_cases
      intro value
      apply within_declared rfl
      intro place w hplace
      apply (leads_storeOwned hplace value).bind
      intro _ w1 _ _
      exact Within.leads w1
    · infer_instance

instance within_writeVertexOutputs (ctx : Context) : Within running (writeVertexOutputs ctx) := by
  unfold writeVertexOutputs
  infer_instance

end Assembly
end

/-! ## Parts of a shader -/

theorem Footprint.Leads.of_ok {F : Footprint} {x : Emit α} {w w' : Workspace} {a : α}
    {Q : α → Workspace → Prop} (h : F.Leads x w Q) (hx : x w = .ok a w') : F.Rel w w' ∧ Q a w' :=
  Ends.of_ok h hx

theorem Workspace.extends_add (w : Workspace) (e : Entry) : w.listing.Extends (w.add e).listing :=
  w.listing.extends_add e

/-- Banks that the colour of a fragment can be in. -/
def Bank.holdsColor (bank : Bank) : Prop := bank = .output ∨ bank = .primaryAttribute

namespace Workspace

/-- The secondary program, if there is one, becomes a function. -/
def Calls (w : Workspace) (f? : Option Function) (w' : Workspace) : Prop :=
  match f? with
  | none => w' = w
  | some f => f.index = w.listing.functions.size ∧
    ∃ body, (w.add (.beginFunction "secondary")).Confined Bank.isSecondary body ∧
      w' = body.add .endFunction

theorem Calls.extension {w w' : Workspace} (h : w.Calls f? w') : w.listing.Extends w'.listing := by
  cases f? with
  | none =>
    obtain rfl : w' = w := h
    exact .refl _
  | some f =>
    obtain ⟨-, body, hbody, rfl⟩ := h
    exact (w.extends_add _).trans (hbody.extension.trans (body.extends_add _))

theorem Calls.kept {w w' : Workspace} (h : w.Calls f? w') (hw : w.Kept) : w'.Kept := by
  cases f? with
  | none =>
    obtain rfl : w' = w := h
    exact hw
  | some f =>
    obtain ⟨-, body, hbody, rfl⟩ := h
    exact (hbody.kept (hw.border rfl)).border rfl

/-- The colour that a fragment is drawn over, if it is known, is loaded from an input and put into
its register. -/
def Tints (w w' : Workspace) : Prop :=
  w' = w ∨ ∃ place location, w.listing.Declares place ∧
    (w.listing.variableAt place).storage = .input location ∧
    (w.add (.define (w.listing.opShape (.load place)) (.load place))).Confined Bank.holdsColor w'

theorem Tints.runs {w w' : Workspace} (h : w.Tints w') : w.Runs w' := by
  rcases h with rfl | ⟨place, location, hplace, -, hconfined⟩
  · exact .refl w'
  · exact (Runs.load hplace).trans hconfined.runs

end Workspace

/-- The parts of an assembled shader: declarations, the two functions, the colour that a fragment is
drawn over, and the primary program with the outputs. -/
structure Assembly.Parts (start w : Workspace) where
  declared : Workspace
  filled : Workspace
  secondary? : Option Function
  called : Workspace
  tinted : Workspace
  declares : start.Runs declared
  fills : (declared.add (.beginFunction "init")).Runs filled
  calls : (filled.add .endFunction).Calls secondary? called
  tints : ((called.add .beginEntry).add (.call ⟨declared.listing.functions.size⟩)).Tints tinted
  ends : (secondary?.elim tinted fun f => tinted.add (.call f)).Runs w

namespace Assembly

variable {ctx : Context} {w w' : Workspace}

theorem seedColor_tints {location : Nat} (h : w.listing.Declares place)
    (hinput : (w.listing.variableAt place).storage = .input location)
    (hrun : seedColor ctx place w = .ok () w') : w.Tints w' := by
  have hdest : (colorRegister ctx.shader.fragment).In Bank.holdsColor := by
    constructor
    intro _
    unfold colorRegister
    cases ctx.shader.fragment.native with
    | true => exact .inl rfl
    | false => exact .inr rfl
  obtain ⟨color, w1, hload, hrest⟩ := Emit.bind_eq_ok hrun
  obtain ⟨rfl, rfl⟩ := EStateM.Result.ok.inj hload
  have hstore : Within (confined Bank.holdsColor) (do
      let color ←
        if (colorRegister ctx.shader.fragment).element.isFloat then
          pure (⟨w.listing.shapes.size⟩ : Value)
        else Access.ofFloat ⟨w.listing.shapes.size⟩ (colorRegister ctx.shader.fragment).element true
      Access.store ctx (colorRegister ctx.shader.fragment) color 0b1111 0 none) := inferInstance
  exact .inr ⟨place, location, h, hinput, ((hstore.leads _).of_ok hrest).1⟩

theorem secondaryFunction_calls (hrun : secondaryFunction ctx w = .ok f? w') : w.Calls f? w' := by
  unfold secondaryFunction at hrun
  split at hrun
  · obtain ⟨rfl, rfl⟩ := EStateM.Result.ok.inj hrun
    rfl
  · obtain ⟨f, w1, hbegin, hrun⟩ := Emit.bind_eq_ok hrun
    obtain ⟨rfl, rfl⟩ := EStateM.Result.ok.inj hbegin
    obtain ⟨_, body, hbody, hrun⟩ := Emit.bind_eq_ok hrun
    obtain ⟨rfl, rfl⟩ := EStateM.Result.ok.inj hrun
    have hwithin := within_lowerStream ctx ctx.shader.secondary true fun _ _ h =>
      (decode_secondary_in h).reached
    exact ⟨rfl, body, ((hwithin.leads _).of_ok hbody).1, rfl⟩

theorem emitShader_parts {start : Workspace} (h : emitShader ctx start = .ok () w) :
    Nonempty (Parts start w) := by
  obtain ⟨copies, w1, hinputs, h⟩ := Emit.bind_eq_ok h
  obtain ⟨r1, hcopies⟩ := (leads_inputs _).of_ok hinputs
  obtain ⟨_, w2, hbuffers, h⟩ := Emit.bind_eq_ok h
  have r2 : w1.Runs w2 := ((Within.leads (F := running) w1).of_ok hbuffers).1
  obtain ⟨lastColor, w3, hcolor, h⟩ := Emit.bind_eq_ok h
  obtain ⟨r3, hlastColor⟩ := (leads_declareLastColor ctx).of_ok hcolor
  obtain ⟨_, declared, hfiles, h⟩ := Emit.bind_eq_ok h
  have r4 : w3.Runs declared := ((Within.leads (F := running) w3).of_ok hfiles).1
  obtain ⟨init, w5, hbegin, h⟩ := Emit.bind_eq_ok h
  obtain ⟨rfl, rfl⟩ := EStateM.Result.ok.inj hbegin
  obtain ⟨_, filled, hfill, h⟩ := Emit.bind_eq_ok h
  have hdeclared : ∀ copy ∈ copies.filterMap id,
      (declared.add (.beginFunction "init")).listing.Declares copy.place := by
    intro copy hcopy
    obtain ⟨copy?, hmem, hid⟩ := mem_filterMap.1 hcopy
    have hcopy1 : w1.listing.Declares copy.place := hcopies copy? hmem copy hid
    exact r4.extension.declares (r3.extension.declares (r2.extension.declares hcopy1))
  have fills : (declared.add (.beginFunction "init")).Runs filled :=
    ((leads_fillRegisters ctx hdeclared).of_ok hfill).1
  obtain ⟨_, w7, hend, h⟩ := Emit.bind_eq_ok h
  obtain ⟨-, rfl⟩ := EStateM.Result.ok.inj hend
  obtain ⟨secondary?, called, hsecondary, h⟩ := Emit.bind_eq_ok h
  have calls : (filled.add .endFunction).Calls secondary? called :=
    secondaryFunction_calls hsecondary
  obtain ⟨_, w9, hentry, h⟩ := Emit.bind_eq_ok h
  obtain ⟨-, rfl⟩ := EStateM.Result.ok.inj hentry
  obtain ⟨_, w10, hcall, h⟩ := Emit.bind_eq_ok h
  obtain ⟨-, rfl⟩ := EStateM.Result.ok.inj hcall
  obtain ⟨_, tinted, htint, h⟩ := Emit.bind_eq_ok h
  have hextends : w3.listing.Extends
      ((called.add .beginEntry).add (.call ⟨declared.listing.functions.size⟩)).listing :=
    r4.extension.trans ((declared.extends_add _).trans (fills.extension.trans
      ((filled.extends_add _).trans (calls.extension.trans ((called.extends_add _).trans
        ((called.add .beginEntry).extends_add _))))))
  have tints : ((called.add .beginEntry).add (.call ⟨declared.listing.functions.size⟩)).Tints
      tinted := by
    cases lastColor with
    | none =>
      obtain ⟨-, rfl⟩ := EStateM.Result.ok.inj htint
      exact .inl rfl
    | some place =>
      obtain ⟨hplace, location, hinput⟩ := hlastColor place rfl
      apply seedColor_tints (hextends.declares hplace) _ htint
      · exact location
      · rw [hextends.variableAt hplace]
        exact hinput
  obtain ⟨_, w12, hcalled, h⟩ := Emit.bind_eq_ok h
  have hcalls : w12 = secondary?.elim tinted fun f => tinted.add (.call f) := by
    cases secondary? with
    | none | some f => exact (EStateM.Result.ok.inj hcalled).2.symm
  obtain ⟨_, w13, hstream, h⟩ := Emit.bind_eq_ok h
  have r13 : w12.Runs w13 := ((Within.leads (F := running) w12).of_ok hstream).1
  have houtputs : w13.Runs w := by
    cases hstage : ctx.shader.stage with
    | fragment =>
      rw [hstage] at h
      exact ((within_writeColor ctx).leads w13 |>.of_ok h).1
    | vertex =>
      rw [hstage] at h
      exact ((within_writeVertexOutputs ctx).leads w13 |>.of_ok h).1
  exact ⟨{ declared, filled, secondary?, called, tinted
           declares := r1.trans (r2.trans (r3.trans r4))
           fills, calls, tints
           ends := hcalls ▸ r13.trans houtputs }⟩

variable {start : Workspace}

theorem Parts.called_kept (p : Parts start w) (hstart : start.Kept) : p.called.Kept :=
  p.calls.kept ((p.fills.kept ((p.declares.kept hstart).border rfl)).border rfl)

theorem Parts.kept (p : Parts start w) (hstart : start.Kept) : w.Kept := by
  have htinted : p.tinted.Kept :=
    p.tints.runs.kept (((p.called_kept hstart).border rfl).border rfl)
  apply p.ends.kept
  cases p.secondary? with
  | none => exact htinted
  | some f => exact htinted.border rfl

end Assembly

/-! ## Register files of a run -/

theorem RegisterFile.Orderly.resolve_shadow {w : Workspace} (horderly : w.registers.Orderly)
    {bank : Bank} {index : Nat} {sub : Int} {lane : Nat} (hlane : laneNumber bank index sub = lane)
    (hlt : lane < 0x100000000) {register : Register}
    (hshadow : w.registers.shadow? bank (lane / 4 * 4) = some register) (forStore : Bool) :
    resolve bank index sub forStore w = .ok ⟨register, lane % 4⟩ w := by
  have hbank := (horderly.groups _ (RegisterFile.shadow_of_shadow? hshadow)).1
  have hinside : ¬ (decide (laneNumber bank index sub < 0) ||
      decide (0x100000000 ≤ laneNumber bank index sub)) = true := by
    simp only [Bool.or_eq_true, decide_eq_true_eq, not_or]
    omega
  have hoffset : lane - lane / 4 * 4 = lane % 4 := by omega
  have hfound : (if bank.isShadowed = true then
      w.registers.shadow? bank ((laneNumber bank index sub).toNat / 4 * 4) else none) =
        some register := by
    rw [if_pos hbank, hlane, Int.toNat_natCast]
    exact hshadow
  unfold resolve
  rw [if_neg hinside]
  dsimp only
  rw [Emit.bind_apply]
  simp only [show getRegisters w = .ok w.registers w from rfl, hfound]
  rw [hlane, Int.toNat_natCast, hoffset]
  rfl

/-- A register file at some moment of a run: a group has one shadow at most, only attributes have
shadows, groups start at multiples of four, shadows and predicate registers have variables of their
own, and a lane whose group has a shadow is always resolved to that. -/
structure RegisterFile.InOrder (r : RegisterFile) : Prop where
  keys : (r.shadows.map Prod.fst).Nodup
  banks : ∀ s ∈ r.shadows, s.1.1 = .primaryAttribute ∨ s.1.1 = .secondaryAttribute
  groups : ∀ s ∈ r.shadows, 4 ∣ s.1.2
  distinct : r.owned.Nodup
  apart : ∀ bank, ∀ e ∈ (r.tables bank).entries, e.2.place.variableIndex ∉ r.owned
  resolves : ∀ (w : Workspace) (bank : Bank) (index lane : Nat) (sub : Int) (register : Register)
    (forStore : Bool), w.registers = r → laneNumber bank index sub = lane → lane < 0x100000000 →
      r.shadow? bank (lane / 4 * 4) = some register →
        resolve bank index sub forStore w = .ok ⟨register, lane % 4⟩ w

theorem RegisterFile.Orderly.inOrder {r : RegisterFile} (h : r.Orderly) : r.InOrder where
  keys := h.keys
  banks s hs := by
    have hbank := (h.groups s hs).1
    generalize s.1.1 = bank at hbank
    cases bank with
    | primaryAttribute => exact .inl rfl
    | secondaryAttribute => exact .inr rfl
    | _ => cases hbank
  groups s hs := Nat.dvd_of_mod_eq_zero (h.groups s hs).2.1
  distinct := h.distinct
  apart := h.apart
  resolves w bank index lane sub register forStore hw hlane hlt hshadow := by
    subst hw
    exact h.resolve_shadow hlane hlt hshadow forStore

/-- While a shader is assembled every register file is in order, shadows are added and never
replaced or removed, and in the end nothing is stored to what the shader is given. -/
theorem shadows_in_order {ctx : Context} {t : Target} {w : Workspace}
    (h : Assembly.emitShader ctx { listing := { target := t } } = .ok () w) :
    (∀ m ∈ w.history, m.registers.InOrder) ∧
    (w.history.Pairwise fun later earlier => earlier.registers.shadows <:+ later.registers.shadows) ∧
    w.registers = Moment.latest w.history ∧
    ∀ place v, Entry.store place v ∈ w.listing.entries →
      ∀ storage, (w.listing.variableAt place).storage = storage →
        (∀ location, storage ≠ .input location) ∧ (∀ builtin, storage ≠ .builtinInput builtin) ∧
          ∀ binding length, storage ≠ .uniformArray binding length := by
  obtain ⟨parts⟩ := Assembly.emitShader_parts h
  have hw : w.Kept := parts.kept (Workspace.kept_empty t)
  refine ⟨fun m hm => (hw.history.orderly m hm).inOrder, hw.history.pairwise, hw.current, ?_⟩
  intro place v hmem storage hstorage
  have hgiven := hw.stores place v hmem
  rw [hstorage] at hgiven
  refine ⟨?_, ?_, ?_⟩
  · rintro location rfl
    cases hgiven
  · rintro builtin rfl
    cases hgiven
  · rintro binding length rfl
    cases hgiven

/-- A fragment that is drawn over a known colour, with a literal and a secondary program that loads
zero into the first secondary attribute. -/
def overdrawnFragment : Context where
  shader :=
    { temporaries := 0
      primaryAttributes := 4
      secondaryAttributes := 4
      outputs := 0
      literals := [{ register := 4, offset := 0 }]
      literalBuffer := #[0#8, 0#8, 0x80#8, 0x3f#8]
      secondary := [0xF8E0000000000000#64] }
  features := { directColor := true }

theorem overdrawnFragment_shadows_in_order :
    ∃ w, Assembly.emitShader overdrawnFragment { listing := { target := .machine } } = .ok () w ∧
      w.registers.shadows.map Prod.fst =
        [(.primaryAttribute, 0), (.secondaryAttribute, 0), (.secondaryAttribute, 4)] ∧
      (∀ m ∈ w.history, m.registers.InOrder) ∧
      (w.history.Pairwise fun later earlier =>
        earlier.registers.shadows <:+ later.registers.shadows) ∧
      w.registers = Moment.latest w.history ∧
      ∀ place v, Entry.store place v ∈ w.listing.entries →
        ∀ storage, (w.listing.variableAt place).storage = storage →
          (∀ location, storage ≠ .input location) ∧ (∀ builtin, storage ≠ .builtinInput builtin) ∧
            ∀ binding length, storage ≠ .uniformArray binding length := by
  obtain ⟨_, w, hrun, hshadows⟩ := Emit.exists_of_passes (Assembly.emitShader overdrawnFragment)
    { listing := { target := .machine } } (fun _ w => decide (w.registers.shadows.map Prod.fst =
      [(.primaryAttribute, 0), (.secondaryAttribute, 0), (.secondaryAttribute, 4)]))
    (by decide +kernel)
  exact ⟨w, hrun, of_decide_eq_true hshadows, shadows_in_order hrun⟩

end Microcode
