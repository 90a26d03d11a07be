import Microcode.Proofs.Storing

/-!
Attribute registers read back what was stored last.

A load takes as many lanes at once as the register it finds still has, and a store goes to the
shadow of an aligned group of four lanes.  The two agree unless a register crosses the border of a
group, where a load that starts in the register misses the shadow of the next group, or a group of
primary attributes has a hole after a lane that is not its first, where a load that starts before
the hole reads zeros up to its end.  The bindings without such places are exactly those for which
every history of stores and loads reads back what it stored.
-/

namespace Microcode

open Machine Emit Access List Operand RegisterFile

variable {sub : Int} {mask : Mask} {a number : Nat} {op : Operand} {found : Resolved} {v : Value}

/-! ## Histories -/

/-- A store, or a load and the value that it gave. -/
inductive Event where
  | store (dest : Operand) (v : Value) (mask : Mask) (sub : Int) (condition : Option Value)
  | load (op : Operand) (mask : Mask) (sub : Int) (v : Value)

/-- An operand that moves whole lanes of an attribute bank. -/
def Operand.IsAttribute (op : Operand) : Prop := op.bank.isShadowed = true ∧ op.element = .f32

/-- A value of one to four components. -/
def Listing.Offers (l : Listing) (v : Value) : Prop :=
  l.Defines v ∧ 1 ≤ (l.shapeOf v).count ∧ (l.shapeOf v).count ≤ 4

/-- No condition, or one that can be tested. -/
def Listing.Tests (l : Listing) (condition : Option Value) : Prop :=
  ∀ c ∈ condition, l.Defines c ∧ l.shapeOf c = Shape.bool

/-- Successful stores and loads of attributes, the latest first, with definitions between them. -/
inductive History (w₀ : Workspace) : Workspace → List Event → Prop
  | start : History w₀ w₀ []
  | define {w : Workspace} {es : List Event} {op : Op} (past : History w₀ w es)
      (inScope : w.listing.Scoped op) :
    History w₀ { w with listing := (w.listing.define op).2 } es
  | store {w w' : Workspace} {es : List Event} {ctx : Context} {dest : Operand} {v : Value}
      {mask : Mask} {sub : Int} {condition : Option Value} (past : History w₀ w es)
      (operand : dest.IsAttribute) (offered : w.listing.Offers v)
      (tested : w.listing.Tests condition)
      (stored : Access.store ctx dest v mask sub condition w = .ok () w') :
    History w₀ w' (.store dest v mask sub condition :: es)
  | load {w w' : Workspace} {es : List Event} {ctx : Context} {op : Operand} {v : Value}
      {mask : Mask} {sub : Int} (past : History w₀ w es) (operand : op.IsAttribute)
      (loaded : Access.load ctx op mask sub w = .ok v w') :
    History w₀ w' (.load op mask sub v :: es)

/-- What was stored last to a lane, where values have these shapes and lanes. -/
def lastStored (shape : Value → Shape) (lane : Value → Nat → Lane) :
    List Event → Bank → Nat → Option Lane
  | [], _, _ => none
  | .load .. :: es, bank, k => lastStored shape lane es bank k
  | .store dest v mask sub condition :: es, bank, k =>
    if dest.bank = bank ∧ ∀ c ∈ condition, lane c 0 ≠ 0#32 then
      let components := (List.range (shape v).count).map (lane v)
      (newLanes bank dest.num sub (Mask.components mask) (fun i =>
        coerced (shape v).scalar .f32 true (componentFor components i (mask.rank i))) k).or
          (lastStored shape lane es bank k)
    else lastStored shape lane es bank k

/-- Every load of every history reads back what was stored last to its lanes. -/
def Workspace.ReadsBack (w₀ : Workspace) : Prop :=
  ∀ w es, History w₀ w es → ∀ l : Listing, w.listing.entries.toList <+: l.entries.toList →
  ∀ S : State, S.Loaded (.ofListing l) →
    let p := Program.ofListing l
    let T := S.runSince p w₀.listing w.listing
    ∀ later op mask sub v earlier, es = later ++ .load op mask sub v :: earlier →
    ∀ j i, (Mask.components mask)[j]? = some i → ∀ c : Nat, (op.swizzle.get i).storage? = some c →
    ∀ x, lastStored p.shapeOf (T.lane p) earlier op.bank
        (laneNumber op.bank op.num (sub + c)).toNat = some x →
      T.lane p v j = op.modifiers.apply .f32 x

/-- No register of the bank crosses the border of a group, and in a group of primary attributes all
lanes after a bound one are bound, unless that is the first of its group. -/
structure RegisterFile.Gapless (r : RegisterFile) (bank : Bank) : Prop where
  aligned : r.Aligned bank
  filled : bank = .primaryAttribute → ∀ a b, a < b → a / 4 = b / 4 → a % 4 ≠ 0 →
    (r.bound? bank a).isSome = true → (r.bound? bank b).isSome = true

variable {start : Nat → Nat → Lanes} {w w' : Workspace} {s s' : State}

/-! ## Histories that read back -/

/-- The values of the event are there. -/
def Event.Known (l : Listing) : Event → Prop
  | .store _ v _ _ condition => l.Offers v ∧ l.Tests condition
  | .load _ mask _ v => l.Offers v ∧ (l.shapeOf v).count = (Mask.components mask).length

theorem Event.Known.mono {l l' : Listing} {e : Event} (h : e.Known l) (hl : l.Extends l') :
    e.Known l' := by
  have offers {v : Value} (hv : l.Offers v) : l'.Offers v := by
    refine ⟨hl.defines hv.1, ?_⟩
    rw [hl.shapeOf hv.1]
    exact hv.2
  cases e with
  | load op mask sub v => exact ⟨offers h.1, by rw [hl.shapeOf h.1.1]; exact h.2⟩
  | store dest v mask sub condition =>
    refine ⟨offers h.1, fun c hc => ?_⟩
    obtain ⟨hdef, hshape⟩ := h.2 c hc
    exact ⟨hl.defines hdef, by rw [hl.shapeOf hdef, hshape]⟩

/-- Only the components of the values that were stored matter, and those of the conditions. -/
theorem lastStored_congr {l : Listing} {shape shape' : Value → Shape} {lane lane' : Value → Nat → Lane}
    {es : List Event} (known : ∀ e ∈ es, e.Known l)
    (h : ∀ v, l.Offers v → shape v = l.shapeOf v ∧ shape' v = l.shapeOf v ∧
      ∀ i, i < (l.shapeOf v).count → lane v i = lane' v i) (bank : Bank) (k : Nat) :
    lastStored shape lane es bank k = lastStored shape' lane' es bank k := by
  induction es with
  | nil => rfl
  | cons e es ih =>
    have ih := ih fun e he => known e (.tail _ he)
    cases e with
    | load op mask sub v => exact ih
    | store dest v mask sub condition =>
      obtain ⟨offered, tested⟩ := known _ mem_cons_self
      obtain ⟨hshape, hshape', hlane⟩ := h v offered
      have hcomponents : (List.range (l.shapeOf v).count).map (lane v) =
          (List.range (l.shapeOf v).count).map (lane' v) :=
        map_congr_left fun i hi => hlane i (mem_range.1 hi)
      have hcondition : (∀ c ∈ condition, lane c 0 ≠ 0#32) ↔ ∀ c ∈ condition, lane' c 0 ≠ 0#32 := by
        refine forall₂_congr fun c hc => ?_
        obtain ⟨hdef, hbool⟩ := tested c hc
        have hc' := (h c ⟨hdef, by rw [hbool]; decide⟩).2.2 0 (by rw [hbool]; decide)
        rw [hc']
      simp only [lastStored, hshape, hshape', hcomponents, hcondition, ih]

theorem RegisterFile.WellFormed.lt_of_held? {l : Listing} {r : RegisterFile} (h : r.WellFormed l)
    {bank : Bank} {lane : Nat} (hheld : (r.held? bank lane).isSome = true) : lane < 0x100000000 := by
  obtain ⟨found, hfound⟩ := Option.isSome_iff_exists.1 hheld
  have := h.numbered (h.held?_eq_some hfound).1
  omega

/-- Between a lane that can be read and the shadow of a group that its load reaches, there are no
holes. -/
theorem RegisterFile.Gapless.backed {r : RegisterFile} {bank : Bank} (hg : r.Gapless bank)
    (hb : bank.isShadowed = true) {q : Nat} (hq : q < a + 4)
    (hfirst : (r.laneAt s bank a).isSome = true) (hheld : (r.held? bank q).isSome = true) {u : Nat}
    (hau : a ≤ u) (huq : u ≤ q) : (r.laneAt s bank u).isSome = true := by
  by_cases hsecondary : bank = .secondaryAttribute
  · rw [laneAt]
    cases r.resolved? bank u with
    | some found => rfl
    | none => simp only [if_pos hsecondary, Option.isSome_some]
  have hprimary : bank = .primaryAttribute := by cases bank <;> simp_all [Bank.isShadowed]
  have bound (k : Nat) (hnone : r.held? bank k = none) :
      (r.laneAt s bank k).isSome = (r.bound? bank k).isSome := by
    rw [laneAt, resolved?, hnone, Option.none_or]
    cases r.bound? bank k with
    | some found => rfl
    | none => simp only [if_neg hsecondary, Option.isSome_none]
  cases hu : r.held? bank u with
  | some found => rw [laneAt, resolved?, hu]; rfl
  | none =>
    have hgroup : u / 4 ≠ q / 4 := by
      intro heq
      rw [held?_group heq hu] at hheld
      cases hheld
    -- The hole is in the group of the first lane, since the load spans two groups at most.
    have hsame : a / 4 = u / 4 := by omega
    have ha := held?_group hsame.symm hu
    rw [bound u hu]
    by_cases heq : a = u
    · subst heq
      rwa [bound a ha] at hfirst
    · refine hg.filled hprimary a u (by omega) hsame (by omega) ?_
      rwa [bound a ha] at hfirst

theorem Operand.IsAttribute.storage (h : op.IsAttribute) : op.storage = .f32 := by
  have hne : op.bank ≠ .internal := by
    intro hinternal
    have := h.1
    rw [hinternal] at this
    exact absurd this (by decide)
  rw [Operand.storage, if_neg hne, h.2]

theorem Operand.IsAttribute.isRegister (h : op.IsAttribute) : op.bank.isRegister = true := by
  have := h.1
  generalize op.bank = bank at this
  cases bank <;> simp_all [Bank.isShadowed, Bank.isRegister]

/-- A load reads a lane that has a shadow from the shadow. -/
theorem Operand.gathered_of_held (good : Good w s) (hop : op.IsAttribute)
    (hg : w.registers.Gapless op.bank)
    (hreach : op.Starts w.registers mask sub) {c : Nat}
    (hc : c ∈ op.storageOf mask)
    (hheld : (w.registers.held? op.bank
      (laneNumber op.bank op.num (sub + c)).toNat).isSome = true) :
    w.registers.laneAt s op.bank (laneNumber op.bank op.num (sub + c)).toNat =
      some (op.gathered w.registers s mask sub c) := by
  obtain ⟨lo, hi, hspan⟩ := exists_span hc
  have hratio : op.storage.ratio = 1 := by rw [hop.storage]; rfl
  have hbounds := (span?_eq_some hspan).2.2 c hc
  have hwidth := span?_width hspan
  rw [hratio, Nat.div_one] at hbounds
  rw [hratio] at hwidth
  have hfirst := hreach lo hi hspan
  rw [laneNumber_of_le _ _ _ hbounds.1] at hheld ⊢
  rw [gathered_of_span hspan]
  generalize laneNumber op.bank op.num (sub + lo) = first at hfirst hheld ⊢
  have hnonneg := hfirst.1
  have hsmall := good.registers.lt_of_held? hheld
  refine good.registers.getD_lanesFrom (Nat.le_refl _) (fun _ => hg.aligned.unbroken) (by omega) fun i hi' => ?_
  refine ⟨by omega, hg.backed hop.1 (by omega) (hfirst.isSome_laneAt s) hheld (by omega) (by omega)⟩

/-- What was stored last to a lane, in the state of a growing listing. -/
def storedAt (w : Workspace) (s : State) : List Event → Bank → Nat → Option Lane :=
  lastStored w.listing.shapeOf fun v => (s.lanes v).get

theorem storedAt_steps {es : List Event} (known : ∀ e ∈ es, e.Known w.listing) (live : Live w s)
    (steps : Steps start w.listing s w'.listing s') : storedAt w' s' es = storedAt w s es := by
  funext bank k
  refine lastStored_congr known (fun v hv => ⟨steps.extension.shapeOf hv.1, rfl, fun i _ => ?_⟩) bank k
  rw [steps.lanes_eq live.fits hv.1]

/-- The loads among the events gave what was stored last before them. -/
def LoadsBack (w : Workspace) (s : State) (es : List Event) : Prop :=
  ∀ later op mask sub v earlier, es = later ++ .load op mask sub v :: earlier →
  ∀ j i, (Mask.components mask)[j]? = some i → ∀ c : Nat, (op.swizzle.get i).storage? = some c →
  ∀ x, storedAt w s earlier op.bank (laneNumber op.bank op.num (sub + c)).toNat = some x →
    (s.lanes v).get j = op.modifiers.apply .f32 x

theorem LoadsBack.steps {es : List Event} (h : LoadsBack w s es)
    (known : ∀ e ∈ es, e.Known w.listing) (live : Live w s)
    (steps : Steps start w.listing s w'.listing s') : LoadsBack w' s' es := by
  intro later op mask sub v earlier hes j i hj c hc x hx
  have hload : (Event.load op mask sub v).Known w.listing := known _ (by simp [hes])
  rw [steps.lanes_eq live.fits hload.1.1]
  refine h later op mask sub v earlier hes j i hj c hc x ?_
  rwa [storedAt_steps (fun e he => known e (by simp [hes, he])) live steps] at hx

theorem LoadsBack.cons {es : List Event} (h : LoadsBack w s es) {e : Event}
    (hload : ∀ op mask sub v, e = .load op mask sub v → ∀ j i, (Mask.components mask)[j]? = some i →
      ∀ c : Nat, (op.swizzle.get i).storage? = some c →
      ∀ x, storedAt w s es op.bank (laneNumber op.bank op.num (sub + c)).toNat = some x →
        (s.lanes v).get j = op.modifiers.apply .f32 x) : LoadsBack w s (e :: es) := by
  intro later op mask sub v earlier hes
  cases later with
  | nil =>
    obtain ⟨rfl, rfl⟩ := List.cons.inj hes
    exact hload op mask sub v rfl
  | cons e' later => exact h later op mask sub v earlier (List.cons.inj hes).2

theorem newLanes_congr {bank : Bank} {num : Nat} {lanes : List Nat} {g g' : Nat → Lane}
    (h : ∀ n ∈ lanes, g n = g' n) :
    newLanes bank num sub lanes g = newLanes bank num sub lanes g' := by
  funext lane
  rw [newLanes, newLanes]
  exact Option.map_congr fun n hn => h n (mem_of_find?_eq_some hn)

theorem Listing.Offers.holds (h : w.listing.Offers v) (s : State) :
    Holds w s v (w.listing.shapeOf v).scalar
      ((List.range (w.listing.shapeOf v).count).map (s.lanes v).get) :=
  holds_of_shape h.1 rfl h.2.1 h.2.2

theorem Listing.Tests.permits {condition : Option Value} (h : w.listing.Tests condition) (s : State) :
    Permits w s condition (decide (∀ c ∈ condition, (s.lanes c).get 0 ≠ 0#32)) := by
  cases condition with
  | none => simp [Permits]
  | some c =>
    obtain ⟨hdef, hshape⟩ := h c rfl
    refine ⟨(s.lanes c).get 0, holds_of_shape hdef hshape (by decide) (by decide), ?_⟩
    simp

/-- What a history leaves: every lane it stored to is in a shadow with what was stored last. -/
structure Remembers (start : Nat → Nat → Lanes) (w₀ : Workspace) (s₀ : State) (w : Workspace)
    (s : State) (es : List Event) : Prop where
  advances : Advances start w₀ s₀ w s
  separate : w.registers.Separate
  known : ∀ e ∈ es, e.Known w.listing
  stored : ∀ {bank k x}, storedAt w s es bank k = some x →
    w.registers.laneAt s bank k = some x ∧ (w.registers.held? bank k).isSome = true
  loads : LoadsBack w s es

namespace Remembers

variable {w0 : Workspace} {s0 : State} {es : List Event}

theorem held (a : Advances start w s w' s') {bank : Bank} {k : Nat}
    (h : (w.registers.held? bank k).isSome = true) : (w'.registers.held? bank k).isSome = true := by
  obtain ⟨found, hfound⟩ := Option.isSome_iff_exists.1 h
  rw [a.held? hfound]
  rfl

theorem keeps (h : Remembers start w0 s0 w s es) (k : Keeps start w s w' s') :
    Remembers start w0 s0 w' s' es where
  advances := h.advances.trans k.toAdvances
  separate := k.separate h.separate
  known e he := (h.known e he).mono k.steps.extension
  stored hx := by
    rw [storedAt_steps h.known k.good.live k.steps] at hx
    obtain ⟨hlane, hheld⟩ := h.stored hx
    exact ⟨k.lanes hlane, held k.toAdvances hheld⟩
  loads := h.loads.steps h.known k.good.live k.steps

theorem define (h : Remembers start w0 s0 w s es) {op : Op} (inScope : w.listing.Scoped op) :
    ∃ s', Remembers start w0 s0 { w with listing := (w.listing.define op).2 } s' es := by
  have q : Quiet start w s { w with listing := (w.listing.define op).2 } _ :=
    ⟨h.advances.good'.live, .one (.define op inScope), rfl, rfl, rfl, rfl, rfl⟩
  exact ⟨_, h.keeps (q.keeps h.advances.good'.registers)⟩

theorem store (h : Remembers start w0 s0 w s es) {ctx : Context} {dest : Operand}
    {condition : Option Value} (operand : dest.IsAttribute) (offered : w.listing.Offers v)
    (tested : w.listing.Tests condition)
    (stored : Access.store ctx dest v mask sub condition w = .ok () w') :
    ∃ s', Remembers start w0 s0 w' s' (.store dest v mask sub condition :: es) := by
  have good := h.advances.good'
  have hratio : dest.storage.ratio = 1 := by rw [operand.storage]; rfl
  obtain ⟨s', a, g, hwrites, hg⟩ := (emits_store_value ctx operand.isRegister mask sub
    (offered.holds s) (tested.permits s)).of_ok ⟨good, h.separate⟩ stored
  rw [writtenLanes_whole hratio] at hg hwrites
  have known : ∀ e ∈ Event.store dest v mask sub condition :: es, e.Known w.listing := by
    intro e he
    rcases mem_cons.1 he with rfl | he
    · exact ⟨offered, tested⟩
    · exact h.known e he
  refine ⟨s', h.advances.trans a.toAdvances, a.separate h.separate,
    fun e he => (known e he).mono a.steps.extension, fun {bank k x} hx => ?_,
    (h.loads.steps h.known good.live a.steps).cons fun _ _ _ _ h => nomatch h⟩
  rw [storedAt_steps known good.live a.steps, storedAt, lastStored, ← storedAt] at hx
  have old (hx : storedAt w s es bank k = some x) (hnone : bank = dest.bank → (if decide
      (∀ c ∈ condition, (s.lanes c).get 0 ≠ 0#32) = true then newLanes dest.bank dest.num sub
        (Mask.components mask) g k else none) = none) :
      w'.registers.laneAt s' bank k = some x ∧ (w'.registers.held? bank k).isSome = true := by
    obtain ⟨hlane, hheld⟩ := h.stored hx
    exact ⟨hwrites.kept hnone hlane, held a.toAdvances hheld⟩
  by_cases htaken : dest.bank = bank ∧ ∀ c ∈ condition, (s.lanes c).get 0 ≠ 0#32
  · rw [if_pos htaken] at hx
    obtain ⟨rfl, htaken⟩ := htaken
    have hnews : newLanes dest.bank dest.num sub (Mask.components mask) g =
        newLanes dest.bank dest.num sub (Mask.components mask) fun i =>
          coerced (w.listing.shapeOf v).scalar .f32 true (componentFor
            ((List.range (w.listing.shapeOf v).count).map (s.lanes v).get) i (mask.rank i)) := by
      refine newLanes_congr fun n hn => ?_
      obtain ⟨-, old, -, hgn⟩ := hg n hn
      rw [hgn, merged_whole hratio _ _ hn, operand.storage]
      rfl
    simp only [← hnews] at hx
    cases hnew : newLanes dest.bank dest.num sub (Mask.components mask) g k with
    | some y =>
      have hsome : (if decide (∀ c ∈ condition, (s.lanes c).get 0 ≠ 0#32) = true then
          newLanes dest.bank dest.num sub (Mask.components mask) g k else none) = some y := by
        rw [if_pos (decide_eq_true htaken), hnew]
      rw [hnew, Option.some_or, Option.some.injEq] at hx
      subst hx
      exact ⟨hwrites.written hsome, hwrites.held operand.1 hsome⟩
    | none =>
      rw [hnew, Option.none_or] at hx
      refine old hx fun _ => ?_
      rw [if_pos (decide_eq_true htaken), hnew]
  · rw [if_neg htaken] at hx
    refine old hx fun hbank => if_neg fun h => htaken ⟨hbank.symm, of_decide_eq_true h⟩

theorem load (h : Remembers start w0 s0 w s es) {ctx : Context} (operand : op.IsAttribute)
    (hg : w.registers.Gapless op.bank) (loaded : Access.load ctx op mask sub w = .ok v w') :
    ∃ s', Remembers start w0 s0 w' s' (.load op mask sub v :: es) := by
  have good := h.advances.good'
  have hmask := nonempty_of_load loaded
  obtain ⟨s', k, hv, hreach, -⟩ := (emits_load ctx operand.isRegister hmask sub).of_ok good loaded
  have h' := h.keeps k
  have offered : w'.listing.Offers v := by
    refine ⟨hv.defined, ?_⟩
    rw [hv.shape]
    exact ⟨hv.pos, hv.width⟩
  refine ⟨s', h'.advances, h'.separate, fun e he => ?_, fun hx => h'.stored hx,
    h'.loads.cons fun op' mask' sub' v' he => ?_⟩
  · rcases mem_cons.1 he with rfl | he
    · refine ⟨offered, ?_⟩
      rw [hv.shape]
      simp
    · exact h'.known e he
  · obtain ⟨rfl, rfl, rfl, rfl⟩ := Event.load.inj he
    intro j i hj c hc x hx
    rw [storedAt_steps h.known good.live k.steps] at hx
    obtain ⟨hlane, hheld⟩ := h.stored hx
    obtain ⟨hlt, hi⟩ := List.getElem?_eq_some_iff.1 hj
    have hmem : c ∈ op.storageOf mask :=
      mem_storageOf.2 ⟨i, hi ▸ getElem_mem hlt, hc⟩
    rw [gathered_of_held good operand hg hreach hmem hheld, Option.some.injEq] at hlane
    have hratio : op.storage.ratio = 1 := by rw [operand.storage]; rfl
    rw [hv.get j (by simpa using hlt), getD_eq_getElem _ _ (by simpa using hlt),
      getElem_map, hi, reads, hc]
    simp only
    rw [Element.decode_whole _ hratio, hratio, Nat.div_one, hlane, operand.storage]
    rfl

end Remembers

theorem RegisterFile.Gapless.advances {bank : Bank} (h : w.registers.Gapless bank)
    (a : Advances start w s w' s') : w'.registers.Gapless bank := by
  refine ⟨fun lane found hf => h.aligned lane found (a.bound? bank lane ▸ hf), ?_⟩
  simp only [a.bound?]
  exact h.filled

theorem History.remembers {w0 : Workspace} {s0 : State} {es : List Event} (h : History w0 w es)
    (good : Good w0 s0) (separate : w0.registers.Separate)
    (gapless : ∀ bank, bank.isShadowed = true → w0.registers.Gapless bank) :
    ∃ s, Remembers start w0 s0 w s es := by
  induction h with
  | start =>
    exact ⟨s0, .refl good, separate, by simp, fun hx => absurd hx (by simp [storedAt, lastStored]),
      fun later op mask sub v earlier hes => absurd hes (by simp)⟩
  | define _ inScope ih =>
    obtain ⟨s, hs⟩ := ih
    exact hs.define inScope
  | store _ operand offered tested stored ih =>
    obtain ⟨s, hs⟩ := ih
    exact hs.store operand offered tested stored
  | load _ operand loaded ih =>
    obtain ⟨s, hs⟩ := ih
    exact hs.load operand ((gapless _ operand.1).advances hs.advances) loaded

/-- Without holes and crossings every history reads back what it stored. -/
theorem Workspace.Ready.readsBack (ready : w.Ready) (separate : w.registers.Separate)
    (gapless : ∀ bank, bank.isShadowed = true → w.registers.Gapless bank) : w.ReadsBack := by
  intro w' es history l hl S hS p T later op mask sub v earlier hes j i hj c hc x hx
  have hin' := Program.within_ofListing hl
  obtain ⟨s0, good0⟩ := ready.exists_good
  obtain ⟨_, h0⟩ : ∃ s, Remembers (fun _ _ => .replicate 0#32) w s0 w' s es :=
    history.remembers good0 separate gapless
  have hin := h0.advances.steps.within.trans hin'
  obtain ⟨s, h⟩ : ∃ s, Remembers S.held w (S.upTo w.listing) w' s es :=
    history.remembers (ready.good hS hin) separate gapless
  obtain ⟨consistent, -, hshows⟩ := h.advances.steps.runSince ready.consistent hS hin' hin
  have lanes : ∀ v, w'.listing.Offers v → ∀ i, i < (w'.listing.shapeOf v).count →
      T.lane p v i = (s.lanes v).get i := by
    intro v hv i hi
    rw [hshows.lane consistent hin' (hv.holds s) (by simpa using hi),
      getD_eq_getElem _ _ (by simpa using hi), getElem_map, getElem_range]
  have hload : (Event.load op mask sub v).Known w'.listing := h.known _ (by simp [hes])
  obtain ⟨hlt, -⟩ := List.getElem?_eq_some_iff.1 hj
  rw [lanes v hload.1 j (hload.2 ▸ hlt)]
  refine h.loads later op mask sub v earlier hes j i hj c hc x ?_
  rw [← hx]
  refine (lastStored_congr (fun e he => h.known e (by simp [hes, he])) (fun v hv => ?_) _ _).symm
  exact ⟨shapeOf_of_within hin' consistent hv.1, rfl, lanes v hv⟩

/-! ## Holes and crossings -/

/-- A load that starts at lane `a` does not find the shadow of the next group: its first register
reaches into that group, or a hole comes before it. -/
def RegisterFile.Misses (r : RegisterFile) (bank : Bank) (a : Nat) : Prop :=
  ∃ found, r.bound? bank a = some found ∧ a % 4 ≠ 0 ∧
    (a / 4 * 4 + 4 < found.register.base + found.register.lanes ∨
      bank = .primaryAttribute ∧ ∃ hole, a < hole ∧ a / 4 = hole / 4 ∧ r.bound? bank hole = none)

theorem RegisterFile.WellFormed.exists_misses {l : Listing} {r : RegisterFile} {bank : Bank}
    (h : r.WellFormed l) (hnot : ¬ r.Gapless bank) : ∃ a, r.Misses bank a := by
  by_cases ha : r.Aligned bank
  · have hfilled : ¬ (bank = .primaryAttribute → ∀ a b, a < b → a / 4 = b / 4 → a % 4 ≠ 0 →
        (r.bound? bank a).isSome = true → (r.bound? bank b).isSome = true) := fun hf => hnot ⟨ha, hf⟩
    simp only [not_forall] at hfilled
    obtain ⟨hbank, a, b, hlt, hgroup, hinside, hbound, hhole⟩ := hfilled
    obtain ⟨found, hfound⟩ := Option.isSome_iff_exists.1 hbound
    exact ⟨a, found, hfound, hinside, .inr ⟨hbank, b, hlt, hgroup, by simpa using hhole⟩⟩
  · simp only [Aligned, not_forall] at ha
    obtain ⟨lane, found, hfound, hcross⟩ := ha
    have hvalid := h.bound hfound
    have hpos := hvalid.pos
    have hwidth := hvalid.width
    refine ⟨found.register.base, _, h.bound?_run hfound (Nat.le_refl _) (by omega), by omega, .inl ?_⟩
    simp only
    omega

namespace RegisterFile

variable {l : Listing} {r : RegisterFile} {bank : Bank}

theorem pieceAt_of_bound (hnone : r.held? bank number = none)
    (hb : r.bound? bank number = some found) (hsmall : number < 0x100000000) :
    r.pieceAt s bank number =
      some ((List.range' found.offset (found.register.lanes - found.offset)).map
        (s.read found.register.place).get) := by
  rw [pieceAt, if_neg (by omega), Int.toNat_natCast, resolved?, hnone, Option.none_or, hb]

theorem getD_lanesFrom_bound (hnone : r.held? bank number = none)
    (hb : r.bound? bank number = some found) (hsmall : number < 0x100000000) {fuel count j : Nat}
    (hj : found.offset + j < found.register.lanes) (hcount : j < count) :
    (r.lanesFrom s bank (fuel + 1) number count).getD j 0#32 =
      (s.read found.register.place).get (found.offset + j) := by
  rw [lanesFrom, if_neg (by omega), pieceAt_of_bound hnone hb hsmall]
  simp only [length_map, length_range']
  rw [getD_append _ _ _ _ (by simp; omega), getD_eq_getElem _ _ (by simp; omega),
    getElem_take, getElem_map, getElem_range', Nat.one_mul]

theorem WellFormed.getD_lanesFrom_hole (h : r.WellFormed l) (hbank : bank ≠ .secondaryAttribute)
    {fuel count hole j : Nat} (hfuel : count ≤ fuel) (hj : j < count) (hle : number ≤ hole)
    (hhole : hole ≤ number + j) (hsmall : hole < 0x100000000)
    (hnone : ∀ k, number ≤ k → k ≤ hole → r.held? bank k = none) (hb : r.bound? bank hole = none) :
    (r.lanesFrom s bank fuel number count).getD j 0#32 = 0#32 := by
  induction fuel generalizing number count j with
  | zero => omega
  | succ fuel ih =>
    have hfirst := hnone number (Nat.le_refl _) hle
    cases hfound : r.bound? bank number with
    | none =>
      have hp : r.pieceAt s bank number = none := by
        rw [pieceAt, if_neg (by omega), Int.toNat_natCast, resolved?, hfirst, Option.none_or, hfound]
        simp only [if_neg hbank]
      rw [lanesFrom, if_neg (by omega), hp]
      simp [getD_eq_getElem?_getD, hj]
    | some found =>
      obtain ⟨hcov, hlt⟩ := bound?_covers hfound
      have hends : found.register.base + found.register.lanes ≤ hole := by
        by_contra hcross
        rw [h.bound?_run hfound (by omega) (by omega)] at hb
        cases hb
      rw [lanesFrom, if_neg (by omega), pieceAt_of_bound hfirst hfound (by omega)]
      simp only [length_map, length_range']
      obtain ⟨take, htake⟩ : ∃ n, n = found.register.lanes - found.offset := ⟨_, rfl⟩
      rw [← htake, Nat.min_eq_left (by omega), getD_append_right _ _ _ _ (by simp; omega)]
      simp only [length_take, length_map, length_range', Nat.min_self]
      rw [show (number : Int) + (take : Nat) = (number + take : Nat) by omega]
      exact ih (by omega) (by omega) (by omega) (by omega) fun k hk => hnone k (by omega)

end RegisterFile

/-- If everything that is bound is zero, such a load reads zero from the next group, whose shadow it
misses. -/
theorem RegisterFile.Misses.getD_lanesFrom {l : Listing} {r r' : RegisterFile} {bank : Bank}
    {place : Place} (h : r.Misses bank a) (hwf : r'.WellFormed l) (hsmall : a + 4 < 0x100000000)
    (hshadows : ∀ group, r.shadow? bank group = none)
    (hr : r' = r.addShadow bank (a / 4 * 4 + 4) place)
    (hzero : ∀ lane found, r.bound? bank lane = some found →
      s.read found.register.place = .replicate 0#32) :
    (r'.lanesFrom s bank 4 a 4).getD (4 - a % 4) 0#32 = 0#32 := by
  subst hr
  have hheld : ∀ k, k / 4 = a / 4 → (r.addShadow bank (a / 4 * 4 + 4) place).held? bank k = none := by
    intro k hk
    rw [held?]
    split
    · rw [shadow?_addShadow, if_neg (by omega), hshadows]
      rfl
    · rfl
  obtain ⟨found, hfound, hinside, hcross | ⟨hbank, hole, hlt, hgroup, hhole⟩⟩ := h
  · have hcov := (bound?_covers hfound).1
    have hb : (r.addShadow bank (a / 4 * 4 + 4) place).bound? bank a = some found := hfound
    rw [getD_lanesFrom_bound (hheld a rfl) hb (by omega) (by omega) (by omega), hzero a found hfound,
      Quad.get_replicate]
  · exact hwf.getD_lanesFrom_hole (by rw [hbank]; decide) (Nat.le_refl _) (by omega) (Nat.le_of_lt hlt)
      (by omega) (by omega) (fun k hk hk' => hheld k (by omega)) hhole

section

variable {bank : Bank} {q : Nat}

theorem emits_wholeRegister_new (hb : bank.isShadowed = true) (hq : q % 4 = 0)
    (hnone : w.registers.shadow? bank q = none) :
    Emits (.keeps start) (wholeRegister? (.ofRegister bank q .f32) ⟨.f32, 4⟩ 15 0) w s
      (fun found w' _ => ∃ place, found = some ⟨place, 4, q⟩ ∧
        w'.registers = w.registers.addShadow bank q place)
      (fun _ _ => ¬ w.registers.Reaches bank q true) := by
  have hop : (ofRegister bank q .f32).IsAttribute := ⟨hb, rfl⟩
  have hnumber : laneNumber bank q 0 = q := laneNumber_of_isShadowed hb q 0
  rw [wholeRegister?, hop.storage, if_pos (by decide)]
  refine ((emits_resolve q 0 true).fails fun _ _ h => hnumber ▸ h.unreached).bind
    fun found w1 s1 k1 h1 => ?_
  simp only [ofRegister] at h1
  rw [hnumber] at h1
  have hgroup : (q : Int).toNat / 4 * 4 = q := by omega
  have hadded := h1.added
  have hheld := h1.held rfl hb
  rw [hgroup] at hadded
  rw [Int.toNat_natCast] at hheld
  rcases hadded with hsame | ⟨-, -, -, place, hadd⟩
  · rw [hsame, held?, if_pos hb, show q / 4 * 4 = q by omega, hnone] at hheld
    cases hheld
  · have hfound : found = ⟨⟨place, 4, q⟩, 0⟩ := by
      have := held?_addShadow (r := w.registers) hb q place
      rw [show q / 4 * 4 = q by omega, ← hadd, hheld] at this
      simpa using this
    rw [hfound, if_pos (by simp)]
    exact .pure ⟨place, rfl, hadd⟩

/-- A store to the four lanes of such a group makes its shadow and writes nothing else. -/
theorem emits_store_new (ctx : Context) (hb : bank.isShadowed = true) (hq : q % 4 = 0)
    (hnone : w.registers.shadow? bank q = none) {xs : List Lane} (hv : Holds w s v .f32 xs)
    (hlen : xs.length = 4) :
    Emits (.alters start) (Access.store ctx (.ofRegister bank q .f32) v 15 0 none) w s
      (fun _ w' s' => (∃ place, w'.registers = w.registers.addShadow bank q place) ∧
        ∀ bank' lane found, w.registers.bound? bank' lane = some found →
          s'.read found.register.place = s.read found.register.place)
      (fun _ _ => ¬ w.registers.Reaches bank q true) := by
  have hop : (ofRegister bank q .f32).IsAttribute := ⟨hb, rfl⟩
  rw [store_of_isRegister ctx hop.isRegister, if_neg (by decide), storeRegister]
  refine Emits.shapeOf ?_
  rw [hv.shape, hlen, hop.storage]
  refine (emits_wholeRegister_new hb hq hnone).alters.bind fun found w1 s1 a1 h1 => ?_
  obtain ⟨k1, place, rfl, hadd⟩ := h1
  have hshadow : w1.registers.shadow? bank q = some ⟨place, 4, q⟩ := by
    rw [hadd, shadow?_addShadow, if_pos ⟨rfl, rfl⟩]
  have hres : w1.registers.resolved? bank q = some ⟨⟨place, 4, q⟩, 0⟩ := by
    rw [resolved?, held?, if_pos hb, show q / 4 * 4 = q by omega, hshadow]
    simp
  refine .of_frame (G := .runs start) (fun admits => admits.1.live) fun admits => ?_
  have hv1 := hv.advances k1.toAdvances
  refine Emits.bind (computes_coerce hv1 .f32 true _).runs fun typed w2 s2 _ h2 => ?_
  obtain ⟨q2, htyped⟩ := h2
  refine Emits.bind (computes_coerce htyped .f32 true _).runs fun bits w3 s3 _ h3 => ?_
  obtain ⟨q3, hbits⟩ := h3
  have hquiet := q2.trans q3
  have k := hquiet.keeps admits.1.registers
  have hvalid := (admits.1.registers.shadow hshadow).2.2.2.2.mono hquiet.steps.extension
  refine (emits_writeRegister hvalid (by simp [hlen]) hbits (show Permits _ _ none true from rfl)).gives
    fun _ w4 s4 _ h4 => ?_
  have ho : Overwrites start (Resolved.mk ⟨place, 4, q⟩ 0).register.place _ w3 s3 w4 s4 := h4
  have halters := ho.alters k.good' (k.separate admits.2) (hquiet.registers ▸ hres)
  refine ⟨⟨k.toAdvances.trans halters.toAdvances, admits.2, fun hslot hx =>
    halters.predicateAt hslot (k.predicateAt hslot hx)⟩, ⟨place, ?_⟩, fun bank' lane found hf => ?_⟩
  · rw [h4.registers, hquiet.registers, hadd]
  · have hf1 : w1.registers.bound? bank' lane = some found := by rw [k1.bound?, hf]
    rw [h4.others, hquiet.read, k1.read (k1.good.registers.bound hf).place.declared]
    intro hcell
    exact absurd (admits.2 _ _ _ _ (.bound hf1) (.shadow hshadow) hcell) (by simp)

/-- Stores ones to the group after that of lane `a`, and loads four lanes from lane `a` on. -/
def probe (bank : Bank) (a : Nat) : Emit (Value × Value) := do
  let ones ← splatConstant (.f32 Binary32.one) 4
  Access.store {} (.ofRegister bank (a / 4 * 4 + 4) .f32) ones 15 0 none
  let v ← Access.load {} (.ofRegister bank a .f32) 15 0
  return (ones, v)

/-- All bindings of the bank end well before the last lane. -/
def RegisterFile.Low (r : RegisterFile) (bank : Bank) : Prop :=
  ∀ e ∈ (r.tables bank).entries, e.1 + e.2.lanes ≤ 0xFFFFFFF8

theorem RegisterFile.Low.endsAt {r : RegisterFile} (h : r.Low bank) (lane : Nat) :
    r.EndsAt bank lane := by
  intro base binding hc
  have := h _ (OrderedMap.floorList_mem hc).1
  simp only at this
  omega

theorem RegisterFile.Low.lt_of_bound {r : RegisterFile} (h : r.Low bank) {lane : Nat}
    (hb : r.bound? bank lane = some found) : lane < 0xFFFFFFF8 := by
  obtain ⟨base, binding, hfind, -⟩ := bound?_eq_some hb
  obtain ⟨hmem, -, hlt⟩ := find?_mem hfind
  have := h _ hmem
  simp only at this
  omega

theorem RegisterFile.Low.not_blocked {r : RegisterFile} (h : r.Low bank)
    (hbank : bank.isShadowed = true) (hb : r.bound? bank a = some found) :
    ¬ Blocked r bank a 0 4 True := by
  have hlt := h.lt_of_bound hb
  have hnumber : ∀ j : Nat, laneNumber bank a (0 + j) = (a + j : Nat) := by
    intro j
    rw [laneNumber_of_isShadowed hbank]
    omega
  intro hblocked
  cases hblocked with
  | range j hj hrange => omega
  | first _ unreached =>
    have := hnumber 0
    rw [Int.natCast_zero, Int.add_zero] at this
    rw [this] at unreached
    refine unreached ⟨by omega, by omega, .inr ?_⟩
    rw [if_neg (by simp)]
    exact ⟨h.endsAt _, .inl (by rw [Int.toNat_natCast, Nat.add_zero, hb]; rfl)⟩
  | overflow j hj _ hends =>
    rw [hnumber] at hends
    exact hends ⟨h.endsAt _, by omega, fun i _ => h.endsAt _⟩

theorem span_ofRegister (hb : bank.isShadowed = true) (a : Nat) :
    (ofRegister bank a .f32).span? 15 = some (0, 3) := by
  have hstorage : (ofRegister bank a .f32).storageOf 15 = [0, 1, 2, 3] := by
    show (Mask.components 15).filterMap (fun i => (Swizzle.identity.get i).storage?) = _
    decide
  rw [span?, hstorage, IsAttribute.storage ⟨hb, rfl⟩]
  decide

/-- The probe gives ones and four lanes.  Where everything that is bound is zero, it reads zero from
the group to which it stored ones. -/
theorem emits_probe (hb : bank.isShadowed = true) (hmisses : w.registers.Misses bank a)
    (hlow : w.registers.Low bank) (hshadows : ∀ group, w.registers.shadow? bank group = none) :
    Emits (.alters start) (probe bank a) w s
      (fun r w' s' => Holds w' s' r.1 .f32 (List.replicate 4 Binary32.one) ∧
        ∃ xs, Holds w' s' r.2 .f32 xs ∧ xs.length = 4 ∧
          ((∀ lane found, w.registers.bound? bank lane = some found →
            s.read found.register.place = .replicate 0#32) → xs.getD (4 - a % 4) 0#32 = 0#32))
      (fun _ _ => False) := by
  obtain ⟨found, hfound, -⟩ := id hmisses
  have hlt := hlow.lt_of_bound hfound
  have hop : (ofRegister bank a .f32).IsAttribute := ⟨hb, rfl⟩
  rw [probe]
  refine (computes_splatConstant (.f32 Binary32.one) (by decide) (by decide) _).rel.keeps.alters.bind
    fun ones w1 s1 _ h1 => ?_
  obtain ⟨k1, q1, hones⟩ := h1
  have hreached : w1.registers.Reaches bank (a / 4 * 4 + 4 : Nat) true := by
    refine ⟨by omega, by omega, .inr ?_⟩
    rw [if_pos ⟨hb, rfl⟩, q1.registers]
    exact ⟨by omega, fun i _ => hlow.endsAt _⟩
  refine ((emits_store_new {} hb (by omega) (by rw [q1.registers, hshadows]) hones
    (by simp)).rel.fails fun _ _ h => h hreached).bind fun _ w2 s2 _ h2 => ?_
  obtain ⟨a2, ⟨place, hadd⟩, hread⟩ := h2
  rw [q1.registers] at hadd hread
  have hlow2 : w2.registers.Low bank := by rw [hadd]; exact hlow
  have hbound2 : w2.registers.bound? bank a = some found := by rw [hadd]; exact hfound
  have hspan := span_ofRegister hb a
  refine ((emits_load {} hop.isRegister (by decide) 0).fails ?_).alters.bind
    fun v w3 s3 _ h3 => ?_
  · rintro _ _ ⟨lo, hi, hspan', hblocked⟩
    obtain ⟨rfl, rfl⟩ := Prod.mk.inj (Option.some.inj (hspan.symm.trans hspan'))
    exact hlow2.not_blocked hb hbound2 hblocked
  obtain ⟨k3, hv, -⟩ := h3
  rw [hop.storage] at hv
  have hcomponents : Mask.components 15 = List.range 4 := by decide
  refine .pure ⟨(hones.advances a2.toAdvances).advances k3.toAdvances, _, hv, by simp [hcomponents],
    fun hzero => ?_⟩
  have hstale := hmisses.getD_lanesFrom (s := s2) k3.good.registers (by omega) hshadows hadd
    fun lane found hf => by rw [hread bank lane found hf, q1.read, hzero lane found hf]
  have hgathered : (ofRegister bank a .f32).gathered w2.registers s2 15 0 (4 - a % 4) =
      0#32 := by
    have hnumber : laneNumber bank a (0 + (0 : Nat)) = a := by
      rw [laneNumber_of_isShadowed hb]
      omega
    rw [← hnumber] at hstale
    exact (gathered_of_span hspan _).trans hstale
  obtain ⟨-, -, hinside, -⟩ := hmisses
  obtain ⟨j, hj⟩ : ∃ j, j = 4 - a % 4 := ⟨_, rfl⟩
  rw [← hj] at hgathered ⊢
  have hj4 : j < 4 := by omega
  have hidentity : ∀ j, j < 4 → (Swizzle.identity.get j).storage? = some j := by decide
  rw [getD_eq_getElem _ _ (by simpa [hcomponents] using hj4), getElem_map]
  simp only [hcomponents, getElem_range, reads]
  rw [show (ofRegister bank a .f32).swizzle = Swizzle.identity from rfl, hidentity j hj4]
  simp only
  rw [Element.decode_whole _ (by rw [hop.storage]; rfl), hop.storage,
    show j / Element.f32.ratio = j from Nat.div_one j, hgathered]
  rfl

end

theorem history_probe {bank : Bank} {ones : Value} (hb : bank.isShadowed = true) (live : Live w s)
    (h : probe bank a w = .ok (ones, v) w') :
    History w w' [.load (.ofRegister bank a .f32) 15 0 v,
      .store (.ofRegister bank (a / 4 * 4 + 4) .f32) ones 15 0 none] := by
  obtain ⟨ones', w1, hsplat, h⟩ := Emit.bind_eq_ok h
  obtain ⟨_, w2, hstore, h⟩ := Emit.bind_eq_ok h
  obtain ⟨v', w3, hload, h⟩ := Emit.bind_eq_ok h
  cases h
  obtain ⟨s1, -, hones⟩ : ∃ s1, Quiet (fun _ _ => .replicate 0#32) w s w1 s1 ∧
      Holds w1 s1 ones .f32 (List.replicate 4 Binary32.one) :=
    Emits.of_ok (computes_splatConstant (.f32 Binary32.one) (by decide) (by decide) fun _ _ => False)
      live hsplat
  have offered : w1.listing.Offers ones := by
    refine ⟨hones.defined, ?_⟩
    rw [hones.shape]
    decide
  cases hsplat
  refine .load (.store (.define (.define .start ?_) ?_) ⟨hb, rfl⟩ offered (by simp [Listing.Tests])
    hstore) ⟨hb, rfl⟩ hload
  · exact ⟨by simp [Op.values], by simp [Op.place?]⟩
  · refine ⟨fun v hv => ?_, by simp [Op.place?]⟩
    rw [eq_of_mem_replicate (n := 4) hv]
    simp [Listing.Defines, Listing.define]

theorem lastStored_probe {bank : Bank} (hb : bank.isShadowed = true) (a : Nat)
    {ones : Value} {shape : Value → Shape} {lane : Value → Nat → Lane}
    (hshape : shape ones = ⟨.f32, 4⟩) :
    lastStored shape lane [.store (.ofRegister bank (a / 4 * 4 + 4) .f32) ones 15 0 none] bank
      (laneNumber bank a (0 + (4 - a % 4 : Nat))).toNat = some (lane ones 0) := by
  have hlane : (laneNumber bank a (0 + (4 - a % 4 : Nat))).toNat = a / 4 * 4 + 4 := by
    rw [laneNumber_of_isShadowed hb]
    omega
  rw [lastStored, if_pos ⟨rfl, by simp⟩, hlane, hshape]
  simp only [lastStored, Option.or_none]
  rw [newLanes_eq_some]
  refine ⟨0, by decide, ?_, ?_⟩
  · rw [laneNumber_of_isShadowed hb]
    simp [ofRegister]
  · rw [coerced, if_pos rfl, componentFor_four (by simp)]
    rfl

/-- A probe that misses a shadow does not read back what it stored. -/
theorem RegisterFile.Misses.not_readsBack {bank : Bank} (ready : w.Ready)
    (separate : w.registers.Separate) (hb : bank.isShadowed = true)
    (hmisses : w.registers.Misses bank a) (hlow : w.registers.Low bank)
    (hshadows : ∀ group, w.registers.shadow? bank group = none) : ¬ w.ReadsBack := by
  intro hreads
  obtain ⟨s0, good0⟩ := ready.exists_good
  have spec (start : Nat → Nat → Lanes) (s : State) :
      Emits (.alters start) (probe bank a) w s _ _ := emits_probe hb hmisses hlow hshadows
  obtain ⟨⟨ones, v⟩, w', _, hok, a0, -⟩ :=
    (spec (fun _ _ => .replicate 0#32) s0).exists_ok ⟨good0, separate⟩
  have history := history_probe hb good0.live hok
  obtain ⟨S, hSdef⟩ : ∃ S, S = State.initial (.ofListing w'.listing) := ⟨_, rfl⟩
  have hS : S.Loaded (.ofListing w'.listing) := hSdef ▸ State.loaded_initial _
  have hin := a0.steps.within
  obtain ⟨s, a1, hones, xs, hv, hlen, hzero⟩ :=
    (spec S.held _).of_ok ⟨ready.good hS hin, separate⟩ hok
  obtain ⟨consistent, -, hshows⟩ := a1.steps.runSince ready.consistent hS (.refl _) hin
  obtain ⟨-, -, hinside, -⟩ := hmisses
  have hj : 4 - a % 4 < 4 := by omega
  have hidentity : ∀ j, j < 4 → (Mask.components 15)[j]? = some j ∧
      (Swizzle.identity.get j).storage? = some j := by decide
  have hone : (S.runSince (.ofListing w'.listing) w.listing w'.listing).lane (.ofListing w'.listing)
      ones 0 = Binary32.one := hshows.lane consistent (.refl _) hones (by decide)
  have hread := hreads w' _ history w'.listing ⟨[], by simp⟩ S hS [] _ 15 0 v _ rfl (4 - a % 4)
    (4 - a % 4) (hidentity _ hj).1 (4 - a % 4) (hidentity _ hj).2 Binary32.one (by
      rw [← hone]
      exact lastStored_probe hb a ((shapeOf_of_within (.refl _) consistent hones.defined).trans
        hones.shape))
  rw [hshows.lane consistent (.refl _) hv (by omega), hzero fun lane found hf => ?_] at hread
  · exact absurd (show 0#32 = ({} : Modifiers).apply .f32 Binary32.one from hread) (by decide)
  · rw [← (State.shows_upTo w.listing S).read (ready.registers.bound hf).place.declared, hSdef,
      State.read_initial]

/-- Attribute registers read back what was stored last to them exactly if no register crosses the
border of a group and primary attributes have no holes after a lane inside a group. -/
theorem attributes_read_back_iff (w : Workspace) (ready : w.Ready)
    (fresh : w.registers.Fresh w.listing) :
    ((∀ bank, bank.isShadowed = true → w.registers.Gapless bank) → w.ReadsBack) ∧
    ((∀ bank, bank.isShadowed = true → w.registers.Low bank) → w.ReadsBack →
      ∀ bank, bank.isShadowed = true → w.registers.Gapless bank) := by
  refine ⟨ready.readsBack fresh.separate, fun low reads bank hb => ?_⟩
  by_contra hnot
  obtain ⟨a, hmisses⟩ := ready.registers.exists_misses hnot
  exact hmisses.not_readsBack ready fresh.separate hb (low bank hb) (fresh.shadow? bank) reads

/-- A primary attribute of so many lanes. -/
def oneAttribute (base lanes : Nat) : Workspace where
  listing :=
    { target := .machine
      entries := #[.declare ⟨"a", ⟨.f32, lanes⟩, .input 0⟩]
      vars := #[⟨"a", ⟨.f32, lanes⟩, .input 0⟩] }
  registers :=
    { tables := fun bank =>
        if bank = .primaryAttribute then ⟨[(base, .vector ⟨0, []⟩ lanes)]⟩ else {} }

section

variable {base lanes : Nat}

theorem mem_oneAttribute {bank : Bank} {e : Nat × Binding}
    (h : e ∈ ((oneAttribute base lanes).registers.tables bank).entries) :
    bank = .primaryAttribute ∧ e = (base, .vector ⟨0, []⟩ lanes) := by
  by_cases hb : bank = .primaryAttribute
  · exact ⟨hb, by simpa [oneAttribute, hb] using h⟩
  · exact absurd h (by simp [oneAttribute, hb])

theorem fresh_oneAttribute (hpos : 0 < lanes) (hwidth : lanes ≤ 4) :
    (oneAttribute base lanes).registers.Fresh (oneAttribute base lanes).listing where
  shadows := rfl
  predicates := rfl
  disjoint bank := by
    by_cases h : bank = .primaryAttribute <;> simp [oneAttribute, h, RegisterFile.Disjoint]
  valid bank e he := by
    obtain ⟨-, rfl⟩ := mem_oneAttribute he
    exact ⟨⟨show 0 < 1 by decide, rfl, show 0 < 1 by decide⟩, hpos, hwidth⟩
  own bank bank' e he e' he' _ := by
    obtain ⟨rfl, rfl⟩ := mem_oneAttribute he
    obtain ⟨rfl, rfl⟩ := mem_oneAttribute he'
    exact ⟨rfl, rfl⟩

theorem ready_oneAttribute (hpos : 0 < lanes) (hwidth : lanes ≤ 4) :
    (oneAttribute base lanes).Ready :=
  ⟨⟨rfl, rfl⟩, rfl, (fresh_oneAttribute hpos hwidth).wellFormed⟩

theorem bound?_oneAttribute (lane : Nat) :
    ((oneAttribute base lanes).registers.bound? .primaryAttribute lane).isSome = true ↔
      base ≤ lane ∧ lane < base + lanes := by
  have hcandidate : (oneAttribute base lanes).registers.candidate? .primaryAttribute lane =
      if base ≤ lane then some (base, .vector ⟨0, []⟩ lanes) else none := rfl
  rw [RegisterFile.bound?, Option.isSome_map, RegisterFile.find?, hcandidate]
  by_cases h : base ≤ lane
  · rw [if_pos h, Option.filter_some, Option.isSome_ite]
    simp only [h, true_and]
    exact decide_eq_true_iff
  · rw [if_neg h]
    simp [h]

end

theorem attributes_read_back_iff_one :
    ((oneAttribute 0 4).Ready ∧ (oneAttribute 0 4).ReadsBack) ∧
    ((oneAttribute 2 4).Ready ∧ ¬ (oneAttribute 2 4).ReadsBack) := by
  refine ⟨⟨ready_oneAttribute (by decide) (by decide), ?_⟩,
    ready_oneAttribute (by decide) (by decide), fun reads => ?_⟩
  · refine (attributes_read_back_iff _ (ready_oneAttribute (by decide) (by decide))
      (fresh_oneAttribute (by decide) (by decide))).1 fun bank _ => ⟨?_, ?_⟩
    · refine aligned_of_bindings fun e he => ?_
      obtain ⟨-, rfl⟩ := mem_oneAttribute he
      simp [Binding.Aligned]
    · rintro rfl a b _ hgroup _ ha
      rw [bound?_oneAttribute] at ha ⊢
      omega
  · have low : ∀ bank, bank.isShadowed = true → (oneAttribute 2 4).registers.Low bank := by
      intro bank _ e he
      obtain ⟨-, rfl⟩ := mem_oneAttribute he
      decide
    have gapless := (attributes_read_back_iff _ (ready_oneAttribute (by decide) (by decide))
      (fresh_oneAttribute (by decide) (by decide))).2 low reads .primaryAttribute rfl
    have := gapless.aligned 2 ⟨⟨⟨0, []⟩, 4, 2⟩, 0⟩ rfl
    exact absurd this (by decide)

end Microcode
