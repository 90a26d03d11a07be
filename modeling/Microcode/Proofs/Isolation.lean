import Microcode.Proofs.ExecutionOrder
import Microcode.Proofs.TypedAssembly

/-!
Secondary programs are isolated.

The code of a secondary program keeps to secondary attributes, internal registers, predicate
registers and memory.  On a machine this means two things: the variables of all other registers stay
as they are, and two machines that agree on what the code may read agree on it afterwards.  Values
are the temporaries of the code; in a well-typed listing it reads none but constants and those of the
function that it is part of, so the machines may differ in all others.
-/

namespace Microcode

open Machine List Workspace RegisterFile Program State

variable {l : Listing}

/-! ## Code of straight entries -/

namespace Machine

variable {p : Program}

theorem Program.Grows.silent {q : Program} (hcurrent : q.current = p.current)
    (hfunctions : q.functions = p.functions) : p.Grows q [] := ⟨hcurrent, by simp [hfunctions]⟩

theorem Program.grows_add (hp : p.Sound) {e : Entry} (he : e.isStraight = true) :
    p.Grows (p.add e) (e.instr? ⟨p.shapes.size⟩).toList := by
  cases e with
  | define shape op =>
    cases op with
    | constant c => exact .silent rfl rfl
    | _ => exact .emit hp.current _ rfl rfl
  | reuse | declare | element => exact .silent rfl rfl
  | store | storeMemory => exact .emit hp.current _ rfl rfl
  | beginFunction | endFunction | beginEntry | call => cases he

/-- Every instruction of the code of straight entries is that of one of them. -/
theorem Program.exists_grows (hp : p.Sound) {entries : List Entry}
    (h : ∀ e ∈ entries, e.isStraight = true) :
    ∃ code, p.Grows (entries.foldl add p) code ∧
      ∀ i ∈ code, ∃ e ∈ entries, ∃ v, e.instr? v = some i := by
  induction entries generalizing p with
  | nil => exact ⟨[], .refl p, fun i hi => nomatch hi⟩
  | cons e rest ih =>
    obtain ⟨code, hgrows, hcode⟩ := ih (hp.add e) fun e' he' => h e' (.tail _ he')
    refine ⟨_, (grows_add hp (h e mem_cons_self)).trans hgrows, fun i hi => ?_⟩
    rcases mem_append.1 hi with hi | hi
    · exact ⟨e, mem_cons_self, _, Option.mem_toList.1 hi⟩
    · obtain ⟨e', he', hv⟩ := hcode i hi
      exact ⟨e', (.tail _ he'), hv⟩

theorem State.getD_write (s : State) (place : Place) (lanes : Lanes) (x : Nat) :
    (s.write place lanes).vars.getD x #[] =
      if place.variableIndex = x then
        (s.vars.getD x #[]).setIfInBounds (elementIndex place) lanes
      else s.vars.getD x #[] := by
  simp only [write, Array.getD_eq_getD_getElem?, Array.getElem?_modify]
  split
  · cases s.vars[x]? <;> simp
  · rfl

/-- The machines have the same memory, the same values of `V` and the same variables of `X`. -/
structure State.Agree (V : Value → Prop) (X : Nat → Prop) (S S' : State) : Prop where
  size : S'.values.size = S.values.size
  values : ∀ v, V v → S'.lanes v = S.lanes v
  vars : ∀ x, X x → S'.vars.getD x #[] = S.vars.getD x #[]
  memory : S'.memory = S.memory

theorem State.Agree.mono {V V' : Value → Prop} {X : Nat → Prop} {S S' : State}
    (h : S.Agree V X S') (hV : ∀ v, V' v → V v) : S.Agree V' X S' :=
  ⟨h.size, fun v hv => h.values v (hV v hv), h.vars, h.memory⟩

end Machine

/-- Values that an entry reads. -/
def Entry.values : Entry → List Value
  | .define _ op => op.values
  | .store _ v => [v]
  | .storeMemory _ offset v => [offset, v]
  | _ => []

section

variable {r : RegisterFile} {B : Bank → Prop} {V : Value → Prop} {X : Nat → Prop} {e : Entry}
  {v : Value} {i : Instr} {p : Program} {call : Nat → State → State} {S S' : State}

/-! ## One instruction -/

theorem Entry.Confined.getD_step (h : e.Confined r B) (hi : e.instr? v = some i) {x : Nat}
    (hx : ¬ r.Writes B x) : (S.step p call i).vars.getD x #[] = S.vars.getD x #[] := by
  cases e with
  | define shape op =>
    cases op with
    | constant c => exact absurd hi (by simp [Entry.instr?])
    | _ =>
      obtain rfl := Option.some.inj hi
      rfl
  | store place u =>
    obtain rfl := Option.some.inj hi
    have hne : place.variableIndex ≠ x := fun heq => hx (heq ▸ h)
    rw [step, getD_write, if_neg hne]
  | storeMemory space offset u =>
    obtain rfl := Option.some.inj hi
    rfl
  | reuse | declare | element | beginFunction | endFunction | beginEntry =>
    exact absurd hi (by simp [Entry.instr?])
  | call f => exact absurd h id

theorem Machine.State.Agree.define (h : S.Agree V X S') (v : Value) {x x' : Lanes} (hx : x' = x) :
    Agree (fun u => V u ∨ u = v) X { S with values := S.values.setIfInBounds v.index x }
      { S' with values := S'.values.setIfInBounds v.index x' } := by
  subst hx
  refine ⟨by simp [h.size], fun u hu => ?_, h.vars, h.memory⟩
  simp only [lanes, Array.getD_eq_getD_getElem?, Array.getElem?_setIfInBounds, h.size]
  split
  · rfl
  · rename_i hne
    rcases hu with hu | rfl
    · simpa only [lanes, Array.getD_eq_getD_getElem?] using h.values u hu
    · exact absurd rfl hne

/-- Machines that agree on what a confined entry reads agree on what it writes. -/
theorem Entry.Confined.agree_step (h : e.Confined r B) (hi : e.instr? v = some i)
    (reads : ∀ u ∈ e.values, V u) (agree : S.Agree V (r.Uses B B) S') :
    Agree (fun u => V u ∨ e.defines = true ∧ u = v) (r.Uses B B) (S.step p call i)
      (S'.step p call i) := by
  have hlane (u : Value) (hu : V u) (k : Nat) : S'.lane p u k = S.lane p u k := by
    rw [lane, lane, agree.values u hu]
  have old {T T' : State} (hT : T.Agree V (r.Uses B B) T') (hdefines : e.defines = false) :
      T.Agree (fun u => V u ∨ e.defines = true ∧ u = v) (r.Uses B B) T' :=
    hT.mono fun u hu => hu.resolve_right fun hnew => absurd hnew.1 (by simp [hdefines])
  cases e with
  | define shape op =>
    have heval : S'.eval p shape op = S.eval p shape op := by
      refine eval_congr shape (fun u hu => ⟨rfl, agree.values u (reads u hu)⟩) ?_ agree.memory
      intro place hplace
      obtain rfl : op = .load place := by
        cases op <;> simp_all [Op.place?]
      rw [State.read, State.read, agree.vars _ h]
    cases op with
    | constant c => exact absurd hi (by simp [Entry.instr?])
    | _ =>
      obtain rfl := Option.some.inj hi
      exact (agree.define v heval).mono fun u hu => hu.imp_right And.right
  | store place u =>
    obtain rfl := Option.some.inj hi
    refine old ⟨agree.size, agree.values, fun x hx => ?_, agree.memory⟩ rfl
    rw [step, step, getD_write, getD_write, agree.vars x hx,
      agree.values u (reads u (mem_singleton.2 rfl))]
  | storeMemory space offset u =>
    obtain rfl := Option.some.inj hi
    refine old ⟨agree.size, agree.values, agree.vars, ?_⟩ rfl
    simp only [step, hlane offset (reads offset (by simp [Entry.values])),
      hlane u (reads u (by simp [Entry.values])), agree.memory]
  | reuse | declare | element | beginFunction | endFunction | beginEntry =>
    exact absurd hi (by simp [Entry.instr?])
  | call f => exact absurd h id

/-! ## Code of workspaces -/

/-- Runs the code that was emitted between two workspaces on a machine of the program. -/
def Workspace.run (p : Program) (w w' : Workspace) (S : State) : State :=
  S.runSince p w.listing w'.listing

variable {w w' : Workspace}

theorem Workspace.Confined.exists_code (h : w.Confined B w') :
    ∃ code : List Instr, (∀ p S, run p w w' S = code.foldl (step p fun _ s => s) S) ∧
      ∀ i ∈ code, ∃ (e : Entry) (v : Value), e.Confined w'.registers B ∧ e.instr? v = some i := by
  obtain ⟨added, hadded, hconfined⟩ := h.entries
  obtain ⟨code, hgrows, hcode⟩ := exists_grows (sound_ofListing w.listing)
    fun e he => (hconfined e he).isStraight
  have hprogram : Program.ofListing w'.listing = added.foldl Program.add (.ofListing w.listing) := by
    rw [ofListing, ofListing, ← Array.foldl_toList, ← Array.foldl_toList, hadded,
      foldl_append]
  refine ⟨code, fun p S => ?_, fun i hi => ?_⟩
  · rw [run, runSince, hprogram, hgrows.since_eq]
  · obtain ⟨e, he, v, hv⟩ := hcode i hi
    exact ⟨e, v, hconfined e he, hv⟩

theorem Workspace.Confined.getD_run (h : w.Confined B w') (p : Program) (S : State) {x : Nat}
    (hx : ¬ w'.registers.Writes B x) :
    (run p w w' S).vars.getD x #[] = S.vars.getD x #[] := by
  obtain ⟨code, hrun, hcode⟩ := h.exists_code
  rw [hrun]
  clear hrun
  induction code generalizing S with
  | nil => rfl
  | cons i rest ih =>
    obtain ⟨e, v, he, hi⟩ := hcode i mem_cons_self
    rw [foldl_cons, ih _ fun j hj => hcode j (.tail _ hj), he.getD_step hi hx]

/-- Confined code reads no other variables. -/
theorem Workspace.Confined.agree_run (h : w.Confined B w') (p : Program) {S S' : State}
    (agree : S.Agree (fun _ => True) (w'.registers.Uses B B) S') :
    (run p w w' S).Agree (fun _ => True) (w'.registers.Uses B B)
      (run p w w' S') := by
  obtain ⟨code, hrun, hcode⟩ := h.exists_code
  rw [hrun, hrun]
  clear hrun
  induction code generalizing S S' with
  | nil => exact agree
  | cons i rest ih =>
    obtain ⟨e, v, he, hi⟩ := hcode i mem_cons_self
    have hrest : ∀ j ∈ rest, _ := fun j hj => hcode j (.tail _ hj)
    exact ih ((he.agree_step hi (fun _ _ => trivial) agree).mono fun _ _ => .inl trivial) hrest

/-! ## Values of the function that is being written -/

/-- The constants of a program, and the values of the function that is being written. -/
def Listing.Known (p : Program) (l : Listing) (v : Value) : Prop :=
  (∃ c ∈ p.constants, c.1 = v) ∨ l.scope.start ≤ v.index ∧ l.Defines v

theorem Listing.WellTyped.consistent (h : l.WellTyped) : l.Consistent := by
  induction h with
  | empty target => exact ⟨rfl, rfl⟩
  | add _ _ ih => exact ih.add _

theorem Listing.Admits.known (h : l.Admits e) (p : Program) : ∀ u ∈ e.values, l.Known p u := by
  have has {u : Value} {shape : Shape} (hu : l.Has u shape) : l.Known p u :=
    .inr ⟨hu.inScope, hu.defined⟩
  cases h with
  | define typed =>
    intro u hu
    obtain ⟨shape, hhas⟩ := typed.has u hu
    exact has hhas
  | store _ hv => exact forall_mem_singleton.2 (has hv)
  | storeMemory hoffset _ hv =>
    exact forall_mem_cons.2 ⟨has hoffset, forall_mem_singleton.2 (has hv)⟩
  | _ => exact fun u hu => nomatch hu

/-- A straight entry makes no value known but the one that it defines, and constants are known
beforehand. -/
theorem Listing.known_add (hl : l.Consistent) (he : e.isStraight = true)
    (hp : (ofListing (l.add e)).Within p) {u : Value} (h : (l.add e).Known p u) :
    l.Known p u ∨
      (e.instr? ⟨l.shapes.size⟩).isSome = true ∧ e.defines = true ∧ u = ⟨l.shapes.size⟩ := by
  rcases h with h | ⟨hstart, hdefined⟩
  · exact .inl (.inl h)
  rw [Listing.scope_add] at hstart
  cases e with
  | define shape op =>
    by_cases hold : u.index < l.shapes.size
    · exact .inl (.inr ⟨hstart, hold⟩)
    · have hnew : u = ⟨l.shapes.size⟩ := by
        simp only [Listing.Defines, Listing.add, Array.size_push] at hdefined
        exact congrArg Value.mk (Nat.eq_of_lt_succ_of_not_lt hdefined hold)
      cases op with
      | constant c =>
        refine .inl (.inl ⟨(⟨l.shapes.size⟩, c.lane), hp.constants _ ?_, hnew.symm⟩)
        rw [Program.ofListing_push (l.entries_add _), Program.add, hl.shapes]
        exact Array.mem_push_self
      | _ => exact .inr ⟨rfl, rfl, hnew⟩
  | beginFunction | endFunction | beginEntry | call => cases he
  | _ => exact .inl (.inr ⟨hstart, hdefined⟩)

/-- The code of an admitted entry reads no values but known ones. -/
theorem agree_add (hl : l.Consistent) (admitted : l.Admits e) (confined : e.Confined r B)
    (hp : (ofListing (l.add e)).Within p) (agree : S.Agree (l.Known p) (r.Uses B B) S') :
    Agree ((l.add e).Known p) (r.Uses B B)
      ((e.instr? ⟨l.shapes.size⟩).toList.foldl (step p call) S)
      ((e.instr? ⟨l.shapes.size⟩).toList.foldl (step p call) S') := by
  have hknown (u : Value) (hu : (l.add e).Known p u) := l.known_add hl confined.isStraight hp hu
  cases hi : e.instr? ⟨l.shapes.size⟩ with
  | none =>
    refine agree.mono fun u hu => (hknown u hu).resolve_right fun hnew => ?_
    rw [hi] at hnew
    exact absurd hnew.1 Bool.false_ne_true
  | some i =>
    exact (confined.agree_step hi (admitted.known p) agree).mono fun u hu =>
      (hknown u hu).imp_right And.right

theorem Listing.known_of_entries {l' : Listing} (hl : l.Consistent) (hl' : l'.Consistent)
    (h : l'.entries = l.entries) {u : Value} (hu : l'.Known p u) : l.Known p u := by
  have hshapes : l'.shapes = l.shapes := by
    rw [← hl.shapes, ← hl'.shapes, ofListing, ofListing, h]
  unfold Listing.Known Listing.scope Listing.Defines at hu ⊢
  rw [h, hshapes] at hu
  exact hu

/-- The code of a well-typed listing reads no values but constants and those of its function. -/
theorem agree_entries {l' : Listing} {added : List Entry} (typed : l.WellTyped)
    (typed' : l'.WellTyped) (hadded : l'.entries.toList = l.entries.toList ++ added)
    (confined : ∀ e ∈ added, e.Confined r B) (hp : (ofListing l').Within p) :
    ∃ code, (ofListing l).Grows (ofListing l') code ∧
      ∀ S S' : State, S.Agree (l.Known p) (r.Uses B B) S' →
        Agree (l'.Known p) (r.Uses B B) (code.foldl (step p call) S)
          (code.foldl (step p call) S') := by
  -- From the last entry back, since each one is admitted by those before it.
  induction added using List.reverseRecOn generalizing l' with
  | nil =>
    have hentries : l'.entries = l.entries := Array.toList_inj.1 (by simpa using hadded)
    refine ⟨[], ?_, fun S S' agree => agree.mono fun u hu =>
      Listing.known_of_entries typed.consistent typed'.consistent hentries hu⟩
    rw [ofListing, ofListing, hentries]
    exact .refl _
  | append_singleton rest e ih =>
    cases typed' with
    | empty target => exact absurd hadded (by simp)
    | @add l0 e' before admitted =>
      rw [l0.entries_add, Array.toList_push, ← append_assoc] at hadded
      obtain ⟨hrest, hlast⟩ := append_inj' hadded rfl
      obtain rfl : e' = e := singleton_inj.1 hlast
      have hconfined := confined e' (by simp)
      have hpush : ofListing (l0.add e') = (ofListing l0).add e' :=
        ofListing_push (l0.entries_add e')
      have hwithin : (ofListing l0).Within p :=
        ((ofListing l0).within_add e').trans (hpush ▸ hp)
      obtain ⟨code, hgrows, hagree⟩ := ih before hrest (fun d hd => confined d (by simp [hd])) hwithin
      have hstep := grows_add (sound_ofListing l0) hconfined.isStraight
      rw [← hpush, before.consistent.shapes] at hstep
      refine ⟨_, hgrows.trans hstep, fun S S' agree => ?_⟩
      rw [foldl_append, foldl_append]
      exact agree_add before.consistent admitted hconfined hp (hagree S S' agree)

theorem Workspace.Confined.agree_known (h : w.Confined B w') (typed : w.listing.WellTyped)
    (typed' : w'.listing.WellTyped) (hp : (ofListing w'.listing).Within p)
    (agree : S.Agree (w.listing.Known p) (w'.registers.Uses B B) S') :
    (run p w w' S).Agree (w'.listing.Known p) (w'.registers.Uses B B)
      (run p w w' S') := by
  obtain ⟨added, hadded, hconfined⟩ := h.entries
  obtain ⟨code, hgrows, hagree⟩ := agree_entries typed typed' hadded hconfined hp
  rw [run, run, runSince, runSince, hgrows.since_eq]
  exact hagree S S' agree

/-! ## Lanes of other banks -/

/-- The variable is bound to lanes of the bank, or is the shadow of a group of it. -/
def RegisterFile.Stores (r : RegisterFile) (bank : Bank) (x : Nat) : Prop :=
  (∃ e ∈ (r.tables bank).entries, e.2.place.variableIndex = x) ∨
    ∃ s ∈ r.shadows, s.1.1 = bank ∧ s.2.place.variableIndex = x

/-- The variables of all other banks are declared, and are neither variables of the banks of `B` nor
predicate registers. -/
def Workspace.Apart (B : Bank → Prop) (w : Workspace) : Prop :=
  ∀ bank x, ¬ B bank → w.registers.Stores bank x →
    x < w.listing.vars.size ∧ ¬ w.registers.Uses B B x

namespace Workspace.Confined

variable {bank : Bank} {x : Nat}

theorem shadow?_eq (h : w.Confined B w') (hbank : ¬ B bank) (group : Nat) :
    w'.registers.shadow? bank group = w.registers.shadow? bank group := by
  obtain ⟨new, hnew, hbanks⟩ := h.registers.shadows
  have hnone : new.lookup (bank, group) = none := by
    rw [lookup_eq_none_iff]
    intro s hs
    rw [bne_iff_ne]
    intro heq
    have hfst : bank = s.1.1 := congrArg Prod.fst heq
    exact hbank (hfst ▸ (hbanks s hs).1)
  rw [shadow?, shadow?, hnew, lookup_append, hnone, Option.none_or]

theorem resolved?_eq (h : w.Confined B w') (hbank : ¬ B bank) (lane : Nat) :
    w'.registers.resolved? bank lane = w.registers.resolved? bank lane := by
  simp only [RegisterFile.resolved?, RegisterFile.held?, RegisterFile.bound?, RegisterFile.find?,
    candidate?, h.shadow?_eq hbank, h.registers.tables]

theorem stores (h : w.Confined B w') (hbank : ¬ B bank) (hx : w'.registers.Stores bank x) :
    w.registers.Stores bank x := by
  obtain ⟨new, hnew, hbanks⟩ := h.registers.shadows
  rcases hx with ⟨e, he, hx⟩ | ⟨s, hs, hs', hx⟩
  · exact .inl ⟨e, h.registers.tables ▸ he, hx⟩
  · rw [hnew] at hs
    rcases mem_append.1 hs with hs | hs
    · exact absurd (hs' ▸ (hbanks s hs).1) hbank
    · exact .inr ⟨s, hs, hs', hx⟩

theorem uses (h : w.Confined B w') (hx : w'.registers.Uses B B x) :
    w.registers.Uses B B x ∨ w.listing.vars.size ≤ x := by
  cases hx with
  | bound allowed mem here => exact .inl (.bound allowed (h.registers.tables ▸ mem) here)
  | shadow allowed mem here =>
    obtain ⟨new, hnew, hbanks⟩ := h.registers.shadows
    rw [hnew] at mem
    rcases mem_append.1 mem with hs | hs
    · exact .inr (here ▸ (hbanks _ hs).2)
    · exact .inl (.shadow allowed hs here)
  | predicate get here =>
    rcases h.registers.newer _ _ get with hold | hle
    · exact .inl (.predicate hold here)
    · exact .inr (here ▸ hle)

theorem not_uses (h : w.Confined B w') (apart : w.Apart B) (hbank : ¬ B bank)
    (hx : w'.registers.Stores bank x) : ¬ w'.registers.Uses B B x := by
  obtain ⟨hlt, hnot⟩ := apart bank x hbank (h.stores hbank hx)
  intro huses
  rcases h.uses huses with hold | hle
  · exact hnot hold
  · omega

end Workspace.Confined

theorem RegisterFile.stores_of_resolved? {bank : Bank} {lane : Nat} {found : Resolved}
    (h : r.resolved? bank lane = some found) : r.Stores bank found.register.place.variableIndex := by
  rcases Option.or_eq_some_iff.1 h with hheld | ⟨-, hbound⟩
  · obtain ⟨-, hheld⟩ := Option.ite_none_right_eq_some.1 hheld
    obtain ⟨register, hshadow, rfl⟩ := Option.map_eq_some_iff.1 hheld
    exact .inr ⟨_, shadow_of_shadow? hshadow, rfl, rfl⟩
  · obtain ⟨base, binding, hfind, rfl⟩ := bound?_eq_some hbound
    refine .inl ⟨_, (find?_mem hfind).1, ?_⟩
    cases binding <;> rfl

theorem Workspace.Confined.laneAt_run (h : w.Confined B w') (apart : w.Apart B) {bank : Bank}
    (hbank : ¬ B bank) (p : Program) (S : State) (lane : Nat) :
    w'.registers.laneAt (run p w w' S) bank lane = w.registers.laneAt S bank lane := by
  rw [laneAt, laneAt, h.resolved?_eq hbank]
  cases hfound : w.registers.resolved? bank lane with
  | none => rfl
  | some found =>
    have hstores := stores_of_resolved? ((h.resolved?_eq hbank lane).trans hfound)
    have hkept := h.getD_run p S fun hwrites => h.not_uses apart hbank hstores hwrites.uses
    simp only [Resolved.content, State.read, hkept]

end

theorem confined_secondary {ctx : Context} {words : List Word} {w w' : Workspace}
    (emitted : lowerStream ctx words true w = .ok () w') : w.Confined Bank.isSecondary w' := by
  have hleads := (within_lowerStream ctx words true fun _ _ h => (decode_secondary_in h).reached).leads w
  unfold Footprint.Leads at hleads
  rw [emitted] at hleads
  exact hleads.1

/-- Secondary programs are isolated.  From every workspace, what a stream of secondary words emits
touches no variable of temporaries, outputs and primary attributes, adds no shadow of them, leaves
their variables and lanes as they are on every machine, and leads machines that agree on all else to
agree on all else. -/
theorem secondary_isolated (ctx : Context) (words : List Word) (w w' : Workspace)
    (emitted : lowerStream ctx words true w = .ok () w') (bank : Bank)
    (other : bank ∈ [.temporary, .output, .primaryAttribute]) :
    let used := w'.registers.Uses Bank.isSecondary Bank.isSecondary
    (w.Apart Bank.isSecondary → ∃ added, w'.listing.entries.toList =
      w.listing.entries.toList ++ added ∧ ∀ e ∈ added, ∀ x, w'.registers.Stores bank x →
        e.touches x = false) ∧
    (∀ group, w'.registers.shadow? bank group = w.registers.shadow? bank group) ∧
    ∀ (p : Program) (S : State),
      (∀ x, ¬ w'.registers.Writes Bank.isSecondary x →
        (run p w w' S).vars.getD x #[] = S.vars.getD x #[]) ∧
      (w.Apart Bank.isSecondary → ∀ lane,
        w'.registers.laneAt (run p w w' S) bank lane = w.registers.laneAt S bank lane) ∧
      (∀ S', S.Agree (fun _ => True) used S' →
        (run p w w' S).Agree (fun _ => True) used (run p w w' S')) ∧
      (w.Sound → (ofListing w'.listing).Within p → ∀ S', S.Agree (w.listing.Known p) used S' →
        (run p w w' S).Agree (w'.listing.Known p) used (run p w w' S')) := by
  intro used
  have h := confined_secondary emitted
  have hbank : ¬ bank.isSecondary := by
    rintro (rfl | rfl) <;> exact absurd other (by decide)
  refine ⟨fun apart => ?_, h.shadow?_eq hbank, fun p S => ⟨fun x => h.getD_run p S,
    fun apart => h.laneAt_run apart hbank p S, fun S' => h.agree_run p, fun sound hp S' agree => ?_⟩⟩
  · obtain ⟨added, hadded, hconfined⟩ := h.entries
    refine ⟨added, hadded, fun e he x hx => ?_⟩
    rw [Bool.eq_false_iff]
    exact fun htouches => h.not_uses apart hbank hx ((hconfined e he).uses htouches)
  · have checks := (checks_lowerStream ctx words true sound).2
    rw [emitted] at checks
    exact h.agree_known sound.listing checks.2.1.listing hp agree

theorem apart_twoAttributes : twoAttributes.Apart Bank.isSecondary := by
  have unused (x : Nat) : ¬ twoAttributes.registers.Uses Bank.isSecondary Bank.isSecondary x := by
    intro h
    cases h with
    | bound allowed mem here =>
      rcases allowed with rfl | rfl <;> exact absurd mem not_mem_nil
    | shadow allowed mem here => exact absurd mem not_mem_nil
    | @predicate slot place get here =>
      rcases Quad.index_cases slot with rfl | rfl | rfl | ⟨k, rfl⟩ <;> cases get
  intro bank x _ hx
  refine ⟨?_, unused x⟩
  rcases hx with ⟨e, he, hx⟩ | ⟨s, hs, -⟩
  · cases bank with
    | primaryAttribute =>
      have hmem : e = (0, .vector ⟨0, []⟩ 2) ∨ e = (2, .vector ⟨1, []⟩ 1) := by
        simpa [twoAttributes] using he
      rcases hmem with rfl | rfl <;> subst hx <;> decide
    | _ => cases he
  · cases hs

/-- A move of four lanes between secondary attributes, beside two primary attributes. -/
theorem secondary_isolated_move :
    ∃ w', lowerStream {} [0x384005200f000000] true twoAttributes = .ok () w' ∧
      w'.registers.shadows ≠ [] ∧
      (∀ group, w'.registers.shadow? .primaryAttribute group = none) ∧
      ∀ (p : Program) (S : State) (lane : Nat),
        w'.registers.laneAt (run p twoAttributes w' S) .primaryAttribute lane =
          twoAttributes.registers.laneAt S .primaryAttribute lane := by
  obtain ⟨_, w', emitted, h⟩ := Emit.exists_of_passes (lowerStream {} [0x384005200f000000] true)
    twoAttributes (fun _ w' => !w'.registers.shadows.isEmpty) (by decide +kernel)
  obtain ⟨-, hshadows, hrun⟩ := secondary_isolated {} [0x384005200f000000] twoAttributes w' emitted
    .primaryAttribute (by decide)
  refine ⟨w', emitted, ?_, hshadows, fun p S => (hrun p S).2.1 apart_twoAttributes⟩
  intro hnil
  rw [hnil] at h
  exact absurd h Bool.false_ne_true

end Microcode
