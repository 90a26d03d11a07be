import Mathlib.Data.List.Intervals
import Microcode.Proofs.KeptAssembly

/-!
The order in which the entries of a listing are executed.

A listing is sorted by function and its calls are inlined, so the order of execution is a list of
positions.  `run_eq_executionOrder` says that a machine performs exactly these entries in exactly
this order.  In an assembled shader only one part is executed out of place: the colour that a
fragment is drawn over is loaded after the secondary program is emitted, but before it is called.
The two have no shadow in common, so every shadow is seeded before anything else touches it.
-/

namespace Microcode

open Machine List Workspace Listing Program

variable {e : Entry}

/-! ## Entries by function -/

/-- Positions of entries, by function.  Function 0 is the entry point and takes what is outside of
the others. -/
structure Outline where
  functions : List (List Nat) := [[]]
  current : Nat := 0
  deriving DecidableEq, Repr

namespace Outline

/-- Goes on with the entry at a position. -/
def add (o : Outline) (n : Nat) : Entry → Outline
  | .beginFunction _ => ⟨o.functions ++ [[]], o.functions.length⟩
  | .endFunction | .beginEntry => { o with current := 0 }
  | _ => { o with functions := o.functions.modify o.current (· ++ [n]) }

/-- Goes on with the entries from a position on. -/
def extend (o : Outline) : Nat → List Entry → Outline
  | _, [] => o
  | n, e :: rest => (o.add n e).extend (n + 1) rest

theorem extend_append (o : Outline) (n : Nat) (xs ys : List Entry) :
    o.extend n (xs ++ ys) = (o.extend n xs).extend (n + xs.length) ys := by
  induction xs generalizing o n with
  | nil => rfl
  | cons e rest ih =>
    rw [cons_append, extend, ih, extend, length_cons, Nat.add_assoc, Nat.add_comm 1]

theorem add_straight (o : Outline) (n : Nat) (he : e.isStraight = true) :
    o.add n e = { o with functions := o.functions.modify o.current (· ++ [n]) } := by
  cases e with
  | beginFunction | endFunction | beginEntry | call => cases he
  | _ => rfl

/-- Code of one function stands in that function, one position after the other. -/
theorem extend_straight (o : Outline) (n : Nat) {entries : List Entry}
    (h : ∀ e ∈ entries, e.isStraight = true) :
    o.extend n entries =
      { o with functions := o.functions.modify o.current (· ++ Ico n (n + entries.length)) } := by
  induction entries generalizing o n with
  | nil =>
    have hid : (fun positions : List Nat => positions ++ Ico n (n + 0)) = id := by
      funext positions
      simp
    rw [extend, length_nil, hid, modify_id]
  | cons e rest ih =>
    have hrest : ∀ e ∈ rest, e.isStraight = true := fun e he => h e (.tail _ he)
    have hcons : Ico n (n + (rest.length + 1)) = n :: Ico (n + 1) (n + 1 + rest.length) := by
      rw [Ico.eq_cons (by omega), Nat.add_right_comm, Nat.add_assoc]
    rw [extend, ih _ _ hrest, add_straight _ _ (h e mem_cons_self), length_cons, hcons]
    simp [modify_modify_eq, Function.comp_def]

end Outline

namespace Listing

def outline (l : Listing) : Outline := Outline.extend {} 0 l.entries.toList

/-- A position, or what the function that is called there executes. -/
def inlined (l : Listing) (call : Nat → List Nat) (n : Nat) : List Nat :=
  match l.entries[n]? with
  | some (.call g) => call (g.index + 1)
  | _ => [n]

/-- Positions that are executed in a function, with at most `depth` functions open at a time. -/
def executed (l : Listing) : Nat → Nat → List Nat
  | 0, _ => []
  | depth + 1, f => (l.outline.functions.getD f []).flatMap (l.inlined (l.executed depth))

theorem flatMap_inlined (l : Listing) (call : Nat → List Nat) {positions : List Nat}
    (h : ∀ n ∈ positions, ∃ e, l.entries[n]? = some e ∧ e.isStraight = true) :
    positions.flatMap (l.inlined call) = positions := by
  have hsingle : ∀ n ∈ positions, l.inlined call n = [n] := by
    intro n hn
    obtain ⟨e, he, hstraight⟩ := h n hn
    cases e with
    | call f => cases hstraight
    | _ => simp only [inlined, he]
  rw [flatMap_congr hsingle, flatMap_singleton']

/-- Positions in the order in which they are executed. -/
def executionOrder (l : Listing) : List Nat := l.executed l.outline.functions.length 0

end Listing

/-! ## What a machine performs -/

def Entry.defines : Entry → Bool
  | .define _ _ => true
  | _ => false

/-- The instruction that an entry becomes; a definition defines the given value. -/
def Entry.instr? (v : Value) : Entry → Option Instr
  | .define _ (.constant _) => none
  | .define shape op => some (.define v shape op)
  | .store place value => some (.store place value)
  | .storeMemory space offset value => some (.storeMemory space offset value)
  | .call f => some (.call (f.index + 1))
  | _ => none

/-- The instruction at a position. -/
def instrAt? (entries : List Entry) (n : Nat) : Option Instr :=
  entries[n]?.bind (Entry.instr? ⟨(entries.take n).countP Entry.defines⟩)

/-- Performs the entry at a position.  A call does nothing by itself. -/
def Listing.perform (l : Listing) (s : State) (n : Nat) : State :=
  match instrAt? l.entries.toList n with
  | some i => s.step (ofListing l) (fun _ s => s) i
  | none => s

theorem map_modify {α β : Type} {g : α → β} {f : α → α} {k : β → β} (h : ∀ a, g (f a) = k (g a))
    (xs : List α) (i : Nat) : (xs.modify i f).map g = (xs.map g).modify i k := by
  induction xs generalizing i with
  | nil => simp
  | cons x rest ih =>
    cases i with
    | zero => simp [h]
    | succ i => simp [ih]

/-- The program of the entries before a position against their outline. -/
structure Outline.Matches (entries : List Entry) (o : Outline) (n : Nat) (p : Program) : Prop where
  current : p.current = o.current
  values : p.shapes.size = (entries.take n).countP Entry.defines
  functions : p.functions.toList.map Array.toList =
    o.functions.map (filterMap (instrAt? entries))

namespace Outline.Matches

variable {entries : List Entry} {o : Outline} {n : Nat} {p : Program}

theorem add (h : o.Matches entries n p) (he : entries[n]? = some e) :
    (o.add n e).Matches entries (n + 1) (p.add e) := by
  have hvalues : (entries.take (n + 1)).countP Entry.defines =
      p.shapes.size + if e.defines then 1 else 0 := by
    rw [take_add_one, he, h.values, countP_append]
    simp
  have hinstr : instrAt? entries n = e.instr? ⟨p.shapes.size⟩ := by
    rw [instrAt?, he, h.values]
    rfl
  have emits (i : Instr) (hi : e.instr? ⟨p.shapes.size⟩ = some i) :
      (p.emit i).functions.toList.map Array.toList =
        (o.functions.modify o.current (· ++ [n])).map (filterMap (instrAt? entries)) := by
    rw [emit, Array.toList_modify, h.current,
      map_modify (k := (· ++ [i])) fun a => Array.toList_push,
      map_modify (k := (· ++ [i])) fun a => by simp [hinstr, hi], h.functions]
  have skips (hi : e.instr? ⟨p.shapes.size⟩ = none) :
      p.functions.toList.map Array.toList =
        (o.functions.modify o.current (· ++ [n])).map (filterMap (instrAt? entries)) := by
    rw [map_modify (k := id) fun a => by simp [hinstr, hi], modify_id, h.functions]
  cases e with
  | define shape op =>
    cases op with
    | constant c => exact ⟨h.current, by simp [hvalues, Program.add, Entry.defines], skips rfl⟩
    | _ =>
      exact ⟨h.current, by simp [hvalues, Program.add, Program.emit, Entry.defines], emits _ rfl⟩
  | reuse | declare | element => exact ⟨h.current, hvalues.symm, skips rfl⟩
  | store | storeMemory | call => exact ⟨h.current, hvalues.symm, emits _ rfl⟩
  | beginFunction name =>
    refine ⟨?_, hvalues.symm, ?_⟩
    · simpa [Program.add, Outline.add] using congrArg length h.functions
    · simp [Program.add, Outline.add, h.functions]
  | endFunction | beginEntry => exact ⟨rfl, hvalues.symm, h.functions⟩

theorem extend {rest : List Entry} (h : o.Matches entries n p) (hrest : entries.drop n = rest) :
    (o.extend n rest).Matches entries (n + rest.length) (rest.foldl Program.add p) := by
  induction rest generalizing o n p with
  | nil => exact h
  | cons e rest ih =>
    have he : entries[n]? = some e := by
      rw [← Nat.add_zero n, ← getElem?_drop, hrest]
      rfl
    have hdrop : entries.drop (n + 1) = rest := by
      rw [← drop_drop, hrest]
      rfl
    rw [length_cons, Nat.add_comm rest.length, ← Nat.add_assoc]
    exact ih (h.add he) hdrop

end Outline.Matches

namespace Listing

variable (l : Listing)

theorem functions_ofListing : (ofListing l).functions.toList.map Array.toList =
    l.outline.functions.map (filterMap (instrAt? l.entries.toList)) := by
  have hstart : Outline.Matches l.entries.toList {} 0 {} := ⟨rfl, rfl, rfl⟩
  rw [ofListing, ← Array.foldl_toList]
  exact (hstart.extend rfl).functions

theorem exec_eq_executed (depth f : Nat) (s : State) :
    s.exec (ofListing l) depth f = (l.executed depth f).foldl l.perform s := by
  induction depth generalizing f s with
  | zero => rfl
  | succ depth ih =>
    have hblock : ((ofListing l).functions.getD f #[]).toList =
        (l.outline.functions.getD f []).filterMap (instrAt? l.entries.toList) := by
      have hget := congrArg (·[f]?) l.functions_ofListing
      simp only [getElem?_map, Array.getElem?_toList] at hget
      rw [Array.getD_eq_getD_getElem?, getD_eq_getElem?_getD]
      cases hp : (ofListing l).functions[f]? <;> cases ho : l.outline.functions[f]? <;>
        simp_all
    rw [State.exec, ← Array.foldl_toList, hblock, foldl_filterMap, executed, foldl_flatMap]
    congr 1
    funext s n
    cases he : (l.entries[n]? : Option Entry) with
    | none => simp [instrAt?, inlined, perform, he]
    | some e =>
      have hinstr : instrAt? l.entries.toList n =
          e.instr? ⟨(l.entries.toList.take n).countP Entry.defines⟩ := by
        rw [instrAt?, Array.getElem?_toList, he]
        rfl
      cases e with
      | call g =>
        rw [hinstr, inlined, he]
        exact ih (g.index + 1) s
      | define shape op => cases op <;> simp [inlined, perform, he, hinstr, Entry.instr?, State.step]
      | _ => simp [inlined, perform, he, hinstr, Entry.instr?, State.step]

/-- A machine performs the entries in the order of execution. -/
theorem run_eq_executionOrder (s : State) :
    s.run (ofListing l) = l.executionOrder.foldl l.perform s := by
  have hsize : (ofListing l).functions.size = l.outline.functions.length := by
    simpa using congrArg length l.functions_ofListing
  rw [State.run, l.exec_eq_executed, hsize]
  rfl

end Listing

/-! ## Outlines of workspaces -/

namespace Workspace

variable {w w' : Workspace}

theorem prolongs_add (w : Workspace) (e : Entry) : w.listing.Prolongs (w.add e).listing :=
  w.listing.prolongs_add e

@[simp] theorem size_add (w : Workspace) (e : Entry) :
    (w.add e).listing.entries.size = w.listing.entries.size + 1 := by
  simp [add]

theorem outline_add (w : Workspace) (e : Entry) :
    (w.add e).listing.outline = w.listing.outline.add w.listing.entries.size e := by
  simp [outline, add, Outline.extend_append, Outline.extend]

theorem Runs.outline (h : w.Runs w') : w'.listing.outline =
    { w.listing.outline with
      functions := w.listing.outline.functions.modify w.listing.outline.current
        (· ++ Ico w.listing.entries.size w'.listing.entries.size) } := by
  obtain ⟨added, hadded, hstraight⟩ := h.entries
  have hsize : w'.listing.entries.size = w.listing.entries.size + added.length := by
    simpa using congrArg length hadded
  rw [Listing.outline, hadded, Outline.extend_append, Outline.extend_straight _ _ hstraight, hsize]
  simp [Listing.outline]

theorem Runs.straight (h : w.Runs w') {l : Listing} (hl : w'.listing.Prolongs l) {n : Nat}
    (hn : n ∈ Ico w.listing.entries.size w'.listing.entries.size) :
    ∃ e, l.entries[n]? = some e ∧ e.isStraight = true := by
  obtain ⟨added, hadded, hstraight⟩ := h.entries
  have hn := Ico.mem.1 hn
  have hget : l.entries[n]? = added[n - w.listing.entries.size]? := by
    rw [hl.getElem? hn.2, ← Array.getElem?_toList, hadded, getElem?_append_right (by simpa using hn.1)]
    simp
  have hlt : n - w.listing.entries.size < added.length := by
    have hsize : w'.listing.entries.size = w.listing.entries.size + added.length := by
      simpa using congrArg length hadded
    omega
  exact ⟨_, hget.trans (getElem?_eq_getElem hlt), hstraight _ (getElem_mem hlt)⟩

theorem Calls.prolongs {f? : Option Function} (h : w.Calls f? w') :
    w.listing.Prolongs w'.listing := by
  cases f? with
  | none =>
    obtain rfl : w' = w := h
    exact ⟨[], by simp⟩
  | some f =>
    obtain ⟨-, body, hbody, rfl⟩ := h
    exact (w.prolongs_add _).trans (hbody.prolongs.trans (body.prolongs_add _))

theorem getElem?_add {l : Listing} (h : (w.add e).listing.Prolongs l) :
    l.entries[w.listing.entries.size]? = some e := by
  rw [h.getElem? (by simp)]
  simp [add]

end Workspace

namespace Assembly.Parts

variable {t : Target} {w : Workspace} (p : Parts { listing := { target := t } } w)

/-- The call of the secondary program, if there is one. -/
def callsSecondary : List Nat := p.secondary?.elim [] fun _ => [p.tinted.listing.entries.size]

/-- The function of the secondary program, if there is one. -/
def secondaryFunctions : List (List Nat) := p.secondary?.elim [] fun _ =>
  [Ico (p.filled.listing.entries.size + 2) (p.called.listing.entries.size - 1)]

theorem outline_called : p.called.listing.outline =
    ⟨Ico 0 p.declared.listing.entries.size ::
      Ico (p.declared.listing.entries.size + 1) p.filled.listing.entries.size ::
      p.secondaryFunctions, 0⟩ := by
  have hdeclared : p.declared.listing.outline =
      ⟨[Ico 0 p.declared.listing.entries.size], 0⟩ := p.declares.outline
  have hfilled : (p.filled.add .endFunction).listing.outline =
      ⟨[Ico 0 p.declared.listing.entries.size,
        Ico (p.declared.listing.entries.size + 1) p.filled.listing.entries.size], 0⟩ := by
    rw [outline_add, p.fills.outline, outline_add, hdeclared]
    simp [Outline.add]
  have hcalls := p.calls
  unfold secondaryFunctions
  cases hsecondary : p.secondary? with
  | none =>
    rw [hsecondary] at hcalls
    have hcalled : p.called = p.filled.add .endFunction := hcalls
    rw [hcalled, hfilled]
    rfl
  | some f =>
    rw [hsecondary] at hcalls
    obtain ⟨-, body, hbody, hcalled⟩ := hcalls
    rw [hcalled, outline_add, hbody.runs.outline, outline_add, hfilled]
    simp [Outline.add]

theorem outline_eq : w.listing.outline =
    ⟨(Ico 0 p.declared.listing.entries.size ++ [p.called.listing.entries.size + 1] ++
        Ico (p.called.listing.entries.size + 2) p.tinted.listing.entries.size ++
        p.callsSecondary ++
        Ico (p.tinted.listing.entries.size + p.callsSecondary.length) w.listing.entries.size) ::
      Ico (p.declared.listing.entries.size + 1) p.filled.listing.entries.size ::
      p.secondaryFunctions, 0⟩ := by
  have htinted : p.tinted.listing.outline =
      ⟨(Ico 0 p.declared.listing.entries.size ++ [p.called.listing.entries.size + 1] ++
        Ico (p.called.listing.entries.size + 2) p.tinted.listing.entries.size) ::
        Ico (p.declared.listing.entries.size + 1) p.filled.listing.entries.size ::
        p.secondaryFunctions, 0⟩ := by
    rw [p.tints.runs.outline, outline_add, outline_add, p.outline_called]
    simp [Outline.add]
  have hends := p.ends.outline
  unfold callsSecondary
  cases hsecondary : p.secondary? with
  | none =>
    rw [hsecondary] at hends
    rw [hends]
    simp only [Option.elim_none, htinted]
    simp
  | some f =>
    rw [hsecondary] at hends
    rw [hends]
    simp only [Option.elim_some, outline_add, htinted]
    simp [Outline.add]

theorem prolongs_tinted : p.tinted.listing.Prolongs w.listing := by
  have hends := p.ends.prolongs
  cases hsecondary : p.secondary? with
  | none =>
    rw [hsecondary] at hends
    exact hends
  | some f =>
    rw [hsecondary] at hends
    exact (p.tinted.prolongs_add _).trans hends

theorem prolongs_entry :
    ((p.called.add .beginEntry).add (.call ⟨p.declared.listing.functions.size⟩)).listing.Prolongs
      w.listing :=
  p.tints.runs.prolongs.trans p.prolongs_tinted

theorem prolongs_called : p.called.listing.Prolongs w.listing :=
  (p.called.prolongs_add _).trans
    (((p.called.add .beginEntry).prolongs_add _).trans p.prolongs_entry)

theorem prolongs_filled : (p.filled.add .endFunction).listing.Prolongs w.listing :=
  p.calls.prolongs.trans p.prolongs_called

theorem prolongs_declared : (p.declared.add (.beginFunction "init")).listing.Prolongs w.listing :=
  p.fills.prolongs.trans ((p.filled.prolongs_add _).trans p.prolongs_filled)

theorem executed_init (depth : Nat) : w.listing.executed (depth + 1) 1 =
    Ico (p.declared.listing.entries.size + 1) p.filled.listing.entries.size := by
  rw [executed, p.outline_eq]
  apply flatMap_inlined
  intro n hn
  apply p.fills.straight ((p.filled.prolongs_add _).trans p.prolongs_filled)
  simpa using hn

theorem executed_secondary (depth : Nat) :
    p.callsSecondary.flatMap (w.listing.inlined (w.listing.executed (depth + 1))) =
      p.secondaryFunctions.flatten := by
  have hcalls := p.calls
  have hends := p.ends.prolongs
  have houtline := congrArg Outline.functions p.outline_eq
  unfold callsSecondary secondaryFunctions at houtline ⊢
  cases hsecondary : p.secondary? with
  | none => rfl
  | some f =>
    rw [hsecondary] at hcalls hends houtline
    obtain ⟨hf, body, hbody, hcalled⟩ := hcalls
    have hindex : f.index = 1 := by
      rw [hf]
      show p.filled.listing.functions.size = 1
      rw [p.fills.functions]
      show (p.declared.listing.functions.push "init").size = 1
      rw [p.declares.functions]
      rfl
    have hstraight : ∀ n ∈ Ico (p.filled.listing.entries.size + 2)
        (p.called.listing.entries.size - 1),
        ∃ e, w.listing.entries[n]? = some e ∧ e.isStraight = true := by
      intro n hn
      apply hbody.runs.straight ((body.prolongs_add _).trans (hcalled ▸ p.prolongs_called))
      simp only [hcalled, size_add, Nat.add_sub_cancel] at hn ⊢
      exact hn
    simp only [Option.elim_some, flatMap_cons, flatMap_nil, append_nil,
      flatten_cons, flatten_nil]
    rw [inlined, getElem?_add hends]
    show w.listing.executed (depth + 1) (f.index + 1) = _
    rw [hindex, executed, houtline]
    exact flatMap_inlined _ _ hstraight

theorem executionOrder_eq : w.listing.executionOrder =
    Ico 0 p.declared.listing.entries.size ++
      Ico (p.declared.listing.entries.size + 1) p.filled.listing.entries.size ++
      Ico (p.called.listing.entries.size + 2) p.tinted.listing.entries.size ++
      p.secondaryFunctions.flatten ++
      Ico (p.tinted.listing.entries.size + p.callsSecondary.length)
        w.listing.entries.size := by
  have hcall : w.listing.inlined (w.listing.executed (p.secondaryFunctions.length + 1))
      (p.called.listing.entries.size + 1) =
        Ico (p.declared.listing.entries.size + 1) p.filled.listing.entries.size := by
    have hentry := getElem?_add p.prolongs_entry
    rw [size_add, p.declares.functions] at hentry
    rw [inlined, hentry]
    exact p.executed_init _
  have hprimary : (p.secondary?.elim p.tinted fun f => p.tinted.add (.call f)).listing.entries.size =
      p.tinted.listing.entries.size + p.callsSecondary.length := by
    unfold callsSecondary
    cases p.secondary? <;> simp
  rw [executionOrder, p.outline_eq]
  show w.listing.executed (p.secondaryFunctions.length + 2) 0 = _
  rw [executed, p.outline_eq]
  show flatMap _ (_ ++ [_] ++ _ ++ _ ++ _) = _
  rw [flatMap_append, flatMap_append, flatMap_append, flatMap_append,
    p.executed_secondary, flatMap_singleton, hcall, flatMap_inlined,
    flatMap_inlined, flatMap_inlined]
  · intro n hn
    apply p.ends.straight ⟨[], by simp⟩
    rw [hprimary]
    exact hn
  · intro n hn
    apply p.tints.runs.straight p.prolongs_tinted
    rw [size_add, size_add]
    exact hn
  · intro n hn
    exact p.declares.straight ((p.declared.prolongs_add _).trans p.prolongs_declared) hn

/-- A position of the secondary program. -/
def IsSecondary (n : Nat) : Prop :=
  p.filled.listing.entries.size + 2 ≤ n ∧ n + 1 < p.called.listing.entries.size

/-- A position of the code that loads the colour. -/
def IsColor (n : Nat) : Prop :=
  p.called.listing.entries.size + 2 ≤ n ∧ n < p.tinted.listing.entries.size

theorem mem_secondaryFunctions {n : Nat} :
    n ∈ p.secondaryFunctions.flatten ↔ p.IsSecondary n := by
  have hcalls := p.calls
  unfold secondaryFunctions IsSecondary
  cases hsecondary : p.secondary? with
  | none =>
    rw [hsecondary] at hcalls
    have hcalled : p.called = p.filled.add .endFunction := hcalls
    simp only [Option.elim_none, flatten_nil, not_mem_nil, false_iff, hcalled,
      size_add]
    omega
  | some f =>
    simp only [Option.elim_some, flatten_cons, flatten_nil, append_nil, Ico.mem]
    omega

theorem sizes : p.declared.listing.entries.size + 1 ≤ p.filled.listing.entries.size ∧
    p.filled.listing.entries.size + 1 ≤ p.called.listing.entries.size ∧
    p.called.listing.entries.size + 2 ≤ p.tinted.listing.entries.size := by
  have hfills := p.fills.prolongs.size
  have hcalls := p.calls.prolongs.size
  have htints := p.tints.runs.prolongs.size
  simp only [size_add] at hfills hcalls htints
  exact ⟨hfills, hcalls, htints⟩

/-- Only the code that loads the colour is executed before an earlier position, one of the secondary
program. -/
theorem pairwise_executionOrder :
    w.listing.executionOrder.Pairwise fun i j => i < j ∨ p.IsColor i ∧ p.IsSecondary j := by
  have hsizes := p.sizes
  have hrange (m n : Nat) :
      (Ico m n).Pairwise fun i j => i < j ∨ p.IsColor i ∧ p.IsSecondary j :=
    (Ico.pairwise_lt m n).imp .inl
  have hsecondary : p.secondaryFunctions.flatten.Pairwise fun i j =>
      i < j ∨ p.IsColor i ∧ p.IsSecondary j := by
    unfold secondaryFunctions
    cases p.secondary? with
    | none => exact .nil
    | some f => simpa using hrange _ _
  rw [p.executionOrder_eq]
  simp only [pairwise_append, mem_append, Ico.mem, mem_secondaryFunctions]
  unfold IsColor IsSecondary at *
  refine ⟨⟨⟨⟨hrange _ _, hrange _ _, ?_⟩, hrange _ _, ?_⟩, hsecondary, ?_⟩, hrange _ _, ?_⟩ <;>
    omega

theorem mem_executionOrder (p : Parts { listing := { target := t } } w) {n : Nat}
    (he : w.listing.entries[n]? = some e) (hstraight : e.isStraight = true) :
    n ∈ w.listing.executionOrder := by
  have border {v : Workspace} {e' : Entry} (hv : (v.add e').listing.Prolongs w.listing)
      (he' : e'.isStraight = false) : n ≠ v.listing.entries.size := by
    rintro rfl
    have heq : e' = e := Option.some.inj ((getElem?_add hv).symm.trans he)
    rw [heq, hstraight] at he'
    cases he'
  have hlt : n < w.listing.entries.size := (Array.getElem?_eq_some_iff.1 he).1
  have hinit := border p.prolongs_declared rfl
  have hend := border p.prolongs_filled rfl
  have hentry := border (((p.called.add .beginEntry).prolongs_add _).trans p.prolongs_entry) rfl
  have hcall := border p.prolongs_entry rfl
  have hsizes := p.sizes
  have hcalls := p.calls
  have hends := p.ends.prolongs
  rw [size_add] at hcall
  rw [p.executionOrder_eq]
  simp only [mem_append, Ico.mem, mem_secondaryFunctions, IsSecondary, callsSecondary]
  cases hsecondary : p.secondary? with
  | none =>
    rw [hsecondary] at hcalls
    have hcalled : p.called = p.filled.add .endFunction := hcalls
    simp only [hcalled, size_add, Option.elim_none, length_nil] at *
    omega
  | some f =>
    rw [hsecondary] at hcalls hends
    obtain ⟨-, body, hbody, hcalled⟩ := hcalls
    have hbodyEnd : (body.add .endFunction).listing.Prolongs w.listing := hcalled ▸ p.prolongs_called
    have hbegin := border (hbody.prolongs.trans ((body.prolongs_add _).trans hbodyEnd)) rfl
    have hreturn := border hbodyEnd rfl
    have hjump := border hends rfl
    simp only [hcalled, size_add, Option.elim_some, length_cons,
      length_nil] at *
    omega

end Assembly.Parts
/-! ## Seeding -/

theorem RegisterFile.Orderly.not_uses {r : RegisterFile} (h : r.Orderly)
    {s : (Bank × Nat) × Register} (hs : s ∈ r.shadows) {B S : Bank → Prop} (hbank : ¬ S s.1.1) :
    ¬ r.Uses B S s.2.place.variableIndex := by
  intro huses
  have hdistinct := nodup_append.1 h.distinct
  have hvariable := mem_map_of_mem (f := fun s => s.2.place.variableIndex) hs
  cases huses with
  | bound _ mem here => exact h.apart _ _ mem (here ▸ mem_append_left _ hvariable)
  | @shadow s' allowed mem here =>
    have heq : s' = s := inj_on_of_nodup_map hdistinct.1 mem hs here
    exact hbank (heq ▸ allowed)
  | predicate get here =>
    exact hdistinct.2.2 _ hvariable _ (RegisterFile.mem_predicateVariables.2 ⟨_, _, get, here⟩) rfl

namespace Workspace

variable {w w' : Workspace} {l : Listing} {s : (Bank × Nat) × Register}

theorem Calls.bank_of_seeds {f? : Option Function} (h : w.Calls f? w') (hw : w.Kept)
    (hs : s ∈ w'.registers.shadows) (hl : w'.listing.Prolongs l) {n : Nat}
    (hseeds : l.Seeds s.2.place (n + 1)) (hn : w.listing.entries.size ≤ n)
    (hn' : n < w'.listing.entries.size) : s.1.1 = .secondaryAttribute := by
  have hprolongs := h.prolongs
  have hbank := (((h.kept hw).orderly).groups s hs).1
  cases f? with
  | none =>
    obtain rfl : w' = w := h
    omega
  | some f =>
    obtain ⟨-, body, hbody, rfl⟩ := h
    obtain ⟨new, hnew, hadded⟩ := hbody.registers.shadows
    have hs : s ∈ new ++ w.registers.shadows := hnew ▸ hs
    rcases mem_append.1 hs with hs | hs
    · rcases (hadded s hs).1 with hsecondary | hinternal
      · exact hsecondary
      · rw [hinternal] at hbank
        cases hbank
    · -- A shadow that was there before has been seeded before.
      obtain ⟨k, -, hearlier⟩ := hw.history.exists_seeded (hw.current ▸ hs)
      have heq := (hearlier.mono (hprolongs.trans hl)).unique hseeds rfl
      have := hearlier.lt
      omega

theorem Tints.not_touches (h : w.Tints w') (hw : w.Kept) (hs : s ∈ w.registers.shadows)
    (hbank : s.1.1 = .secondaryAttribute) {i : Nat} (hi : w.listing.entries.size ≤ i)
    (he : w'.listing.entries[i]? = some e) : e.touches s.2.place.variableIndex = false := by
  have hkept := h.runs.kept hw
  obtain ⟨new, hnew, -⟩ := h.runs.shadows
  have hs' : s ∈ w'.registers.shadows := hnew ▸ mem_append_right new hs
  cases htouches : e.touches s.2.place.variableIndex with
  | false => rfl
  | true =>
    exfalso
    rcases h with rfl | ⟨place, location, hplace, hinput, hconfined⟩
    · have := (Array.getElem?_eq_some_iff.1 he).1
      omega
    rcases Nat.eq_or_lt_of_le hi with rfl | hi
    · -- The colour itself is in an input, a shadow never is.
      obtain rfl := Option.some.inj ((getElem?_add hconfined.prolongs).symm.trans he)
      have hx : place.variableIndex = s.2.place.variableIndex := by
        simpa [Entry.touches] using htouches
      have hhidden := hw.hidden place (.shadow trivial hs hx.symm)
      rw [hinput] at hhidden
      cases hhidden
    · obtain ⟨added, hadded, hentries⟩ := hconfined.entries
      have hmem : e ∈ added := by
        have hlen : (w.add (.define (w.listing.opShape (.load place)) (.load place))
            ).listing.entries.toList.length ≤ i := by
          rw [Array.length_toList, size_add]
          exact hi
        rw [← Array.getElem?_toList, hadded, getElem?_append_right hlen] at he
        exact mem_of_getElem? he
      apply hkept.orderly.not_uses hs' _ ((hentries e hmem).uses htouches)
      rw [hbank]
      exact fun hseeded => hseeded.elim Bank.noConfusion Bank.noConfusion

theorem Runs.mem_shadows (h : w.Runs w') (hw : w.Kept) (hs : s ∈ w'.registers.shadows)
    (hl : w.listing.Prolongs l) {n : Nat} (hseeds : l.Seeds s.2.place (n + 1))
    (hn : n < w.listing.entries.size) : s ∈ w.registers.shadows := by
  obtain ⟨new, hnew, hvariables⟩ := h.shadows
  rw [hnew] at hs
  rcases mem_append.1 hs with hs | hs
  · obtain ⟨k, v, hk, hstore, -⟩ := hseeds
    obtain rfl : n = k := by omega
    rw [hl.getElem? hn] at hstore
    have hlt := hw.touched _ (Array.mem_of_getElem? hstore) s.2.place.variableIndex
      (by simp [Entry.touches])
    have := hvariables s hs
    omega
  · exact hs

end Workspace

namespace Assembly.Parts

variable {t : Target} {w : Workspace} (p : Parts { listing := { target := t } } w)

/-- Code that loads the colour touches no shadow that the secondary program seeds. -/
theorem not_touches_of_color {s : (Bank × Nat) × Register} (hs : s ∈ w.registers.shadows) {n : Nat}
    (hseeds : w.listing.Seeds s.2.place (n + 1)) (hn : p.IsSecondary n) {i : Nat} (hi : p.IsColor i)
    (he : w.listing.entries[i]? = some e) : e.touches s.2.place.variableIndex = false := by
  have hfilled : (p.filled.add .endFunction).Kept :=
    (p.fills.kept ((p.declares.kept (kept_empty t)).border rfl)).border rfl
  have hcalled : p.called.Kept := p.calls.kept hfilled
  have hentry : ((p.called.add .beginEntry).add (.call ⟨p.declared.listing.functions.size⟩)).Kept :=
    (hcalled.border rfl).border rfl
  have hsizes := p.sizes
  have hlt : n < p.called.listing.entries.size := Nat.lt_of_succ_lt hn.2
  have hmem : s ∈ p.tinted.registers.shadows := by
    have hends := p.ends
    have htinted : p.tinted.Kept := p.tints.runs.kept hentry
    cases hsecondary : p.secondary? with
    | none =>
      rw [hsecondary] at hends
      apply hends.mem_shadows htinted hs hends.prolongs hseeds
      show n < p.tinted.listing.entries.size
      omega
    | some f =>
      rw [hsecondary] at hends
      apply hends.mem_shadows (htinted.border rfl) hs hends.prolongs hseeds
      show n < (p.tinted.add (.call f)).listing.entries.size
      rw [size_add]
      omega
  have hmem : s ∈ p.called.registers.shadows := by
    apply p.tints.runs.mem_shadows hentry hmem p.prolongs_entry hseeds
    rw [size_add, size_add]
    omega
  have hbank : s.1.1 = .secondaryAttribute := by
    apply p.calls.bank_of_seeds hfilled hmem p.prolongs_called hseeds _ hlt
    rw [size_add]
    exact Nat.le_of_succ_le hn.1
  apply p.tints.not_touches hentry hmem hbank (i := i)
  · rw [size_add, size_add]
    exact hi.1
  · rw [← p.prolongs_tinted.getElem? hi.2]
    exact he

end Assembly.Parts

/-- In the order of execution the first entry that touches a shadow is the store that seeds it, and
no other entry seeds it again. -/
theorem shadows_seeded_first {ctx : Context} {t : Target} {w : Workspace}
    (h : Assembly.emitShader ctx { listing := { target := t } } = .ok () w) :
    (∀ s : State, s.run (ofListing w.listing) =
      w.listing.executionOrder.foldl w.listing.perform s) ∧
    ∀ shadow ∈ w.registers.shadows, ∃ before n after,
      w.listing.executionOrder = before ++ n :: after ∧
      Moment.Seeded w.history shadow.2.place.variableIndex n ∧
      (∃ v, w.listing.entries[n]? = some (.store shadow.2.place v)) ∧
      (∀ i ∈ before, ∀ e, w.listing.entries[i]? = some e →
        e.touches shadow.2.place.variableIndex = false) ∧
      ∀ i ∈ before ++ after, ¬ Moment.Seeded w.history shadow.2.place.variableIndex i := by
  refine ⟨w.listing.run_eq_executionOrder, fun shadow hshadow => ?_⟩
  obtain ⟨p⟩ := Assembly.emitShader_parts h
  have hw : w.Kept := p.kept (kept_empty t)
  obtain ⟨n, hseeded, hseeds⟩ := hw.history.exists_seeded (hw.current ▸ hshadow)
  obtain ⟨k, v, hk, hstore, hearlier⟩ := id hseeds
  obtain rfl : n = k := by omega
  obtain ⟨before, after, hsplit⟩ := append_of_mem (p.mem_executionOrder hstore rfl)
  have hpairwise := p.pairwise_executionOrder
  rw [hsplit, pairwise_append, pairwise_cons] at hpairwise
  obtain ⟨-, ⟨hafter, -⟩, hbefore⟩ := hpairwise
  refine ⟨before, n, after, hsplit, hseeded, ⟨v, hstore⟩, fun i hi e he => ?_, fun i hi hagain => ?_⟩
  · rcases hbefore i hi n mem_cons_self with hlt | ⟨hcolor, hsecondary⟩
    · exact hearlier i hlt e he
    · exact p.not_touches_of_color hshadow hseeds hsecondary hcolor he
  · -- Seeding is the first touch in the listing, so there is one such position.
    obtain rfl := hw.history.seeded_unique hagain hseeded
    have hsizes := p.sizes
    have hirrefl : ¬ (i < i ∨ p.IsColor i ∧ p.IsSecondary i) := by
      unfold Assembly.Parts.IsColor Assembly.Parts.IsSecondary
      omega
    rcases mem_append.1 hi with hi | hi
    · exact hirrefl (hbefore i hi i mem_cons_self)
    · exact hirrefl (hafter i hi)

/-- The colour is loaded at 33 to 38, before the secondary program at 21 to 29. -/
theorem overdrawnFragment_shadows_seeded_first :
    ∃ w, Assembly.emitShader overdrawnFragment { listing := { target := .machine } } = .ok () w ∧
      w.registers.shadows.length = 3 ∧
      w.listing.executionOrder = range 7 ++ range' 8 11 ++ range' 33 6 ++
        range' 21 9 ++ range' 40 3 ∧
      (∀ s : State, s.run (ofListing w.listing) =
        w.listing.executionOrder.foldl w.listing.perform s) ∧
      ∀ shadow ∈ w.registers.shadows, ∃ before n after,
        w.listing.executionOrder = before ++ n :: after ∧
        Moment.Seeded w.history shadow.2.place.variableIndex n ∧
        (∃ v, w.listing.entries[n]? = some (.store shadow.2.place v)) ∧
        (∀ i ∈ before, ∀ e, w.listing.entries[i]? = some e →
          e.touches shadow.2.place.variableIndex = false) ∧
        ∀ i ∈ before ++ after, ¬ Moment.Seeded w.history shadow.2.place.variableIndex i := by
  obtain ⟨_, w, hrun, htest⟩ := Emit.exists_of_passes (Assembly.emitShader overdrawnFragment)
    { listing := { target := .machine } } (fun _ w => decide (w.registers.shadows.length = 3 ∧
      w.listing.executionOrder = range 7 ++ range' 8 11 ++ range' 33 6 ++
        range' 21 9 ++ range' 40 3)) (by decide +kernel)
  obtain ⟨hshadows, horder⟩ := of_decide_eq_true htest
  exact ⟨w, hrun, hshadows, horder, shadows_seeded_first hrun⟩

end Microcode
