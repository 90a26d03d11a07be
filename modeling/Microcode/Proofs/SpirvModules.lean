import Microcode.Proofs.SpirvCode

/-!
SPIR-V modules of whole listings.

`Draft.Tracks` ties a draft to the listing whose entries have been written into it, and each entry
keeps it.  When the last entry is written, the parts of the draft are put together; the module is
then well formed, and its words can be read back.
-/

namespace Microcode

open List Spirv.Draft

variable (stage : Stage) {e : Entry}

/-- The names of variables and functions are short. -/
structure Listing.Short (l : Listing) : Prop where
  vars : ∀ v ∈ l.vars, v.name.length ≤ 30
  functions : ∀ name ∈ l.functions, name.length ≤ 30

theorem Listing.Short.of_add {l : Listing} (h : (l.add e).Short) : l.Short := by
  cases e with
  | declare v => exact ⟨fun x hx => h.vars x (Array.mem_push_of_mem v hx), h.functions⟩
  | beginFunction name =>
    exact ⟨h.vars, fun x hx => h.functions x (Array.mem_push_of_mem name hx)⟩
  | _ => exact ⟨h.vars, h.functions⟩

/-- The variables of the interface. -/
def Listing.interface (l : Listing) : List Variable := l.vars.toList.filter Variable.isInterface

namespace Spirv

variable {d d' : Draft} {l : Listing} {id : Id}

/-! ## Functions -/

/-- How a function without parameters begins. -/
def functionHead (void type id label : Id) : List Instr :=
  [{ opcode := .function, type? := some void, result? := some id,
     arguments := [.word 0, .id type] },
   { opcode := .label, result? := some label }]

/-- How it ends. -/
def functionTail : List Instr := [{ opcode := .return }, { opcode := .functionEnd }]

section

variable {outer : Id → Prop} {void type label : Id} {i : Instr} {is : List Instr}

theorem fits_functionHead (hi : i ∈ functionHead void type id label) :
    i.Fits ∧ i.opcode.isDeclaration = false := by
  simp only [functionHead, mem_cons, not_mem_nil, or_false] at hi
  rcases hi with rfl | rfl
  · exact ⟨⟨⟨rfl, rfl, .number _ (.id _ (follows_plain []))⟩, Nat.le_of_ble_eq_true rfl⟩, rfl⟩
  · exact ⟨⟨⟨rfl, rfl, follows_plain []⟩, Nat.zero_le _⟩, rfl⟩

theorem fits_functionTail (hi : i ∈ functionTail) : i.Fits ∧ i.opcode.isDeclaration = false := by
  simp only [functionTail, mem_cons, not_mem_nil, or_false] at hi
  rcases hi with rfl | rfl
  · exact ⟨⟨⟨rfl, rfl, follows_plain []⟩, Nat.zero_le _⟩, rfl⟩
  · exact ⟨⟨⟨rfl, rfl, follows_plain []⟩, Nat.zero_le _⟩, rfl⟩

theorem Fragment.function (h : Fragment outer is) (hvoid : outer void) (htype : outer type) :
    Fragment outer (functionHead void type id label ++ is) := by
  have hhead : ∀ u ∈ (functionHead void type id label).flatMap Instr.uses, outer u := by
    intro u hu
    have hu : u = void ∨ u = type := by simpa [functionHead, Instr.uses] using hu
    rcases hu with rfl | rfl
    · exact hvoid
    · exact htype
  constructor
  · refine ordered_append.2 ⟨⟨fun u hu => .inl (hhead u ?_), fun u hu => .inl (hhead u ?_), trivial⟩,
      h.ordered.mono (fun _ h => h) fun u hu => by cases hu⟩
    · exact mem_flatMap.2 ⟨_, mem_cons_self, hu⟩
    · exact mem_flatMap.2 ⟨_, mem_cons_of_mem _ mem_cons_self, hu⟩
  · intro i hi
    rcases mem_append.1 hi with hi | hi
    · simp only [functionHead, mem_cons, not_mem_nil, or_false] at hi
      rcases hi with rfl | rfl
      · exact Opcode.noConfusion
      · exact Opcode.noConfusion
    · exact h.inside i hi

end

/-- The types of a function that takes and gives nothing: of its result, and of itself. -/
def plainFunction : Draw (Id × Id) := do
  let void ← voidType
  let type ← functionType void []
  return (void, type)

theorem draws_plainFunction :
    Draws plainFunction d fun types d' => d'.Outer types.1 ∧ d'.Outer types.2 := by
  refine draws_voidType.bind fun void d1 _ hvoid => ?_
  refine (draws_functionType (Nat.zero_le _) fun u hu => ?_).bind fun type d2 h2 htype => ?_
  · rw [mem_singleton.1 hu]
    exact hvoid.2
  · exact .pure ⟨h2.outer _ (outer_of_declared hvoid.2), outer_of_declared htype.2⟩

/-- The draft with an open function that has nothing in it yet. -/
def Draft.opening (d : Draft) (void type : Id) : Draft :=
  { d with
    bound := d.bound + 2
    opened := some (functionHead void type d.bound (d.bound + 1)).toArray
    functionIds := d.functionIds.push d.bound }

section Opening

variable {void type : Id}

theorem adds_opening (hclosed : d.opened = none) :
    Adds [] (functionHead void type d.bound (d.bound + 1)) d (d.opening void type) := by
  refine ⟨Nat.le_add_right .., rfl, (append_nil _).symm, ?_⟩
  have hcode : d.code = d.functions.toList ++ d.entry.toList := by simp [code, hclosed]
  rw [hcode]
  exact perm_append_comm_assoc ..

theorem outer_opened (hclosed : d.opened = none) : (d.opening void type).Outer d.bound :=
  .inr (.inr (.inr (mem_functionResults.2 ⟨_, (adds_opening hclosed).code.mem_iff.2
    (mem_append_left _ mem_cons_self), rfl, rfl⟩)))

theorem Draft.Sound.opening (h : d.Sound) (hclosed : d.opened = none) (hvoid : d.Outer void)
    (htype : d.Outer type) : (d.opening void type).Sound := by
  have a : Adds [] _ d (d.opening void type) := adds_opening hclosed
  have hresults : results (functionHead void type d.bound (d.bound + 1)) = [d.bound, d.bound + 1] :=
    rfl
  apply a.sound_code h
  case single => simp [hresults]
  case fresh =>
    intro id hid
    have hid : d.bound ≤ id ∧ id < d.bound + 2 := by
      rcases (by simpa [hresults] using hid : id = d.bound ∨ id = d.bound + 1) with rfl | rfl
      · exact ⟨Nat.le_refl _, Nat.lt_add_of_pos_right Nat.two_pos⟩
      · exact ⟨Nat.le_succ _, Nat.lt_succ_self _⟩
    exact ⟨Nat.le_trans h.three hid.1, hid.2, fun hold =>
      absurd (h.ranged id hold).2 (Nat.not_lt.2 hid.1)⟩
  case fits => exact fun i hi => fits_functionHead hi
  case tables => exact h.tables
  case routines => exact h.routines.mono fun _ => a.outer
  case opened =>
    intro code hcode
    obtain rfl : (functionHead void type d.bound (d.bound + 1)).toArray = code :=
      Option.some.inj hcode
    have hempty : Fragment (d.opening void type).Outer [] :=
      ⟨trivial, fun i hi => nomatch hi⟩
    exact ⟨hempty.function (a.outer hvoid) (a.outer htype), _, _, rfl, rfl⟩
  case entry => exact h.entry.mono fun _ => a.outer
  case handles =>
    intro id hid
    rw [Draft.handles, show (d.opening void type).functionIds = d.functionIds.push d.bound from rfl,
      Array.toList_push, ← append_assoc, mem_append, mem_singleton] at hid
    rcases hid with hid | rfl
    · exact a.outer (h.handles id hid)
    · exact outer_opened hclosed

end Opening

/-- The draft without an open function. -/
def Draft.closed (d : Draft) : Draft := (closeFunction.run d).2

theorem closed_none (h : d.opened = none) : d.closed = d := by
  cases d
  subst h
  rfl

theorem closed_some {code : Array Instr} (h : d.opened = some code) : d.closed =
    { d with opened := none, functions := d.functions ++ code ++ functionTail.toArray } := by
  cases d
  subst h
  rfl

theorem adds_closed {code : Array Instr} (h : d.opened = some code) :
    Adds [] functionTail d d.closed := by
  have hcode : d.code = (d.functions.toList ++ code.toList) ++ d.entry.toList := by
    simp [Draft.code, h]
  have hclosed : Draft.code
      { d with opened := none, functions := d.functions ++ code ++ functionTail.toArray } =
      (d.functions.toList ++ code.toList) ++ (functionTail ++ d.entry.toList) := by
    simp [Draft.code]
  rw [closed_some h]
  refine ⟨Nat.le_refl _, rfl, (append_nil _).symm, ?_⟩
  rw [hcode, hclosed]
  exact perm_append_comm_assoc ..

theorem Draft.Sound.closed (h : d.Sound) : d.closed.Sound := by
  cases hopened : d.opened with
  | none =>
    rw [closed_none hopened]
    exact h
  | some code =>
    have a := adds_closed hopened
    obtain ⟨hfragment, hhead⟩ := h.opened code hopened
    have hroutine : Routines d.closed.Outer (code.toList ++ functionTail) :=
      (hfragment.mono fun _ => a.outer).routine hhead (fun u hu => nomatch hu)
        (by simp)
    have hentry := h.entry.mono fun _ => a.outer
    have hhandles := fun id hid => a.outer (h.handles id hid)
    have hroutines := (h.routines.mono fun _ => a.outer).append hroutine
    rw [closed_some hopened] at a hroutines hentry hhandles ⊢
    refine a.sound_code h nodup_nil (fun id hid => nomatch hid)
      (fun i hi => fits_functionTail hi) h.tables ?_ (fun _ hcode => nomatch hcode) hentry
      hhandles
    simpa using hroutines

/-! ## Entries -/

theorem Draft.Matches.function (h : d.Matches l) (hd : d.Sound) {f : Function}
    (hf : f.index < l.functions.size) : d.Outer (d.functionIds.getD f.index 0) := by
  have hsize : f.index < d.functionIds.size := by
    rw [h.functions]
    exact hf
  have hget : d.functionIds.getD f.index 0 = d.functionIds[f.index] := by
    simp [Array.getD, hsize]
  rw [hget]
  exact hd.handles _ (mem_handles.2 (.inr (.inr (.inr (.inr (Array.getElem_mem_toList hsize))))))

/-- The draft is in order and has all that the listing asks for. -/
structure Draft.Tracks (d : Draft) (l : Listing) : Prop extends Matches d l where
  sound : d.Sound
  opened : d.opened.isSome = decide (l.scope.phase = .function)
  interface : d.interface.size = l.interface.length

/-- The draft after one more entry. -/
def Draft.wrote (d : Draft) (e : Entry) : Draft := ((write e).run d).2

namespace Draft.Tracks

theorem mono (h : d.Tracks l) (hsound : d'.Sound) (hgrows : d.Grows d') : d'.Tracks l where
  toMatches := h.toMatches.mono hgrows
  sound := hsound
  opened := hgrows.opened.trans h.opened
  interface := (congrArg Array.size hgrows.interface).trans h.interface

theorem draws {α : Type} {x : Draw α} {Q : α → Draft → Prop} (h : d.Tracks l) (hx : Draws x d Q) :
    (x.run d).2.Tracks l ∧ Q (x.run d).1 (x.run d).2 := by
  obtain ⟨hsound, hgrows, hQ⟩ := hx h.sound
  exact ⟨h.mono hsound hgrows, hQ⟩

theorem push (h : d.Tracks l) (hadd : l.add e = l.push e) (hscope : l.scope.add e = l.scope) :
    d.Tracks (l.add e) := by
  have hscope' : (l.push e).scope = l.scope := by rw [← hadd, l.scope_add, hscope]
  rw [hadd]
  constructor
  case toMatches =>
    refine ⟨h.size, fun {v shape} hv => h.terms ⟨?_, hv.defined, hv.shape⟩, h.vars, h.functions⟩
    rw [← hscope']
    exact hv.inScope
  case sound => exact h.sound
  case opened =>
    rw [hscope']
    exact h.opened
  case interface => exact h.interface

theorem define (h : d.Tracks l) {t : Term} (shape : Shape) (op : Op) (ht : d.Holds t) :
    Tracks { d with terms := d.terms.push t } (l.add (.define shape op)) := by
  have hscope := l.scope_add (.define shape op)
  constructor
  case toMatches =>
    constructor
    case size =>
      show (d.terms.push t).size = (l.shapes.push shape).size
      rw [Array.size_push, Array.size_push, h.size]
    case terms =>
      intro v shape' hv
      have hstart : l.scope.start ≤ v.index := by
        have hstart := hv.inScope
        rw [hscope] at hstart
        exact hstart
      have hbelow : v.index < (l.shapes.push shape).size := hv.defined
      have hholds : d.Holds ((d.terms.push t).getD v.index default) := by
        rw [Array.size_push] at hbelow
        rcases Nat.lt_or_eq_of_le (Nat.le_of_lt_succ hbelow) with hold | hnew
        · rw [getD_push_of_lt _ _ _ (h.size ▸ hold)]
          exact h.terms ⟨hstart, hold, rfl⟩
        · have hlast : (d.terms.push t).getD v.index default = t := by
            simp [Array.getD, hnew, ← h.size]
          rw [hlast]
          exact ht
      exact ⟨hholds.proper, hholds.visible⟩
    case vars => exact h.vars
    case functions => exact h.functions
  case sound => exact h.sound.keep rfl fun id hid => .inl hid
  case opened =>
    rw [hscope]
    exact h.opened
  case interface => exact h.interface

theorem declare (h : d.Tracks l) {v : Variable} (hv : v.Fits) (hshort : v.name.length ≤ 30) :
    (d.wrote (.declare v)).Tracks (l.add (.declare v)) := by
  have hnamed := (h.draws (draws_namedVariable hv hshort)).1
  have hsound := sound_declareVariable h.sound hv hshort
  have hscope := l.scope_add (.declare v)
  rw [declareVariable_eq] at hsound
  show ((declareVariable v).run d).2.Tracks _
  rw [declareVariable_eq]
  generalize (namedVariable v).run d = r at hnamed hsound
  obtain ⟨id, d1⟩ := r
  constructor
  case toMatches =>
    constructor
    case size => exact hnamed.size
    case terms =>
      intro u shape hu
      have hstart := hu.inScope
      rw [hscope] at hstart
      have hholds := hnamed.terms ⟨hstart, hu.defined, hu.shape⟩
      exact ⟨hholds.proper, hholds.visible⟩
    case vars =>
      show (d1.vars.push (id, v)).map Prod.snd = l.vars.push v
      rw [Array.map_push, hnamed.vars]
    case functions => exact hnamed.functions
  case sound => exact hsound
  case opened =>
    rw [hscope]
    exact hnamed.opened
  case interface =>
    have hadded : (l.add (.declare v)).interface =
        l.interface ++ if v.isInterface then [v] else [] := by
      show (l.vars.push v).toList.filter _ = _
      rw [Array.toList_push, filter_append]
      cases hi : v.isInterface <;> simp [Listing.interface, hi]
    have hold : d1.interface.size = l.interface.length := hnamed.interface
    rw [hadded, length_append]
    dsimp only
    cases v.isInterface with
    | false => exact hold
    | true =>
      rw [if_pos rfl, if_pos rfl, Array.size_push, hold]
      rfl

theorem not_has {v : Value} {shape : Shape} (h : l.scope.start = l.shapes.size) :
    ¬ l.Has v shape := fun hv =>
  absurd (Nat.lt_of_lt_of_le hv.defined (Nat.le_of_eq h.symm)) (Nat.not_lt.2 hv.inScope)

theorem opened_eq_none (h : d.Tracks l) (hphase : l.scope.phase = .outside) : d.opened = none := by
  have hopened := h.opened
  rw [hphase] at hopened
  exact Option.isNone_iff_eq_none.1 (Option.isSome_eq_false_iff.1 hopened)

theorem opening (h : d.Tracks l) {void type : Id} (hl : l.WellTyped)
    (hphase : l.scope.phase = .outside) (hvoid : d.Outer void) (htype : d.Outer type)
    (name : String) : (d.opening void type).Tracks (l.add (.beginFunction name)) := by
  have hscope := l.scope_add (.beginFunction name)
  have hstart : (l.add (.beginFunction name)).scope.start = l.shapes.size := by
    rw [hscope]
    exact hl.scope_values
  constructor
  case toMatches =>
    refine ⟨h.size, fun hv => absurd hv (not_has hstart), h.vars, ?_⟩
    show (d.functionIds.push d.bound).size = (l.functions.push name).size
    rw [Array.size_push, Array.size_push, h.functions]
  case sound => exact h.sound.opening (h.opened_eq_none hphase) hvoid htype
  case opened =>
    rw [hscope]
    rfl
  case interface => exact h.interface

theorem beginFunction (h : d.Tracks l) {name : String} (hl : l.WellTyped)
    (hphase : l.scope.phase = .outside) (hname : isName name = true) (hshort : name.length ≤ 30) :
    (d.wrote (.beginFunction name)).Tracks (l.add (.beginFunction name)) := by
  obtain ⟨h1, hvoid, htype⟩ := h.draws draws_plainFunction
  exact ((h1.opening hl hphase hvoid htype name).draws
    (Draws.addName hname hshort (outer_opened (h1.opened_eq_none hphase)))).1

/-- The end of a function leaves none of its values behind. -/
theorem closed (h : d.Tracks l) (hl : l.WellTyped) (hadd : l.add e = l.push e)
    (hstart : (l.scope.add e).start = l.scope.values) (hphase : (l.scope.add e).phase ≠ .function) :
    d.closed.Tracks (l.add e) := by
  have hscope := l.scope_add e
  rw [hadd] at hscope ⊢
  have hstart' : (l.push e).scope.start = l.shapes.size := by
    rw [hscope, hstart]
    exact hl.scope_values
  have hopened : d.closed.opened.isSome = decide ((l.push e).scope.phase = .function) := by
    rw [hscope, decide_eq_false hphase]
    cases ho : d.opened with
    | none => rw [closed_none ho, ho]; rfl
    | some code => rw [closed_some ho]; rfl
  cases ho : d.opened with
  | none =>
    rw [closed_none ho] at hopened ⊢
    exact ⟨⟨h.size, fun hv => absurd hv (not_has hstart'), h.vars, h.functions⟩, h.sound, hopened,
      h.interface⟩
  | some code =>
    have hsound := h.sound.closed
    rw [closed_some ho] at hopened hsound ⊢
    exact ⟨⟨h.size, fun hv => absurd hv (not_has hstart'), h.vars, h.functions⟩, hsound, hopened,
      h.interface⟩

end Draft.Tracks

theorem draws_store {p v : Id} (hp : d.Visible p) (hv : d.Visible v) :
    Draws (emit { opcode := .store, arguments := ids [p, v] }) d fun _ _ => True := by
  refine .emitPlain rfl ⟨⟨rfl, rfl, .id _ (.id _ (follows_plain []))⟩, Nat.le_of_ble_eq_true rfl⟩ rfl
    (forall_uses (fun _ h => nomatch h) fun u hu => ?_)
  have hu : u = p ∨ u = v := by simpa using hu
  rcases hu with rfl | rfl
  · exact hp
  · exact hv

theorem tracks_wrote (h : d.Tracks l) (hl : l.WellTyped) (ha : l.Admits e)
    (hshort : (l.add e).Short) : (d.wrote e).Tracks (l.add e) := by
  cases ha with
  | define typed =>
    obtain ⟨h1, ht⟩ := h.draws (draws_define h.toMatches hl.proper typed)
    exact h1.define _ _ ht
  | reuse typed has => exact h.push rfl rfl
  | declare fits =>
    exact h.declare fits (hshort.vars _ (Array.mem_push_self))
  | @element place index declared inside =>
    have hdraws : Draws (write (.element place index)) d fun _ _ => True :=
      (draws_indexId 0).bind fun _ d1 _ _ => (draws_indexId index).bind fun _ d2 _ _ => .pure trivial
    exact (h.draws hdraws).1.push rfl rfl
  | @store place v _ valid has =>
    have hdraws : Draws (write (.store place v)) d fun _ _ => True := by
      refine (draws_pointer h.toMatches hl.proper valid.declared).bind fun p d1 h1 hp => .term ?_
      exact draws_store hp ((h.toMatches.mono h1).terms has).visible
    exact (h.draws hdraws).1.push rfl rfl
  | @storeMemory space offset v _ scalar offset_has integer has =>
    have hdraws : Draws (write (.storeMemory space offset v)) d fun _ _ => True := by
      refine .term ((draws_wordPointer space (h.terms offset_has)).bind fun p d1 h1 hp => .term ?_)
      have hv := (h.toMatches.mono h1).terms has
      have hstore {d2 : Draft} (t : Term) (h2 : d1.Grows d2) (ht : d2.Holds t) :
          Draws (emit { opcode := .store, arguments := ids [p, t.id] }) d2 fun _ _ => True :=
        draws_store (h2.visible hp) ht.visible
      exact .ite (fun _ => (draws_ofTruth .u32 hv).bind fun t _ => hstore t) fun _ =>
        (draws_bitcast .u32 hv).bind fun t _ => hstore t
    exact (h.draws hdraws).1.push rfl rfl
  | beginFunction phase named =>
    exact h.beginFunction hl phase named (hshort.functions _ Array.mem_push_self)
  | endFunction phase | beginEntry phase => exact h.closed hl rfl rfl (fun h => nomatch h)
  | @call f phase known =>
    have hdraws : Draws (write (.call f)) d fun _ _ => True := by
      refine draws_voidType.bind fun void d1 h1 hvoid => .sound fun hsound => ?_
      have hfunction := (h.toMatches.mono h1).function hsound known
      refine Draws.emit
        (i := fun id => { opcode := .functionCall, type? := some void, result? := some id,
                          arguments := ids [d1.functionIds.getD f.index 0] })
        (f := fun _ => pure ()) (R := fun _ _ => True)
        rfl ⟨⟨rfl, rfl, follows_ids _⟩, Nat.le_of_ble_eq_true rfl⟩ rfl (forall_uses ?_ ?_)
        fun _ _ _ => .pure trivial
      · intro u hu
        rw [← Option.some.inj hu]
        exact visible_of_declared hvoid.2
      · intro u hu
        rw [mem_singleton.1 (mem_ids.1 hu)]
        exact .inl hfunction
    exact (h.draws hdraws).1.push rfl rfl

/-! ## Whole listings -/

/-- The draft of a listing, before its last function is closed. -/
def Draft.ofListing (stage : Stage) (l : Listing) : Draft :=
  ((do addName entryId "main"; l.entries.forM write : Draw Unit).run { stage := stage }).2

theorem ofListing_add (l : Listing) (e : Entry) :
    ofListing stage (l.add e) = (ofListing stage l).wrote e := by
  rw [ofListing, Listing.entries_add, Array.forM, Array.foldlM_push]
  rfl

theorem sound_empty : Sound { stage := stage } where
  three := Nat.le_refl _
  single := nodup_nil
  ranged _ h := nomatch h
  fits _ h := nomatch h
  notes _ h := nomatch h
  globals := trivial
  declarations _ h := nomatch h
  code _ h := nomatch h
  routines := .nil
  opened _ h := nomatch h
  entry := ⟨trivial, fun _ h => nomatch h⟩
  handles _ h := nomatch h
  tables :=
    { typeKeys := fun h => nomatch h
      typeIds := fun h => nomatch h
      typesDeclared := fun h => nomatch h
      typeInstrs := fun _ h => nomatch h
      constantKeys := fun h => nomatch h
      constantsDeclared := fun h => nomatch h
      constantInstrs := fun _ h => nomatch h }

theorem tracks_ofListing (hl : l.WellTyped) (hshort : l.Short) :
    (ofListing stage l).Tracks l := by
  induction hl with
  | empty target =>
    have hempty : Tracks { stage := stage } { target := target } :=
      ⟨⟨rfl, fun hv => absurd hv.defined (Nat.not_lt_zero _), Array.map_empty, rfl⟩,
        sound_empty stage, rfl, rfl⟩
    exact (hempty.draws (Draws.addName rfl (by decide) (.inr (.inl rfl)))).1
  | add before admitted ih =>
    rw [ofListing_add]
    exact tracks_wrote (ih hshort.of_add) before admitted hshort

/-! ## Finished modules -/

section Finish

variable {i : Instr} {is : List Instr} {outer : Id → Prop} {known : List Id} {u void type label : Id}

theorem Ordered.uses (h : Ordered outer known is) (hi : i ∈ is) (hu : u ∈ i.uses) :
    outer u ∨ u ∈ known ∨ u ∈ results is := by
  induction is generalizing known with
  | nil => cases hi
  | cons j is ih =>
    rw [results_cons, mem_append]
    rcases mem_cons.1 hi with rfl | hi
    · exact (h.1 u hu).imp_right .inl
    · rcases ih h.2 hi with houter | hknown | hresult
      · exact .inl houter
      · unfold knownAfter at hknown
        by_cases hend : j.opcode = .functionEnd
        · rw [if_pos hend] at hknown
          cases hknown
        · rw [if_neg hend, mem_append] at hknown
          rcases hknown with hnew | hold
          · exact .inr (.inr (.inl hnew))
          · exact .inr (.inl hold)
      · exact .inr (.inr (.inr hresult))

/-- What stands before the first function. -/
def Draft.heading (d : Draft) : List Instr := preamble d ++ d.notes ++ d.globals.toList

/-- All functions, the entry point last. -/
def Draft.bodies (d : Draft) (void type label : Id) : List Instr :=
  d.functions.toList ++ entryFunction d void type label

theorem results_preamble (d : Draft) : results (preamble d) = [mathId] := by
  unfold preamble
  split <;> rfl

theorem opcode_preamble (hi : i ∈ preamble d) :
    i.opcode.isDeclaration = false ∧ i.opcode ≠ .function := by
  have hall : ∀ o ∈ (preamble d).map Instr.opcode, o.isDeclaration = false ∧ o ≠ .function := by
    unfold preamble
    split <;> simp [Opcode.isDeclaration]
  exact hall _ (mem_map_of_mem hi)

/-- The entry point names its interface; nothing else before the names has an id. -/
theorem uses_preamble (hi : i ∈ preamble d) (hu : u ∈ i.uses) :
    u = entryId ∨ u ∈ d.interface.toList := by
  have hall : ∀ u ∈ (preamble d).flatMap Instr.uses, u ∈ d.interface.toList ∨ u = entryId := by
    unfold preamble
    split <;> simp [Instr.uses, plain, ids, or_comm]
  exact (hall _ (mem_flatMap.2 ⟨i, hi, hu⟩)).symm

theorem formed_entryPoint (n : Nat) (interface : List Id) : Instr.Formed
    { opcode := .entryPoint,
      arguments := .word n :: .id entryId :: plain (stringWords "main") ++ ids interface } := by
  have hname : "main".toList.all isNamePart = true := by decide
  exact ⟨rfl, rfl, .number _ (.id _ (follows_text hname (follows_ids interface)).1)⟩

theorem formed_import : Instr.Formed
    { opcode := .extInstImport, result? := some mathId,
      arguments := plain (stringWords "GLSL.std.450") } := by
  have hwords : plain (stringWords "GLSL.std.450") =
      plain [0x4c534c47, 0x6474732e, 0x3035342e] ++ .word 0 :: [] := rfl
  refine ⟨rfl, rfl, ?_⟩
  rw [hwords]
  exact .text (by decide) (by decide) (follows_plain [])

theorem formed_preamble (hi : i ∈ preamble d) :
    i.Formed ∧ i.operands.length ≤ 5 + d.interface.size := by
  unfold preamble at hi
  simp only [mem_append, mem_cons, not_mem_nil, or_false] at hi
  rcases hi with (rfl | rfl | rfl | rfl) | hi
  · exact ⟨⟨rfl, rfl, follows_plain [1]⟩, Nat.le_add_right_of_le (by decide)⟩
  · exact ⟨formed_import, Nat.le_add_right_of_le (by decide)⟩
  · exact ⟨⟨rfl, rfl, follows_plain [0, 1]⟩, Nat.le_add_right_of_le (by decide)⟩
  · refine ⟨formed_entryPoint _ _, ?_⟩
    have hmain : (stringWords "main").length = 2 := rfl
    simp [Instr.operands, plain, ids, hmain]
    omega
  · split at hi
    · rw [mem_singleton.1 hi]
      exact ⟨⟨rfl, rfl, .id _ (follows_plain [7])⟩, Nat.le_add_right_of_le (by decide)⟩
    · cases hi

/-- Names and annotations define nothing and declare nothing. -/
theorem Draft.Sound.results_notes (h : d.Sound) : results d.notes = [] := by
  refine filterMap_eq_nil_iff.2 fun i hi => ?_
  obtain ⟨hfits, hnote, -⟩ := h.notes i hi
  have hresult := hfits.formed.result
  generalize i.opcode = o at hnote hresult
  have hlayout : o.layout.result = false := by
    cases o <;> first | rfl | cases hnote
  rw [hlayout] at hresult
  exact Option.isNone_iff_eq_none.1 (Option.isSome_eq_false_iff.1 hresult)

theorem opcode_note {o : Opcode} (h : o.isNote = true) : o.isDeclaration = false ∧ o ≠ .function := by
  revert h
  cases o <;> decide

theorem Draft.Sound.results_heading (h : d.Sound) :
    results d.heading = mathId :: results d.globals.toList := by
  rw [heading, results_append, results_append, results_preamble, h.results_notes]
  rfl

theorem Draft.Sound.opcode_heading (h : d.Sound) (hi : i ∈ d.heading) : i.opcode ≠ .function := by
  rcases mem_append.1 hi with hi | hi
  · rcases mem_append.1 hi with hi | hi
    · exact (opcode_preamble hi).2
    · exact (opcode_note (h.notes i hi).2.1).2
  · intro heq
    have hdeclaration := h.declarations i hi
    rw [heq] at hdeclaration
    exact Bool.false_ne_true hdeclaration

theorem Draft.Sound.declarations_heading (h : d.Sound) :
    d.heading.filter (·.opcode.isDeclaration) = d.globals.toList := by
  have hnone {is : List Instr} (his : ∀ i ∈ is, i.opcode.isDeclaration = false) :
      is.filter (·.opcode.isDeclaration) = [] :=
    filter_eq_nil_iff.2 fun i hi => by simp [his i hi]
  rw [heading, filter_append, filter_append, hnone fun i hi => (opcode_preamble hi).1,
    hnone fun i hi => (opcode_note (h.notes i hi).2.1).1,
    filter_eq_self.2 fun i hi => h.declarations i hi]
  rfl

theorem entryFunction_eq (d : Draft) (void type label : Id) : entryFunction d void type label =
    (functionHead void type entryId label ++ d.entry.toList) ++ functionTail := rfl

/-- What may be used in every function is defined in the heading or is a function. -/
theorem Draft.Sound.outer_module (h : d.Sound) (hclosed : d.opened = none) (hu : d.Outer u) :
    u ∈ results d.heading ∨ u ∈ functionResults (d.heading ++ d.bodies void type label) := by
  rw [h.results_heading]
  rcases hu with rfl | rfl | hglobal | hfunction
  · exact .inl mem_cons_self
  · exact .inr (mem_functionResults.2
      ⟨_, mem_append_right _ (mem_append_right _ mem_cons_self), rfl, rfl⟩)
  · exact .inl (.tail _ hglobal)
  · obtain ⟨i, hi, hfunction⟩ := mem_functionResults.1 hfunction
    refine .inr (mem_functionResults.2 ⟨i, mem_append_right _ ?_, hfunction⟩)
    have hi : i ∈ d.functions.toList ∨ i ∈ d.entry.toList := by
      simpa [Draft.code, hclosed] using hi
    rcases hi with hi | hi
    · exact mem_append_left _ hi
    · rw [bodies, entryFunction_eq]
      exact mem_append_right _ (mem_append_left _ (mem_append_right _ hi))

theorem Draft.Sound.routines_bodies (h : d.Sound) (hvoid : d.Outer void) (htype : d.Outer type) :
    Routines d.Outer (d.bodies void type label) := by
  rw [bodies, entryFunction_eq]
  refine h.routines.append ((h.entry.function hvoid htype).routine ⟨_, _, rfl, rfl⟩ ?_ ?_)
  · exact fun u hu => nomatch hu
  · exact fun heq => nomatch heq

theorem Draft.Sound.code_bodies (h : d.Sound) (hclosed : d.opened = none)
    (hi : i ∈ d.bodies void type label) : i.Fits ∧ i.opcode.isDeclaration = false := by
  have hcode (hi : i ∈ d.code) : i.Fits ∧ i.opcode.isDeclaration = false :=
    ⟨h.fits i (mem_append_right _ hi), h.code i hi⟩
  have heq : d.code = d.functions.toList ++ d.entry.toList := by simp [Draft.code, hclosed]
  rw [bodies, entryFunction_eq] at hi
  rcases mem_append.1 hi with hi | hi
  · exact hcode (heq ▸ mem_append_left _ hi)
  rcases mem_append.1 hi with hi | hi
  · rcases mem_append.1 hi with hi | hi
    · exact fits_functionHead hi
    · exact hcode (heq ▸ mem_append_right _ hi)
  · exact fits_functionTail hi

theorem results_module (hclosed : d.opened = none) (h : d.Sound) :
    (results (d.heading ++ d.bodies void type label)).Perm
      (mathId :: entryId :: label :: results d.all) := by
  have heq : d.code = d.functions.toList ++ d.entry.toList := by simp [code, hclosed]
  rw [results_append, h.results_heading, Draft.bodies, entryFunction_eq, Draft.all, heq]
  simp only [results_append]
  show (mathId :: (results d.globals.toList ++ (results d.functions.toList ++
    (([entryId, label] ++ results d.entry.toList) ++ [])))).Perm _
  rw [append_nil]
  exact .cons _ (((perm_append_comm_assoc _ [entryId, label] _).append_left _).trans
    (perm_append_comm_assoc _ [entryId, label] _))

theorem Draft.Sound.uses_module (h : d.Sound) (hclosed : d.opened = none) (hvoid : d.Outer void)
    (htype : d.Outer type) (hi : i ∈ d.heading ++ d.bodies void type label) (hu : u ∈ i.uses) :
    u ∈ results (d.heading ++ d.bodies void type label) := by
  have houter {u : Id} (hu : d.Outer u) : u ∈ results (d.heading ++ d.bodies void type label) := by
    rcases h.outer_module hclosed hu with hheading | hfunction
    · rw [results_append]
      exact mem_append_left _ hheading
    · exact results_of_functionResults hfunction
  rcases mem_append.1 hi with hi | hi
  · rcases mem_append.1 hi with hi | hi
    · rcases mem_append.1 hi with hi | hi
      · rcases uses_preamble hi hu with rfl | hinterface
        · exact houter (.inr (.inl rfl))
        · exact houter (h.handles u (mem_handles.2 (.inr (.inr (.inr (.inl hinterface))))))
      · exact houter ((h.notes i hi).2.2 u hu)
    · rcases h.globals.uses hi hu with hfalse | hknown | hglobal
      · exact hfalse.elim
      · cases hknown
      · exact houter (outer_of_declared hglobal)
  · rcases (h.routines_bodies hvoid htype).ordered.uses hi hu with hu | hknown | hresult
    · exact houter hu
    · cases hknown
    · rw [results_append]
      exact mem_append_right _ hresult

/-- The first function is where the heading ends. -/
theorem Draft.Sound.split_module (h : d.Sound) (hroutines : Routines outer is) :
    moduleLevel (d.heading ++ is) = d.heading ∧ functionLevel (d.heading ++ is) = is := by
  have hheading : ∀ i ∈ d.heading, decide (i.opcode ≠ .function) = true :=
    fun i hi => decide_eq_true (h.opcode_heading hi)
  rw [moduleLevel, functionLevel, takeWhile_append_of_pos hheading,
    dropWhile_append_of_pos hheading]
  cases is with
  | nil => exact ⟨append_nil _, rfl⟩
  | cons i is =>
    have hfunction := hroutines.head i rfl
    simp [hfunction]

theorem isDeclaration_of_isSharedConstant {o : Opcode} (h : o.isSharedConstant = true) :
    o.isDeclaration = true := by
  cases o <;> first | rfl | cases h

theorem Draft.Sound.mem_globals (h : d.Sound) (hclosed : d.opened = none)
    (hi : i ∈ d.heading ++ d.bodies void type label) (hdeclaration : i.opcode.isDeclaration = true) :
    i ∈ d.globals.toList := by
  rcases mem_append.1 hi with hi | hi
  · rw [← h.declarations_heading]
    exact mem_filter.2 ⟨hi, hdeclaration⟩
  · rw [(h.code_bodies hclosed hi).2] at hdeclaration
    cases hdeclaration

/-- The parts of a draft that is in order make a well-formed module. -/
theorem Draft.Sound.wellFormed (h : d.Sound) (hclosed : d.opened = none) (hlabel : d.Fresh label)
    (hvoid : d.Outer void) (htype : d.Outer type) :
    WellFormed d.bound (d.heading ++ d.bodies void type label) := by
  have hresults : (results (d.heading ++ d.bodies void type label)).Perm
      (mathId :: entryId :: label :: results d.all) := results_module hclosed h
  have hcases {u : Id} (hu : u ∈ results (d.heading ++ d.bodies void type label)) :
      u = mathId ∨ u = entryId ∨ 3 ≤ u ∧ u < d.bound := by
    rcases mem_cons.1 (hresults.mem_iff.1 hu) with hu | hu
    · exact .inl hu
    rcases mem_cons.1 hu with hu | hu
    · exact .inr (.inl hu)
    rcases mem_cons.1 hu with rfl | hu
    · exact .inr (.inr ⟨hlabel.three, hlabel.below⟩)
    · exact .inr (.inr (h.ranged u hu))
  have hranged {u : Id} (hu : u ∈ results (d.heading ++ d.bodies void type label)) :
      0 < u ∧ u < d.bound := by
    rcases hcases hu with rfl | rfl | ⟨hthree, hbelow⟩
    · exact ⟨Nat.one_pos, Nat.lt_of_lt_of_le (by decide) h.three⟩
    · exact ⟨Nat.two_pos, Nat.lt_of_lt_of_le (by decide) h.three⟩
    · exact ⟨Nat.lt_of_lt_of_le (by decide) hthree, hbelow⟩
  have hglobal {i : Instr} (hi : i ∈ d.heading ++ d.bodies void type label)
      (hdeclaration : i.opcode.isDeclaration = true) : i ∈ d.globals.toList :=
    h.mem_globals hclosed hi hdeclaration
  have hroutines : Routines d.Outer (d.bodies void type label) := h.routines_bodies hvoid htype
  constructor
  case ranged =>
    intro i hi u hu
    rcases mem_append.1 hu with hu | hu
    · exact hranged (mem_results_of_mem hi (Option.mem_toList.1 hu))
    · exact hranged (h.uses_module hclosed hvoid htype hi hu)
  case single =>
    have hsmall {u : Id} (hu : u < 3) : u ∉ label :: results d.all := by
      intro hmem
      rcases mem_cons.1 hmem with rfl | hmem
      · exact absurd hu (Nat.not_lt.2 hlabel.three)
      · exact absurd hu (Nat.not_lt.2 (h.ranged u hmem).1)
    refine hresults.nodup_iff.2 (nodup_cons.2 ⟨fun hmem => ?_, nodup_cons.2
      ⟨hsmall (by decide), nodup_cons.2 ⟨hlabel.unused, h.single⟩⟩⟩)
    rcases mem_cons.1 hmem with heq | hmem
    · cases heq
    · exact hsmall (by decide) hmem
  case defined => exact fun i hi u hu => h.uses_module hclosed hvoid htype hi hu
  case declared =>
    rw [filter_append, h.declarations_heading, filter_eq_nil_iff.2, append_nil]
    · exact h.globals
    · intro i hi
      simp [(h.code_bodies hclosed hi).2]
  case shared =>
    rintro i hi j hj (hshared | hshared) hopcode htype' hargs
    · have hdeclaration := isDeclaration_of_isSharedType hshared
      exact h.tables.type_eq (hglobal hi hdeclaration) (hglobal hj (hopcode ▸ hdeclaration)) hshared
        hopcode hargs
    · have hdeclaration := isDeclaration_of_isSharedConstant hshared
      exact h.tables.constant_eq (hglobal hi hdeclaration) (hglobal hj (hopcode ▸ hdeclaration))
        hshared hopcode htype' hargs
  case bodies =>
    rw [(h.split_module hroutines).1, (h.split_module hroutines).2]
    exact hroutines.ordered.mono (fun u hu => h.outer_module hclosed hu) fun _ hu => hu

theorem exists_draft (hl : l.WellTyped) (hshort : l.Short) :
    ∃ (d : Draft) (void type label : Id), Module.ofListing stage l =
        { bound := d.bound, instructions := d.heading ++ d.bodies void type label } ∧
      d.Sound ∧ d.opened = none ∧ d.Fresh label ∧ d.Outer void ∧ d.Outer type ∧
      d.interface.size = l.interface.length := by
  have htracks := tracks_ofListing stage hl hshort
  have hrun : Module.ofListing stage l = (finish.run (ofListing stage l)).1 := rfl
  rw [hrun]
  generalize ofListing stage l = d0 at htracks
  have hinterface : d0.closed.interface = d0.interface := by
    cases hopened : d0.opened with
    | none => rw [closed_none hopened]
    | some code => rw [closed_some hopened]
  have hopened : d0.closed.opened = none := by
    cases hopened : d0.opened with
    | none => rw [closed_none hopened, hopened]
    | some code => rw [closed_some hopened]
  obtain ⟨hsound, hgrows, hvoid, htype⟩ := draws_plainFunction htracks.sound.closed
  have hstill : (plainFunction.run d0.closed).2.opened = none := by
    have hsome := hgrows.opened
    rw [hopened] at hsome
    exact Option.isNone_iff_eq_none.1 (Option.isSome_eq_false_iff.1 hsome)
  refine ⟨(plainFunction.run d0.closed).2.bump, _, _, _, ?_, hsound.bump, hstill, hsound.fresh, hvoid,
    htype, ?_⟩
  · simp only [heading, bodies, notes, ← append_assoc]
    rfl
  · exact (congrArg Array.size (hgrows.interface.trans hinterface)).trans htracks.interface

end Finish

/-! ## Reading the words back -/

section Narrow

variable {types : List (TypeKey × Id)} {constants : List ((Scalar × Lane) × Id)}
  {globals : List Instr} {key : TypeKey} {opcode : Opcode} {args : List Argument} {i : Instr}
  {is : List Instr} {outer : Id → Prop} {known : List Id} {bound : Nat}

theorem Forms.narrow (h : Forms types key opcode args) : args.map Argument.narrow = args := by
  cases h with
  | void | float | signed | unsigned | truth => rfl
  | @vector _ n _ many few known =>
    have hn : n % 0x100000000 = n := Nat.mod_eq_of_lt (by omega)
    simp [Argument.narrow, hn]
  | pointer region pointee => cases region <;> rfl
  | function result parameters => simp [ids, Argument.narrow, Function.comp_def]

theorem narrow_constant (scalar : Scalar) (bits : Lane) (type id : Id) :
    (constantInstr scalar bits type id).narrow = constantInstr scalar bits type id := by
  have hbits : bits.toNat % 0x100000000 = bits.toNat := Nat.mod_eq_of_lt bits.isLt
  cases scalar <;> simp [constantInstr, constantArguments, Instr.narrow, plain, Argument.narrow, hbits]

theorem Tables.narrow (h : Tables types constants globals) (hi : i ∈ globals)
    (hshared : i.opcode.isSharedType = true ∨ i.opcode.isSharedConstant = true) : i.narrow = i := by
  rcases hshared with hshared | hshared
  · obtain ⟨-, key, id, -, hforms, -⟩ := h.typeInstrs i hi hshared
    rw [Instr.narrow, hforms.narrow]
  · obtain ⟨scalar, bits, type, id, -, -, -, rfl⟩ := h.constantInstrs i hi hshared
    exact narrow_constant ..

theorem results_narrow (is : List Instr) : results (is.map Instr.narrow) = results is :=
  filterMap_map ..

theorem functionResults_narrow (is : List Instr) :
    functionResults (is.map Instr.narrow) = functionResults is := by
  rw [functionResults, filter_map, results_narrow]
  rfl

theorem ordered_narrow : Ordered outer known (is.map Instr.narrow) ↔ Ordered outer known is := by
  induction is generalizing known with
  | nil => exact Iff.rfl
  | cons i is ih =>
    rw [map_cons, Ordered, Ordered, uses_narrow]
    exact and_congr Iff.rfl ih

/-- Numbers that do not fit a word are no part of what makes a module well formed. -/
theorem WellFormed.narrow (h : WellFormed bound is)
    (hshared : ∀ i ∈ is, i.opcode.isSharedType = true ∨ i.opcode.isSharedConstant = true →
      i.narrow = i) : WellFormed bound (is.map Instr.narrow) := by
  constructor
  case ranged =>
    intro j hj u hu
    obtain ⟨i, hi, rfl⟩ := mem_map.1 hj
    rw [uses_narrow] at hu
    exact h.ranged i hi u hu
  case single =>
    rw [results_narrow]
    exact h.single
  case defined =>
    intro j hj u hu
    obtain ⟨i, hi, rfl⟩ := mem_map.1 hj
    rw [uses_narrow] at hu
    rw [results_narrow]
    exact h.defined i hi u hu
  case declared =>
    rw [filter_map]
    exact ordered_narrow.2 h.declared
  case shared =>
    intro j hj j' hj' hopcode hsame htype hargs
    obtain ⟨i, hi, rfl⟩ := mem_map.1 hj
    obtain ⟨i', hi', rfl⟩ := mem_map.1 hj'
    have hopcode' : i.opcode = i'.opcode := hsame
    have hi1 := hshared i hi hopcode
    have hi2 := hshared i' hi' (hopcode' ▸ hopcode)
    rw [hi1, hi2] at hsame htype hargs ⊢
    exact h.shared i hi i' hi' hopcode hsame htype hargs
  case bodies =>
    rw [functionResults_narrow, moduleLevel, functionLevel, takeWhile_map, dropWhile_map,
      results_narrow]
    exact ordered_narrow.2 h.bodies

end Narrow

theorem Draft.Sound.readable {d : Draft} {void type label : Id} (h : d.Sound)
    (hclosed : d.opened = none) (hinterface : d.interface.size < 65000) {i : Instr}
    (hi : i ∈ d.heading ++ d.bodies void type label) :
    i.Formed ∧ i.operands.length < 65535 := by
  have hfits (hi : i.Fits) : i.Formed ∧ i.operands.length < 65535 := by
    refine ⟨hi.formed, ?_⟩
    have hshort := hi.short
    have htype : i.type?.toList.length ≤ 1 := Option.length_toList_le
    have hresult : i.result?.toList.length ≤ 1 := Option.length_toList_le
    simp only [Instr.operands, length_append, length_map]
    omega
  rcases mem_append.1 hi with hi | hi
  · rcases mem_append.1 hi with hi | hi
    · rcases mem_append.1 hi with hi | hi
      · obtain ⟨hformed, hlength⟩ := formed_preamble hi
        exact ⟨hformed, by omega⟩
      · exact hfits (h.notes i hi).1
    · exact hfits (h.fits i (mem_append_left _ hi))
  · exact hfits (h.code_bodies hclosed hi).1

/-- A listing that is well typed and not too large becomes a well-formed module. -/
theorem wellFormed_ofListing {l : Listing} (hl : l.WellTyped) (hshort : l.Short)
    (hinterface : l.interface.length < 65000)
    (hbound : (Module.ofListing stage l).bound < 0x100000000) :
    ∃ instrs, Reads (Module.ofListing stage l).words (Module.ofListing stage l).bound instrs ∧
      WellFormed (Module.ofListing stage l).bound instrs := by
  obtain ⟨d, void, type, label, heq, hsound, hclosed, hlabel, hvoid, htype, hsize⟩ :=
    exists_draft stage hl hshort
  rw [heq] at hbound ⊢
  have hwell := hsound.wellFormed hclosed hlabel hvoid htype
  refine ⟨(d.heading ++ d.bodies void type label).map Instr.narrow,
    reads_words hbound fun i hi => ?_, hwell.narrow fun i hi hshared => ?_⟩
  · obtain ⟨hformed, hlength⟩ := hsound.readable hclosed (hsize ▸ hinterface) hi
    exact ⟨hformed, hlength, fun id hid => Nat.lt_trans (hwell.ranged i hi id hid).2 hbound⟩
  · have hdeclaration : i.opcode.isDeclaration = true :=
      hshared.elim isDeclaration_of_isSharedType isDeclaration_of_isSharedConstant
    exact hsound.tables.narrow (hsound.mem_globals hclosed hi hdeclaration) hshared

end Spirv

theorem Listing.interface_eq (l : Listing) : l.interface = l.outer.filter Variable.isInterface := by
  rw [interface, outer, filter_filter]
  refine filter_congr fun v _ => ?_
  obtain ⟨name, shape, storage⟩ := v
  cases storage <;> simp [Variable.isInterface, Variable.isInner]

theorem Listing.Small.short {l : Listing} {k : Nat} (h : l.Small k)
    (hfunctions : ∀ name ∈ l.functions, name.length ≤ 30) : l.Short where
  vars v hv := by
    cases hinner : v.isInner with
    | true => exact (of_decide_eq_true (Bool.and_eq_true_iff.1 hinner).2)
    | false => exact h.names v (mem_filter.2 ⟨hv.val, by simp [hinner]⟩)
  functions := hfunctions

theorem assembled_small {ctx : Context} {t : Target} {a : Assembled} (hwords : ctx.shader.Words)
    (h : assemble ctx t = .ok a) : a.listing.WellTyped ∧ a.listing.Short ∧
      a.listing.interface.length ≤ ctx.shader.inputs.length + 15 := by
  have hchecks := (checks_emitShader ctx (w := { listing := { target := t } }) rfl (sound_empty t)).2
  rw [assemble] at h
  cases hrun : Assembly.emitShader ctx { listing := { target := t } } with
  | error e w =>
    rw [hrun] at h
    cases h
  | ok u w =>
    rw [hrun] at h hchecks
    obtain ⟨⟨-, hcalls⟩, hsound, hsmall⟩ := hchecks
    obtain rfl := Except.ok.inj h
    have hempty : Listing.Small { target := t } 0 :=
      ⟨fun v hv => absurd hv not_mem_nil, Nat.le_refl _⟩
    have hsmall := hsmall 0 hwords hempty
    refine ⟨hsound.listing, hsmall.short fun name hname => ?_, ?_⟩
    · exact (hcalls.names name hname).resolve_left (Array.not_mem_empty name)
    · rw [Listing.interface_eq]
      exact Nat.le_trans hsmall.interface (by omega)

/-- Every module is structurally valid: its words are read as instructions that stand one behind the
other, its ids are defined once and below the bound, and they are used where they are known. -/
theorem assembled_wellFormed {ctx : Context} {a : Assembled}
    (hinputs : ctx.shader.inputs.length < 60000) (hwords : ctx.shader.Words)
    (h : assemble ctx .spirv = .ok a) (hbound : (a.listing.spirv a.stage).bound < 0x100000000) :
    ∃ instrs, Spirv.Reads (a.listing.spirv a.stage).words (a.listing.spirv a.stage).bound instrs ∧
      Spirv.WellFormed (a.listing.spirv a.stage).bound instrs := by
  obtain ⟨hl, hshort, hinterface⟩ := assembled_small hwords h
  exact Spirv.wellFormed_ofListing a.stage hl hshort (by omega) hbound

/-- A fragment shader that keeps the colour it is drawn over, with an input and a buffer. -/
def tintedFragment : Context where
  shader :=
    { temporaries := 4
      primaryAttributes := 8
      secondaryAttributes := 8
      outputs := 0
      inputs := [{ location := 0, register := 4, components := 3 }]
      uniformBuffers := [{ index := 1, size := 32, start := 8 }] }
  features := { directColor := true }

theorem tintedFragment_wellFormed : ∃ a, assemble tintedFragment .spirv = .ok a ∧
    (a.listing.spirv a.stage).bound < 0x100000000 ∧
    ∃ instrs, Spirv.Reads (a.listing.spirv a.stage).words (a.listing.spirv a.stage).bound instrs ∧
      Spirv.WellFormed (a.listing.spirv a.stage).bound instrs := by
  have hassembles : (match assemble tintedFragment .spirv with
      | .ok a => decide ((a.listing.spirv a.stage).bound < 0x100000000)
      | .error _ => false) = true := by decide +kernel
  split at hassembles
  case h_1 a ha =>
    have hbound := of_decide_eq_true hassembles
    have hwords : tintedFragment.shader.Words := by constructor <;> decide
    exact ⟨a, ha, hbound, assembled_wellFormed (by decide) hwords ha hbound⟩
  case h_2 => exact absurd hassembles Bool.false_ne_true

end Microcode
