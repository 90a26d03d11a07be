import Microcode.Proofs.SpirvDraft
import Microcode.Proofs.TypedAssembly

/-!
Declarations of a SPIR-V module: types, constants, buffers, helpers and variables.
-/

namespace Microcode

open List Spirv.Draft
namespace Spirv

variable {types : List (TypeKey × Id)} {key : TypeKey} {opcode : Opcode} {args : List Argument}
  {id : Id} {scalar : Scalar} {bits : Lane}

/-! ## Types and constants -/

variable {d : Draft} {α : Type}

theorem not_mem_of_lookup_eq_none {κ : Type} [BEq κ] [LawfulBEq κ] {table : List (κ × Id)} {k : κ}
    (h : table.lookup k = none) (a : Id) : (k, a) ∉ table := by
  intro hmem
  have hne := lookup_eq_none_iff.1 h (k, a) hmem
  simp at hne

theorem Forms.fits (h : Forms types key opcode args) (hshort : args.length ≤ 16) (id : Id) :
    Instr.Fits { opcode := opcode, result? := some id, arguments := args } := by
  refine ⟨?_, hshort⟩
  cases h with
  | void | truth => exact ⟨rfl, rfl, follows_plain []⟩
  | float | signed | unsigned => exact ⟨rfl, rfl, follows_plain _⟩
  | vector many few known => exact ⟨rfl, rfl, .id _ (.number _ (follows_plain []))⟩
  | pointer region pointee => exact ⟨rfl, rfl, .number _ (.id _ (follows_plain []))⟩
  | function result parameters => exact ⟨rfl, rfl, follows_ids _⟩

theorem isDeclaration_of_isSharedType (h : opcode.isSharedType = true) :
    opcode.isDeclaration = true := by
  cases opcode <;> first | rfl | cases h

/-- A shared type is in the table, and so it is declared. -/
def Draft.HasType (d : Draft) (key : TypeKey) (id : Id) : Prop :=
  (key, id) ∈ d.types ∧ id ∈ results d.globals.toList

theorem draws_sharedType (hforms : Forms d.types key opcode args) (hshort : args.length ≤ 16)
    (huses : ∀ u, .id u ∈ args → u ∈ results d.globals.toList) :
    Draws (sharedType key opcode args) d fun id d' => d'.HasType key id := by
  refine .get ?_
  cases hlookup : d.types.lookup key with
  | some id =>
    have hmem := mem_of_lookup hlookup
    exact .sound fun hd => .pure ⟨hmem, hd.tables.typesDeclared hmem⟩
  | none =>
    intro hd
    have hnew := not_mem_of_lookup_eq_none hlookup
    have hfresh := hd.fresh
    have hunused : d.bound ∉ results d.globals.toList := fun hmem =>
      hfresh.unused (by
        rw [Draft.all, results_append]
        exact mem_append_left _ hmem)
    have htables := hd.tables.pushType hnew hforms hunused
    refine ⟨hd.bump.declare _ _ hfresh rfl (hforms.fits hshort _)
      (isDeclaration_of_isSharedType hforms.isSharedType)
      (forall_uses (fun t h => by cases h) huses) htables,
      (grows_bump d).declare _ _ rfl (Nat.le_refl _) (fun p hp => mem_cons_of_mem _ hp),
      mem_cons_self, ?_⟩
    · have hmem := htables.typesDeclared mem_cons_self
      rw [← Array.toList_push] at hmem
      exact hmem

theorem draws_scalarType (scalar : Scalar) :
    Draws (scalarType ⟨scalar, 1⟩) d fun id d' => d'.HasType (.value ⟨scalar, 1⟩) id := by
  cases scalar with
  | f32 => exact draws_sharedType .float (by decide) (by simp)
  | i32 => exact draws_sharedType .signed (by decide) (by simp)
  | u32 => exact draws_sharedType .unsigned (by decide) (by simp)
  | bool => exact draws_sharedType .truth (by decide) (by simp)

theorem draws_typeId {s : Shape} (hs : s.Proper) :
    Draws (typeId s) d fun id d' => d'.HasType (.value s) id := by
  obtain ⟨scalar, n⟩ := s
  rw [typeId]
  refine .ite (fun hn => .get ?_) fun hn => ?_
  · cases hlookup : d.types.lookup (.value ⟨scalar, n⟩) with
    | some id =>
      have hmem := mem_of_lookup hlookup
      exact .sound fun hd => .pure ⟨hmem, hd.tables.typesDeclared hmem⟩
    | none =>
      refine (draws_scalarType scalar).bind fun component d' _ hcomponent => ?_
      refine draws_sharedType (.vector hn hs.2 hcomponent.1) (Nat.le_of_ble_eq_true rfl) fun u hu => ?_
      obtain rfl : u = component := by simpa using hu
      exact hcomponent.2
  · obtain rfl : n = 1 := Nat.le_antisymm (Nat.not_lt.1 hn) hs.1
    exact draws_scalarType scalar

theorem draws_voidType : Draws voidType d fun id d' => d'.HasType .void id :=
  draws_sharedType .void (by decide) (by simp)

theorem draws_pointerType {pointee : Id} (region : Region)
    (h : pointee ∈ results d.globals.toList) :
    Draws (pointerType region pointee) d fun id d' => d'.HasType (.pointer region pointee) id := by
  refine draws_sharedType (.pointer region pointee) (Nat.le_of_ble_eq_true rfl) fun u hu => ?_
  obtain rfl : u = pointee := by simpa using hu
  exact h

theorem draws_functionType {result : Id} {parameters : List Id} (hshort : parameters.length ≤ 15)
    (h : ∀ u ∈ result :: parameters, u ∈ results d.globals.toList) :
    Draws (functionType result parameters) d fun id d' =>
      d'.HasType (.function result parameters) id := by
  refine draws_sharedType (.function result parameters) ?_ fun u hu => h u (mem_ids.1 hu)
  simp only [ids, length_map, length_cons]
  omega

theorem constantInstr_fits (scalar : Scalar) (bits : Lane) (type id : Id) :
    (constantInstr scalar bits type id).Fits := by
  cases scalar with
  | bool =>
    by_cases hbits : bits ≠ 0#32
    · rw [constantInstr, constantOpcode, if_pos hbits]
      exact ⟨⟨rfl, rfl, follows_plain []⟩, Nat.zero_le _⟩
    · rw [constantInstr, constantOpcode, if_neg hbits]
      exact ⟨⟨rfl, rfl, follows_plain []⟩, Nat.zero_le _⟩
  | f32 | i32 | u32 => exact ⟨⟨rfl, rfl, follows_plain _⟩, Nat.le_of_ble_eq_true rfl⟩

theorem isDeclaration_constantOpcode (scalar : Scalar) (bits : Lane) :
    (constantOpcode scalar bits).isDeclaration = true := by
  cases scalar with
  | bool =>
    unfold constantOpcode
    dsimp only
    split <;> rfl
  | f32 | i32 | u32 => rfl

theorem constantId_eq (scalar : Scalar) (bits : Lane) : constantId scalar bits = (do
    match (← MonadState.get).constants.lookup (scalar, bits) with
    | some id => return id
    | none =>
      let type ← typeId ⟨scalar, 1⟩
      let id ← freshId
      global (constantInstr scalar bits type id)
      modify fun d => { d with constants := ((scalar, bits), id) :: d.constants }
      return id) := by
  cases scalar <;> rfl

theorem constants_sharedType (d : Draft) (key : TypeKey) (opcode : Opcode) (args : List Argument) :
    ((sharedType key opcode args).run d).2.constants = d.constants := by
  show (((match d.types.lookup key with
    | some id => _
    | none => _) : Draw Id).run d).2.constants = _
  cases d.types.lookup key <;> rfl

theorem constants_typeId (d : Draft) (scalar : Scalar) :
    ((typeId ⟨scalar, 1⟩).run d).2.constants = d.constants := by
  cases scalar <;> exact constants_sharedType d _ _ _

theorem draws_newConstant {type : Id} (hnew : ∀ a, ((scalar, bits), a) ∉ d.constants)
    (htype : d.HasType (.value ⟨scalar, 1⟩) type) (hbits : IsBits scalar bits) :
    Draws (do
      let id ← freshId
      global (constantInstr scalar bits type id)
      modify fun d => { d with constants := ((scalar, bits), id) :: d.constants }
      return id) d fun id d' => id ∈ results d'.globals.toList := by
  intro hd
  have htables : Tables d.types (((scalar, bits), d.bound) :: d.constants)
      (d.globals.toList ++ [constantInstr scalar bits type d.bound]) :=
    hd.tables.pushConstant hnew htype.1 hbits
  refine ⟨hd.bump.declare _ _ hd.fresh rfl (constantInstr_fits ..)
    (isDeclaration_constantOpcode ..)
    (forall_uses (fun t ht => Option.some.inj ht ▸ htype.2) fun u hu => ?_) htables,
    (grows_bump d).declare _ _ rfl (Nat.le_refl _) (fun p hp => hp), ?_⟩
  · cases scalar <;> exact absurd hu (by simp [constantInstr, constantArguments])
  · have hmem := htables.constantsDeclared mem_cons_self
    rw [← Array.toList_push] at hmem
    exact hmem

theorem draws_constantId (hbits : IsBits scalar bits) :
    Draws (constantId scalar bits) d fun id d' => id ∈ results d'.globals.toList := by
  rw [constantId_eq]
  refine .get ?_
  cases hlookup : d.constants.lookup (scalar, bits) with
  | some id =>
    exact .sound fun hd => .pure (hd.tables.constantsDeclared (mem_of_lookup hlookup))
  | none =>
    have hnew := not_mem_of_lookup_eq_none hlookup
    have htype : Draws (typeId ⟨scalar, 1⟩) d fun id d' =>
        d'.HasType (.value ⟨scalar, 1⟩) id ∧ d'.constants = d.constants := by
      intro hd
      obtain ⟨hd', hgrows, hid⟩ := draws_typeId (d := d) (Shape.proper_scalar scalar) hd
      exact ⟨hd', hgrows, hid, constants_typeId d scalar⟩
    refine htype.bind fun type d' _ htype => ?_
    exact draws_newConstant (htype.2 ▸ hnew) htype.1 hbits

theorem draws_indexId (n : Nat) : Draws (indexId n) d fun id d' => id ∈ results d'.globals.toList :=
  draws_constantId fun h => nomatch h

/-! ## Buffers -/

/-- The draft may keep ids that can be used everywhere. -/
theorem Draft.Sound.keep (h : d.Sound) {d' : Draft}
    (heq : d' = { d with buffers := d'.buffers, helpers := d'.helpers, vars := d'.vars,
                         interface := d'.interface, functionIds := d'.functionIds,
                         terms := d'.terms })
    (hhandles : ∀ id ∈ d'.handles, id ∈ d.handles ∨ d.Outer id) : d'.Sound := by
  have houter : ∀ id ∈ d'.handles, d.Outer id := fun id hid =>
    (hhandles id hid).elim (h.handles id) fun h => h
  rw [heq] at houter ⊢
  exact ⟨h.three, h.single, h.ranged, h.fits, h.notes, h.globals, h.declarations, h.code, h.routines,
    h.opened, h.entry, houter, h.tables⟩

theorem mem_handles : id ∈ d.handles ↔ (∃ space, (space, id) ∈ d.buffers) ∨
    (∃ h, (h, id) ∈ d.helpers) ∨ (∃ v, (id, v) ∈ d.vars.toList) ∨ id ∈ d.interface.toList ∨
      id ∈ d.functionIds.toList := by
  simp [handles]

theorem outer_of_declared (h : id ∈ results d.globals.toList) : d.Outer id := .inr (.inr (.inl h))

theorem visible_of_declared (h : id ∈ results d.globals.toList) : d.Visible id :=
  .inl (outer_of_declared h)

theorem draws_declareBlock {array : Id} (stride : Nat) (region : Region) (set binding : Nat)
    (harray : array ∈ results d.globals.toList) :
    Draws (declareBlock array stride region set binding) d fun id d' =>
      id ∈ results d'.globals.toList := by
  rw [declareBlock]
  refine (Draws.decorate (.arrayStride stride) (outer_of_declared harray)).bind fun _ d1 h1 _ => ?_
  refine .declare
    (i := fun id => { opcode := .typeStruct, result? := some id, arguments := [.id array] })
    rfl ⟨⟨rfl, rfl, follows_ids [array]⟩, Nat.le_of_ble_eq_true rfl⟩ rfl rfl rfl
    (forall_uses (fun t h => nomatch h) fun u hu => ?_) fun d2 h2 hblock => ?_
  · obtain rfl : u = array := by simpa using hu
    exact h1.globals _ harray
  have hblock' := outer_of_declared hblock
  refine (Draws.decorate .block hblock').bind fun _ d3 h3 _ => ?_
  refine (Draws.annotate
    (i := { opcode := .memberDecorate, arguments := .id d1.bound :: plain [0, 35, 0] })
    ⟨⟨rfl, rfl, .id _ (follows_plain _)⟩, Nat.le_of_ble_eq_true rfl⟩ rfl
    (forall_uses (fun t h => nomatch h) fun u hu => ?_)).bind fun _ d4 h4 _ => ?_
  · obtain rfl : u = d1.bound := by simpa using hu
    exact h3.outer _ hblock'
  refine (draws_pointerType region (h4.globals _ (h3.globals _ hblock))).bind
    fun pointer d5 _ hpointer => ?_
  refine .declare
    (i := fun id => { opcode := .variable, type? := some pointer, result? := some id,
                      arguments := [.word region.code] })
    rfl ⟨⟨rfl, rfl, .number _ (follows_ids [])⟩, Nat.le_of_ble_eq_true rfl⟩ rfl rfl rfl
    (forall_uses (fun t ht => Option.some.inj ht ▸ hpointer.2) fun u hu => ?_) fun d6 _ hid => ?_
  · simp at hu
  refine (Draws.decorate (.descriptorSet set) (outer_of_declared hid)).bind fun _ d7 h7 _ => ?_
  refine (Draws.decorate (.binding binding) (h7.outer _ (outer_of_declared hid))).bind
    fun _ d8 h8 _ => ?_
  exact .pure (h8.globals _ (h7.globals _ hid))

theorem isName_space (space : MemorySpace) : isName space.name = true ∧ space.name.length ≤ 30 := by
  cases space <;> exact ⟨rfl, by decide⟩

theorem draws_buffer (space : MemorySpace) : Draws (buffer space) d fun id d' => d'.Outer id := by
  rw [buffer]
  refine .get ?_
  cases hlookup : d.buffers.lookup space with
  | some id =>
    exact .sound fun hd =>
      .pure (hd.handles id (mem_handles.2 (.inl ⟨space, mem_of_lookup hlookup⟩)))
  | none =>
    refine (draws_typeId (Shape.proper_scalar .u32)).bind fun word d1 _ hword => ?_
    refine .declare
      (i := fun id => { opcode := .typeRuntimeArray, result? := some id, arguments := ids [word] })
      rfl ⟨⟨rfl, rfl, follows_ids [word]⟩, Nat.le_of_ble_eq_true rfl⟩ rfl rfl rfl
      (forall_uses (fun t h => nomatch h) fun u hu => ?_) fun d2 _ harray => ?_
    · obtain rfl : u = word := by simpa using hu
      exact hword.2
    refine (draws_declareBlock 4 .storageBuffer 1 space.binding harray).bind fun id d3 _ hid => ?_
    have houter := outer_of_declared hid
    obtain ⟨hname, hshort⟩ := isName_space space
    refine (Draws.addName hname hshort houter).bind fun _ d4 h4 _ => ?_
    intro hd
    refine ⟨hd.keep rfl fun u hu => ?_, { Grows.refl d4 with }, h4.outer _ houter⟩
    rcases mem_handles.1 hu with ⟨space', hu⟩ | hu
    · rcases mem_cons.1 hu with heq | hu
      · obtain rfl : u = id := (Prod.mk.inj heq).2
        exact .inr (h4.outer _ houter)
      · exact .inl (mem_handles.2 (.inl ⟨space', hu⟩))
    · exact .inl (mem_handles.2 (.inr hu))

theorem draws_declareUniformArray {v : Variable} (binding : Nat) (hv : v.shape.Proper) :
    Draws (declareUniformArray v binding) d fun id d' => id ∈ results d'.globals.toList := by
  rw [declareUniformArray]
  refine (draws_typeId hv).bind fun element d1 _ helement => ?_
  refine (draws_indexId v.length).bind fun length d2 h2 hlength => ?_
  refine .declare
    (i := fun id => { opcode := .typeArray, result? := some id, arguments := ids [element, length] })
    rfl ⟨⟨rfl, rfl, follows_ids _⟩, Nat.le_of_ble_eq_true rfl⟩ rfl rfl rfl
    (forall_uses (fun t h => nomatch h) fun u hu => ?_) fun d3 _ harray => ?_
  · have hu : u = element ∨ u = length := by simpa using hu
    rcases hu with rfl | rfl
    · exact h2.globals _ helement.2
    · exact hlength
  · exact draws_declareBlock 16 .uniform 0 binding harray

/-! ## Helpers -/

/-- The draft with a whole function more, which takes up the next `k` ids. -/
def Draft.append (d : Draft) (k : Nat) (code : List Instr) : Draft :=
  { d with bound := d.bound + k, functions := d.functions ++ code.toArray }

section Append

variable {k : Nat} {code : List Instr}

theorem adds_append (d : Draft) (k : Nat) (code : List Instr) :
    Adds [] code d (d.append k code) := by
  refine ⟨Nat.le_add_right .., rfl, (append_nil _).symm, ?_⟩
  show ((d.functions ++ code.toArray).toList ++ _).Perm _
  rw [Array.toList_append, append_assoc]
  exact perm_append_comm_assoc ..

theorem Draft.Sound.append (h : d.Sound) (hcode : Routines (d.append k code).Outer code)
    (hsingle : (results code).Nodup)
    (hranged : ∀ id ∈ results code, d.bound ≤ id ∧ id < d.bound + k)
    (hfits : ∀ i ∈ code, i.Fits ∧ i.opcode.isDeclaration = false) : (d.append k code).Sound := by
  have a := adds_append d k code
  apply a.sound_code h hsingle
  case fresh =>
    intro id hid
    obtain ⟨hnew, hbelow⟩ := hranged id hid
    exact ⟨Nat.le_trans h.three hnew, hbelow, fun hold =>
      absurd (h.ranged id hold).2 (Nat.not_lt.2 hnew)⟩
  case fits => exact hfits
  case tables => exact h.tables
  case routines =>
    show Routines _ (d.functions ++ code.toArray).toList
    rw [Array.toList_append]
    exact (h.routines.mono fun _ => a.outer).append hcode
  case opened => exact fun code hcode => a.opened h hcode
  case entry => exact h.entry.mono fun _ => a.outer
  case handles => exact fun id hid => a.outer (h.handles id hid)

theorem grows_append (d : Draft) (hranged : ∀ id ∈ results code, d.bound ≤ id) :
    d.Grows (d.append k code) :=
  have a := adds_append d k code
  { Grows.refl d with
    bound := a.bound
    outer := fun _ => a.outer
    fresh := a.fresh (.refl d) hranged }

end Append

/-- The types of the result and of the argument of a helper. -/
def helperTypes (h : Helper) (float pair : Id) : Id × Id :=
  match h with
  | .unpack _ => (pair, float)
  | .pack _ => (float, pair)

/-- A helper up to its return; its ids are the five from `n` on. -/
def helperStart (h : Helper) (float pair word type n : Id) : List Instr :=
  [{ opcode := .function, type? := some (helperTypes h float pair).1, result? := some n,
     arguments := [.word 0, .id type] },
   { opcode := .functionParameter, type? := some (helperTypes h float pair).2,
     result? := some (n + 1) },
   { opcode := .label, result? := some (n + 2) }] ++
  helperBody h float pair word (n + 1) (n + 3) (n + 4)

def helperCode (h : Helper) (float pair word type n : Id) : List Instr :=
  helperStart h float pair word type n ++
    [{ opcode := .returnValue, arguments := [.id (n + 4)] }, { opcode := .functionEnd }]

section Helper

variable {outer : Id → Prop} {float pair word type n : Id}

theorem results_helperStart (h : Helper) :
    results (helperStart h float pair word type n) = [n, n + 1, n + 2, n + 3, n + 4] := by
  cases h with
  | unpack encoding => cases encoding <;> rfl
  | pack encoding => cases encoding <;> rfl

theorem fragment_helperStart (h : Helper) (hmath : outer mathId) (hfloat : outer float)
    (hpair : outer pair) (hword : outer word) (htype : outer type) :
    Fragment outer (helperStart h float pair word type n) := by
  cases h with
  | unpack encoding | pack encoding =>
    cases encoding <;> refine ⟨?_, ?_⟩ <;>
      simp [helperStart, helperTypes, helperBody, Ordered, knownAfter, Instr.uses, *]

theorem routines_helperCode (h : Helper) (hmath : outer mathId) (hfloat : outer float)
    (hpair : outer pair) (hword : outer word) (htype : outer type) :
    Routines outer (helperCode h float pair word type n) := by
  refine (fragment_helperStart h hmath hfloat hpair hword htype).routine ⟨_, _, rfl, rfl⟩
    (fun u hu => ?_) fun heq => nomatch heq
  rw [results_helperStart]
  have hu : u = n + 4 := by simpa [Instr.uses] using hu
  simp [hu]

theorem fits_helperCode (h : Helper) {i : Instr} (hi : i ∈ helperCode h float pair word type n) :
    i.Fits ∧ i.opcode.isDeclaration = false := by
  have hnone : Follows .number [] [] := follows_plain []
  have hcast (type id arg : Id) : Instr.Fits
      { opcode := .bitcast, type? := some type, result? := some id, arguments := [.id arg] } :=
    ⟨⟨rfl, rfl, follows_ids [arg]⟩, Nat.le_of_ble_eq_true rfl⟩
  have hmath (f : MathFunction) (type id arg : Id) : Instr.Fits
      { opcode := .extInst, type? := some type, result? := some id,
        arguments := [.id mathId, .word f.code, .id arg] } :=
    ⟨⟨rfl, rfl, .id _ (.number _ (follows_ids [arg]))⟩, Nat.le_of_ble_eq_true rfl⟩
  have hbody : ∀ i ∈ helperBody h float pair word (n + 1) (n + 3) (n + 4),
      i.Fits ∧ i.opcode.isDeclaration = false := by
    cases h with
    | unpack encoding =>
      cases encoding <;> simp only [helperBody, forall_mem_cons] <;>
        exact ⟨⟨hcast .., rfl⟩, ⟨hmath .., rfl⟩, fun _ h => nomatch h⟩
    | pack encoding =>
      cases encoding <;> simp only [helperBody, forall_mem_cons] <;>
        exact ⟨⟨hmath .., rfl⟩, ⟨hcast .., rfl⟩, fun _ h => nomatch h⟩
  simp only [helperCode, helperStart, mem_append, mem_cons, not_mem_nil,
    or_false] at hi
  rcases hi with ((rfl | rfl | rfl) | hi) | rfl | rfl
  · exact ⟨⟨⟨rfl, rfl, .number _ (.id _ hnone)⟩, Nat.le_of_ble_eq_true rfl⟩, rfl⟩
  · exact ⟨⟨⟨rfl, rfl, hnone⟩, Nat.zero_le _⟩, rfl⟩
  · exact ⟨⟨⟨rfl, rfl, hnone⟩, Nat.zero_le _⟩, rfl⟩
  · exact hbody i hi
  · exact ⟨⟨⟨rfl, rfl, .id _ hnone⟩, Nat.le_of_ble_eq_true rfl⟩, rfl⟩
  · exact ⟨⟨⟨rfl, rfl, hnone⟩, Nat.zero_le _⟩, rfl⟩

end Helper

theorem isName_helper (h : Helper) : isName h.name = true ∧ h.name.length ≤ 30 := by
  cases h with
  | unpack encoding | pack encoding => cases encoding <;> exact ⟨rfl, by decide⟩

/-- A helper is put behind the functions so far, whichever function is being written. -/
theorem draws_newHelper (h : Helper) {float pair word type : Id}
    (hfloat : float ∈ results d.globals.toList) (hpair : pair ∈ results d.globals.toList)
    (hword : word ∈ results d.globals.toList) (htype : type ∈ results d.globals.toList) :
    Draws (do
      let id ← freshId
      let argument ← freshId
      let label ← freshId
      let middle ← freshId
      let last ← freshId
      addName id h.name
      let code : List Instr :=
        [{ opcode := .function, type? := some (helperTypes h float pair).1, result? := some id,
           arguments := [.word 0, .id type] },
         { opcode := .functionParameter, type? := some (helperTypes h float pair).2,
           result? := some argument },
         { opcode := .label, result? := some label }] ++
        helperBody h float pair word argument middle last ++
        [{ opcode := .returnValue, arguments := [.id last] }, { opcode := .functionEnd }]
      modify fun d => { d with functions := d.functions ++ code.toArray,
                               helpers := (h, id) :: d.helpers }
      return id) d fun id d' => d'.Outer id := by
  intro hd
  have hresults : results (helperCode h float pair word type d.bound) =
      [d.bound, d.bound + 1, d.bound + 2, d.bound + 3, d.bound + 4] := by
    rw [helperCode, results_append, results_helperStart]
    rfl
  have houter {id : Id} (hid : id ∈ results d.globals.toList) :
      (d.append 5 (helperCode h float pair word type d.bound)).Outer id :=
    (adds_append d 5 _).outer (outer_of_declared hid)
  have hranged : ∀ id ∈ results (helperCode h float pair word type d.bound),
      d.bound ≤ id ∧ id < d.bound + 5 := by
    rw [hresults]
    simp
  have hsound : (d.append 5 (helperCode h float pair word type d.bound)).Sound :=
    hd.append (routines_helperCode h (.inl rfl) (houter hfloat) (houter hpair) (houter hword)
      (houter htype)) (by rw [hresults]; simp) hranged fun i hi => fits_helperCode h hi
  have hid : (d.append 5 (helperCode h float pair word type d.bound)).Outer d.bound := by
    refine .inr (.inr (.inr (mem_functionResults.2
      ⟨_, (adds_append d 5 _).code.mem_iff.2 (mem_append_left _ mem_cons_self), rfl, rfl⟩)))
  obtain ⟨hname, hshort⟩ := isName_helper h
  obtain ⟨hnamed, hgrows, -⟩ := Draws.addName hname hshort hid hsound
  refine ⟨hnamed.keep rfl fun u hu => ?_, (grows_append d fun id hid => (hranged id hid).1).trans
    (hgrows.trans { Grows.refl _ with }), hid⟩
  rcases mem_handles.1 hu with hu | ⟨h', hu⟩ | hu
  · exact .inl (mem_handles.2 (.inl hu))
  · rcases mem_cons.1 hu with heq | hu
    · obtain rfl : u = d.bound := (Prod.mk.inj heq).2
      exact .inr hid
    · exact .inl (mem_handles.2 (.inr (.inl ⟨h', hu⟩)))
  · exact .inl (mem_handles.2 (.inr (.inr hu)))

theorem draws_helper (h : Helper) : Draws (helper h) d fun id d' => d'.Outer id := by
  rw [helper]
  refine .get ?_
  cases hlookup : d.helpers.lookup h with
  | some id =>
    exact .sound fun hd =>
      .pure (hd.handles id (mem_handles.2 (.inr (.inl ⟨h, mem_of_lookup hlookup⟩))))
  | none =>
    have hpair : (⟨.f32, 2⟩ : Shape).Proper := ⟨by decide, by decide⟩
    refine (draws_typeId (Shape.proper_scalar .f32)).bind fun float d1 _ hfloat => ?_
    refine (draws_typeId hpair).bind fun pair d2 h2 hpair => ?_
    refine (draws_typeId (Shape.proper_scalar .u32)).bind fun word d3 h3 hword => ?_
    have hfloat := h3.globals _ (h2.globals _ hfloat.2)
    have hpair := h3.globals _ hpair.2
    cases h with
    | unpack encoding =>
      refine (draws_functionType (Nat.le_of_ble_eq_true rfl) ?_).bind fun type d4 h4 htype =>
        draws_newHelper (.unpack encoding) (h4.globals _ hfloat) (h4.globals _ hpair)
          (h4.globals _ hword.2) htype.2
      simp [hfloat, hpair]
    | pack encoding =>
      refine (draws_functionType (Nat.le_of_ble_eq_true rfl) ?_).bind fun type d4 h4 htype =>
        draws_newHelper (.pack encoding) (h4.globals _ hfloat) (h4.globals _ hpair)
          (h4.globals _ hword.2) htype.2
      simp [hfloat, hpair]

/-! ## Variables -/

/-- A variable that starts as zero. -/
def hiddenVariable (pointee type : Id) : Draw Id := do
  let id ← freshId
  let null ← freshId
  global { opcode := .constantNull, type? := some pointee, result? := some null }
  global { opcode := .variable, type? := some type, result? := some id,
           arguments := [.word Region.hidden.code, .id null] }
  return id

/-- A variable of the interface. -/
def interfaceVariable (region : Region) (type : Id) (decoration : Decoration) : Draw Id := do
  let id ← freshId
  global { opcode := .variable, type? := some type, result? := some id,
           arguments := [.word region.code] }
  decorate id decoration
  return id

/-- A variable with its type and its name. -/
def namedVariable (v : Variable) : Draw Id := do
  let id ← match v.storage with
    | .uniformArray binding _ => declareUniformArray v binding
    | storage => do
      let pointee ← typeId v.shape
      let type ← pointerType (regionOf storage) pointee
      match storage with
      | .input location | .output location =>
        interfaceVariable (regionOf storage) type (.location location)
      | .builtinInput b | .builtinOutput b => interfaceVariable (regionOf storage) type (.builtin b)
      | .hidden | .uniformArray _ _ => hiddenVariable pointee type
  addName id v.name
  return id

/-- The zero has the later id and is declared first. -/
theorem draws_hiddenVariable {pointee type : Id} (hpointee : pointee ∈ results d.globals.toList)
    (htype : type ∈ results d.globals.toList) :
    Draws (hiddenVariable pointee type) d fun id d' => id ∈ results d'.globals.toList := by
  intro hd
  have hfresh : d.bump.bump.Fresh d.bound := hd.fresh.mono d.bump.grows_bump
  let zero : Instr :=
    { opcode := .constantNull, type? := some pointee, result? := some (d.bound + 1) }
  let hidden : Instr :=
    { opcode := .variable, type? := some type, result? := some d.bound,
      arguments := [.word Region.hidden.code, .id (d.bound + 1)] }
  have hzero : (d.bump.bump.declare zero d.types d.constants).Sound :=
    hd.bump.bump.declare _ _ hd.bump.fresh rfl
      ⟨⟨rfl, rfl, follows_plain []⟩, Nat.zero_le _⟩ rfl
      (forall_uses (fun t ht => Option.some.inj ht ▸ hpointee) fun u hu => nomatch hu)
      (hd.tables.push rfl rfl)
  have hfresh' : (d.bump.bump.declare zero d.types d.constants).Fresh d.bound :=
    ⟨hfresh.three, hfresh.below, fun hmem => by
      have hperm := (adds_declare d.types d.constants d.bump.bump zero).results
      rcases mem_cons.1 (hperm.mem_iff.1 hmem) with heq | hold
      · exact absurd heq (Nat.ne_of_lt (Nat.lt_succ_self _))
      · exact hfresh.unused hold⟩
  have hglobals {id : Id} (hid : id ∈ results d.globals.toList) :
      id ∈ results (d.bump.bump.declare zero d.types d.constants).globals.toList := by
    rw [globals_declare, results_append]
    exact mem_append_left _ hid
  have hsound := hzero.declare d.types d.constants hfresh' (i := hidden) rfl
    ⟨⟨rfl, rfl, .number _ (follows_ids [d.bound + 1])⟩, Nat.le_of_ble_eq_true rfl⟩ rfl
    (forall_uses (fun t ht => Option.some.inj ht ▸ hglobals htype) fun u hu => by
      obtain rfl : u = d.bound + 1 := by simpa [hidden] using hu
      rw [globals_declare]
      exact mem_results_of_mem (mem_append_right _ (mem_singleton_self _)) rfl)
    (hzero.tables.push rfl rfl)
  have hgrows : d.Grows (d.bump.bump.declare zero d.types d.constants) :=
    ((grows_bump d).trans d.bump.grows_bump).declare _ _ rfl (Nat.le_succ _) fun _ h => h
  refine ⟨hsound, hgrows.declare _ _ rfl (Nat.le_refl _) fun _ h => h, ?_⟩
  show d.bound ∈ results ((d.bump.bump.declare zero d.types d.constants).globals.push hidden).toList
  rw [Array.toList_push]
  exact mem_results_of_mem (mem_append_right _ (mem_singleton_self _)) rfl

theorem draws_interfaceVariable {type : Id} (region : Region) (decoration : Decoration)
    (htype : type ∈ results d.globals.toList) :
    Draws (interfaceVariable region type decoration) d fun id d' =>
      id ∈ results d'.globals.toList := by
  refine .declare
    (i := fun id => { opcode := .variable, type? := some type, result? := some id,
                      arguments := [.word region.code] })
    rfl ⟨⟨rfl, rfl, .number _ (follows_ids [])⟩, Nat.le_of_ble_eq_true rfl⟩ rfl rfl rfl
    (forall_uses (fun t ht => Option.some.inj ht ▸ htype) fun u hu => ?_) fun d1 _ hid => ?_
  · simp at hu
  · refine (Draws.decorate decoration (outer_of_declared hid)).bind fun _ d2 h2 _ => ?_
    exact .pure (h2.globals _ hid)

theorem draws_namedVariable {v : Variable} (hv : v.Fits) (hshort : v.name.length ≤ 30) :
    Draws (namedVariable v) d fun id d' => d'.Outer id := by
  have hname {id : Id} {d' : Draft} (hid : id ∈ results d'.globals.toList) :
      Draws (do addName id v.name; return id) d' fun id d'' => d''.Outer id := by
    refine (Draws.addName hv.name hshort (outer_of_declared hid)).bind fun _ d'' h _ => ?_
    exact .pure (h.outer _ (outer_of_declared hid))
  have htyped (region : Region) {f : Id → Id → Draw Id}
      (hf : ∀ pointee type d', pointee ∈ results d'.globals.toList →
        type ∈ results d'.globals.toList →
          Draws (f pointee type) d' fun id d'' => id ∈ results d''.globals.toList) :
      Draws (do
        let pointee ← typeId v.shape
        let type ← pointerType region pointee
        let id ← f pointee type
        addName id v.name
        return id) d fun id d' => d'.Outer id := by
    refine (draws_typeId hv.shape).bind fun pointee d1 _ hpointee => ?_
    refine (draws_pointerType region hpointee.2).bind fun type d2 h2 htype => ?_
    exact (hf pointee type d2 (h2.globals _ hpointee.2) htype.2).bind fun id d3 _ hid => hname hid
  unfold namedVariable
  obtain ⟨name, shape, storage⟩ := v
  cases storage with
  | uniformArray binding length =>
    exact (draws_declareUniformArray binding hv.shape).bind fun id d1 _ hid => hname hid
  | input location | output location | builtinInput b | builtinOutput b =>
    exact htyped _ fun pointee type d' _ htype => draws_interfaceVariable _ _ htype
  | hidden =>
    exact htyped .hidden fun pointee type d' hpointee htype => draws_hiddenVariable hpointee htype

/-- A variable goes into the table of variables, and into the interface when it belongs there. -/
theorem declareVariable_eq (v : Variable) (d : Draft) :
    ((declareVariable v).run d).2 =
      { ((namedVariable v).run d).2 with
          vars := ((namedVariable v).run d).2.vars.push (((namedVariable v).run d).1, v)
          interface :=
            if v.isInterface then
              ((namedVariable v).run d).2.interface.push ((namedVariable v).run d).1
            else ((namedVariable v).run d).2.interface } := by
  obtain ⟨name, shape, storage⟩ := v
  cases storage <;> rfl

theorem sound_declareVariable {v : Variable} (hd : d.Sound) (hv : v.Fits)
    (hshort : v.name.length ≤ 30) : ((declareVariable v).run d).2.Sound := by
  obtain ⟨hsound, -, houter⟩ := draws_namedVariable (d := d) hv hshort hd
  rw [declareVariable_eq]
  refine hsound.keep rfl fun u hu => ?_
  rcases mem_handles.1 hu with hu | hu | ⟨v', hu⟩ | hu | hu
  · exact .inl (mem_handles.2 (.inl hu))
  · exact .inl (mem_handles.2 (.inr (.inl hu)))
  · rw [Array.toList_push, mem_append, mem_singleton] at hu
    rcases hu with hu | heq
    · exact .inl (mem_handles.2 (.inr (.inr (.inl ⟨v', hu⟩))))
    · rw [(Prod.mk.inj heq).1]
      exact .inr houter
  · dsimp only at hu
    split at hu
    · rw [Array.toList_push, mem_append, mem_singleton] at hu
      rcases hu with hu | rfl
      · exact .inl (mem_handles.2 (.inr (.inr (.inr (.inl hu)))))
      · exact .inr houter
    · exact .inl (mem_handles.2 (.inr (.inr (.inr (.inl hu)))))
  · exact .inl (mem_handles.2 (.inr (.inr (.inr (.inr hu)))))

end Spirv
end Microcode
