import Microcode.Proofs.Contract
import Microcode.Proofs.SpirvGrammar

/-!
What is true of a SPIR-V module while it is being made.

Ids are counted up in one place and instructions are put in several, so most of what makes a module
well formed is kept as a property of the draft: `Draft.Sound`.  `Draws` says that a step keeps it, that
the draft only grows, and what is true of its result.
-/

namespace Microcode

open List
namespace Spirv

/-! ## Shared declarations -/

/-- How a type is declared, where the ids of the types so far are known. -/
inductive Forms (types : List (TypeKey × Id)) : TypeKey → Opcode → List Argument → Prop
  | void : Forms types .void .typeVoid []
  | float : Forms types (.value Shape.f32) .typeFloat (plain [32])
  | signed : Forms types (.value Shape.i32) .typeInt (plain [32, 1])
  | unsigned : Forms types (.value Shape.u32) .typeInt (plain [32, 0])
  | truth : Forms types (.value Shape.bool) .typeBool []
  | vector {scalar : Scalar} {n : Nat} {component : Id} (many : 1 < n) (few : n ≤ 4)
      (known : (.value ⟨scalar, 1⟩, component) ∈ types) :
    Forms types (.value ⟨scalar, n⟩) .typeVector [.id component, .word n]
  | pointer (region : Region) (pointee : Id) :
    Forms types (.pointer region pointee) .typePointer [.word region.code, .id pointee]
  | function (result : Id) (parameters : List Id) :
    Forms types (.function result parameters) .typeFunction (ids (result :: parameters))

def constantOpcode (scalar : Scalar) (bits : Lane) : Opcode :=
  match scalar with
  | .bool => if bits ≠ 0#32 then .constantTrue else .constantFalse
  | _ => .constant

def constantArguments (scalar : Scalar) (bits : Lane) : List Argument :=
  match scalar with
  | .bool => []
  | _ => plain [bits.toNat]

def constantInstr (scalar : Scalar) (bits : Lane) (type id : Id) : Instr :=
  { opcode := constantOpcode scalar bits, type? := some type, result? := some id,
    arguments := constantArguments scalar bits }

/-- Truth values are zero and one. -/
def IsBits (scalar : Scalar) (bits : Lane) : Prop := scalar = .bool → bits = 0#32 ∨ bits = 1#32

/-- Each type and each constant is declared under one id, and only what is in the tables is declared. -/
structure Tables (types : List (TypeKey × Id)) (constants : List ((Scalar × Lane) × Id))
    (globals : List Instr) : Prop where
  typeKeys : ∀ {k a b}, (k, a) ∈ types → (k, b) ∈ types → a = b
  typeIds : ∀ {k k' a}, (k, a) ∈ types → (k', a) ∈ types → k = k'
  typesDeclared : ∀ {k a}, (k, a) ∈ types → a ∈ results globals
  typeInstrs : ∀ i ∈ globals, i.opcode.isSharedType = true → i.type? = none ∧
    ∃ k a, (k, a) ∈ types ∧ Forms types k i.opcode i.arguments ∧ i.result? = some a
  constantKeys : ∀ {k a b}, (k, a) ∈ constants → (k, b) ∈ constants → a = b
  constantsDeclared : ∀ {k a}, (k, a) ∈ constants → a ∈ results globals
  constantInstrs : ∀ i ∈ globals, i.opcode.isSharedConstant = true →
    ∃ scalar bits type a, ((scalar, bits), a) ∈ constants ∧ (.value ⟨scalar, 1⟩, type) ∈ types ∧
      IsBits scalar bits ∧ i = constantInstr scalar bits type a

variable {types types' : List (TypeKey × Id)} {constants : List ((Scalar × Lane) × Id)}
  {globals : List Instr} {key key' : TypeKey} {opcode : Opcode} {args : List Argument} {i j : Instr}
  {id : Id} {scalar : Scalar} {bits : Lane}

theorem Forms.mono (h : Forms types key opcode args) (ht : ∀ p ∈ types, p ∈ types') :
    Forms types' key opcode args := by
  cases h with
  | void => exact .void
  | float => exact .float
  | signed => exact .signed
  | unsigned => exact .unsigned
  | truth => exact .truth
  | vector many few known => exact .vector many few (ht _ known)
  | pointer region pointee => exact .pointer region pointee
  | function result parameters => exact .function result parameters

theorem Region.code_injective {r r' : Region} (h : r.code = r'.code) : r = r' := by
  cases r <;> cases r' <;> first | rfl | cases h

theorem Forms.key_eq (h : Forms types key opcode args) (h' : Forms types key' opcode args)
    (hids : ∀ {k k' a}, (k, a) ∈ types → (k', a) ∈ types → k = k') : key = key' := by
  cases h with
  | void => cases h'; rfl
  | float => cases h'; rfl
  | signed => cases h'; rfl
  | unsigned => cases h'; rfl
  | truth => cases h'; rfl
  | vector many few known =>
    cases h' with
    | vector many' few' known' =>
      have heq := hids known known'
      injection heq with heq
      injection heq with hscalar
      rw [hscalar]
  | pointer region pointee =>
    generalize hargs : [Argument.word region.code, .id pointee] = args' at h'
    cases h' with
    | pointer region' pointee' =>
      simp only [List.cons.injEq, Argument.word.injEq, Argument.id.injEq, and_true] at hargs
      rw [Region.code_injective hargs.1, hargs.2]
  | function result parameters =>
    generalize hargs : ids (result :: parameters) = args' at h'
    cases h' with
    | function result' parameters' =>
      have heq := map_injective_iff.2 (fun _ _ h => Argument.id.inj h) hargs
      injection heq with hresult hparameters
      rw [hresult, hparameters]

theorem Tables.type_eq (h : Tables types constants globals) (hi : i ∈ globals) (hj : j ∈ globals)
    (hshared : i.opcode.isSharedType = true) (hopcode : i.opcode = j.opcode)
    (hargs : i.arguments = j.arguments) : i = j := by
  obtain ⟨htype, k, a, hk, hforms, hresult⟩ := h.typeInstrs i hi hshared
  obtain ⟨htype', k', a', hk', hforms', hresult'⟩ := h.typeInstrs j hj (hopcode ▸ hshared)
  rw [← hopcode, ← hargs] at hforms'
  obtain rfl := hforms.key_eq hforms' h.typeIds
  obtain rfl := h.typeKeys hk hk'
  obtain ⟨_, _, _, _⟩ := i
  obtain ⟨_, _, _, _⟩ := j
  simp_all

theorem bits_eq {bits' : Lane} (hbits : IsBits scalar bits) (hbits' : IsBits scalar bits')
    (hopcode : constantOpcode scalar bits = constantOpcode scalar bits')
    (hargs : constantArguments scalar bits = constantArguments scalar bits') : bits = bits' := by
  have hplain (h : plain [bits.toNat] = plain [bits'.toNat]) : bits = bits' := by
    simp only [plain, map_cons, map_nil, List.cons.injEq, Argument.word.injEq,
      and_true] at h
    exact BitVec.eq_of_toNat_eq h
  cases scalar with
  | bool =>
    rcases hbits rfl with rfl | rfl <;> rcases hbits' rfl with rfl | rfl
    · rfl
    · cases hopcode
    · cases hopcode
    · rfl
  | f32 | i32 | u32 => exact hplain hargs

theorem Tables.constant_eq (h : Tables types constants globals) (hi : i ∈ globals) (hj : j ∈ globals)
    (hshared : i.opcode.isSharedConstant = true) (hopcode : i.opcode = j.opcode)
    (htype : i.type? = j.type?) (hargs : i.arguments = j.arguments) : i = j := by
  obtain ⟨scalar, bits, type, a, hk, ht, hbits, rfl⟩ := h.constantInstrs i hi hshared
  obtain ⟨scalar', bits', type', a', hk', ht', hbits', rfl⟩ :=
    h.constantInstrs j hj (hopcode ▸ hshared)
  obtain rfl : type = type' := Option.some.inj htype
  have hkey := h.typeIds ht ht'
  injection hkey with hkey
  injection hkey with hscalar
  subst hscalar
  obtain rfl := bits_eq hbits hbits' hopcode hargs
  rw [h.constantKeys hk hk']

/-- A declaration that is not shared leaves the tables as they are. -/
theorem Tables.push (h : Tables types constants globals) (htype : i.opcode.isSharedType = false)
    (hconstant : i.opcode.isSharedConstant = false) : Tables types constants (globals ++ [i]) where
  typeKeys := h.typeKeys
  typeIds := h.typeIds
  typesDeclared hk := by
    rw [results_append]
    exact mem_append_left _ (h.typesDeclared hk)
  typeInstrs j hj hshared := by
    rcases mem_append.1 hj with hj | hj
    · exact h.typeInstrs j hj hshared
    · rw [mem_singleton.1 hj, htype] at hshared
      cases hshared
  constantKeys := h.constantKeys
  constantsDeclared hk := by
    rw [results_append]
    exact mem_append_left _ (h.constantsDeclared hk)
  constantInstrs j hj hshared := by
    rcases mem_append.1 hj with hj | hj
    · exact h.constantInstrs j hj hshared
    · rw [mem_singleton.1 hj, hconstant] at hshared
      cases hshared

theorem Forms.isSharedType (h : Forms types key opcode args) : opcode.isSharedType = true := by
  cases h <;> rfl

theorem isSharedConstant_of_isSharedType (h : opcode.isSharedType = true) :
    opcode.isSharedConstant = false := by
  cases opcode <;> first | rfl | cases h

theorem unique_cons {κ : Type} {k : κ} {table : List (κ × Id)}
    (h : ∀ {k a b}, (k, a) ∈ table → (k, b) ∈ table → a = b) (hnew : ∀ a, (k, a) ∉ table) {k' : κ}
    {a b : Id} (ha : (k', a) ∈ (k, id) :: table) (hb : (k', b) ∈ (k, id) :: table) : a = b := by
  rcases mem_cons.1 ha with heq | hold <;> rcases mem_cons.1 hb with heq' | hold'
  · rw [(Prod.mk.inj heq).2, (Prod.mk.inj heq').2]
  · rw [(Prod.mk.inj heq).1] at hold'
    exact absurd hold' (hnew b)
  · rw [(Prod.mk.inj heq').1] at hold
    exact absurd hold (hnew a)
  · exact h hold hold'

theorem Tables.pushType (h : Tables types constants globals) (hnew : ∀ a, (key, a) ∉ types)
    (hforms : Forms types key opcode args) (hid : id ∉ results globals) :
    Tables ((key, id) :: types) constants
      (globals ++ [{ opcode := opcode, result? := some id, arguments := args }]) where
  typeKeys := unique_cons h.typeKeys hnew
  typeIds {k k' a} hk hk' := by
    rcases mem_cons.1 hk with heq | hold <;> rcases mem_cons.1 hk' with heq' | hold'
    · rw [(Prod.mk.inj heq).1, (Prod.mk.inj heq').1]
    · rw [(Prod.mk.inj heq).2] at hold'
      exact absurd (h.typesDeclared hold') hid
    · rw [(Prod.mk.inj heq').2] at hold
      exact absurd (h.typesDeclared hold) hid
    · exact h.typeIds hold hold'
  typesDeclared {k a} hk := by
    rw [results_append]
    rcases mem_cons.1 hk with heq | hk
    · obtain ⟨-, rfl⟩ := Prod.mk.inj heq
      exact mem_append_right _ (mem_singleton_self a)
    · exact mem_append_left _ (h.typesDeclared hk)
  typeInstrs j hj hshared := by
    have hold : ∀ p ∈ types, p ∈ (key, id) :: types := fun p hp => .tail _ hp
    rcases mem_append.1 hj with hj | hj
    · obtain ⟨htype, k, a, hk, hform, hresult⟩ := h.typeInstrs j hj hshared
      exact ⟨htype, k, a, hold _ hk, hform.mono hold, hresult⟩
    · rw [mem_singleton.1 hj]
      exact ⟨rfl, key, id, mem_cons_self, hforms.mono hold, rfl⟩
  constantKeys := h.constantKeys
  constantsDeclared hk := by
    rw [results_append]
    exact mem_append_left _ (h.constantsDeclared hk)
  constantInstrs j hj hshared := by
    rcases mem_append.1 hj with hj | hj
    · obtain ⟨scalar, bits, type, a, hk, ht, hrest⟩ := h.constantInstrs j hj hshared
      exact ⟨scalar, bits, type, a, hk, (.tail _ ht), hrest⟩
    · rw [mem_singleton.1 hj, isSharedConstant_of_isSharedType hforms.isSharedType] at hshared
      cases hshared

theorem isSharedType_constantOpcode (scalar : Scalar) (bits : Lane) :
    (constantOpcode scalar bits).isSharedType = false := by
  cases scalar with
  | bool =>
    unfold constantOpcode
    dsimp only
    split <;> rfl
  | f32 | i32 | u32 => rfl

theorem Tables.pushConstant {type : Id} (h : Tables types constants globals)
    (hnew : ∀ a, ((scalar, bits), a) ∉ constants) (htype : (.value ⟨scalar, 1⟩, type) ∈ types)
    (hbits : IsBits scalar bits) :
    Tables types (((scalar, bits), id) :: constants)
      (globals ++ [constantInstr scalar bits type id]) where
  typeKeys := h.typeKeys
  typeIds := h.typeIds
  typesDeclared hk := by
    rw [results_append]
    exact mem_append_left _ (h.typesDeclared hk)
  typeInstrs j hj hshared := by
    rcases mem_append.1 hj with hj | hj
    · exact h.typeInstrs j hj hshared
    · rw [mem_singleton.1 hj, constantInstr, isSharedType_constantOpcode] at hshared
      cases hshared
  constantKeys := unique_cons h.constantKeys hnew
  constantsDeclared {k a} hk := by
    rw [results_append]
    rcases mem_cons.1 hk with heq | hk
    · obtain ⟨-, rfl⟩ := Prod.mk.inj heq
      exact mem_append_right _ (mem_singleton_self a)
    · exact mem_append_left _ (h.constantsDeclared hk)
  constantInstrs j hj hshared := by
    rcases mem_append.1 hj with hj | hj
    · obtain ⟨scalar, bits, type, a, hk, hrest⟩ := h.constantInstrs j hj hshared
      exact ⟨scalar, bits, type, a, (.tail _ hk), hrest⟩
    · exact ⟨scalar, bits, type, id, mem_cons_self, htype, hbits, mem_singleton.1 hj⟩

/-! ## Drafts -/

namespace Draft

/-- The code of all functions. -/
def code (d : Draft) : List Instr :=
  d.functions.toList ++ ((d.opened.getD #[]).toList ++ d.entry.toList)

/-- Declarations and code. -/
def all (d : Draft) : List Instr := d.globals.toList ++ d.code

/-- Names and annotations. -/
def notes (d : Draft) : List Instr := d.names.toList ++ d.annotations.toList

/-- Ids that may be used in every function. -/
def Outer (d : Draft) (id : Id) : Prop :=
  id = mathId ∨ id = entryId ∨ id ∈ results d.globals.toList ∨ id ∈ functionResults d.code

/-- The code of the function that is being written. -/
def body (d : Draft) : List Instr := (d.opened.getD d.entry).toList

/-- Ids that may be used in the function that is being written. -/
def Visible (d : Draft) (id : Id) : Prop := d.Outer id ∨ id ∈ results d.body

/-- Ids that are kept to be used again. -/
def handles (d : Draft) : List Id :=
  d.buffers.map Prod.snd ++ d.helpers.map Prod.snd ++ d.vars.toList.map Prod.fst ++
    d.interface.toList ++ d.functionIds.toList

end Draft

/-- Names and decorations. -/
def Opcode.isNote : Opcode → Bool
  | .name | .decorate | .memberDecorate => true
  | _ => false

/-- What code between the ends of functions is made of. -/
def Opcode.isCode (o : Opcode) : Bool := !o.isDeclaration && o ≠ .functionEnd

/-- An instruction with the operands of its opcode, and not too many of them. -/
structure Instr.Fits (i : Instr) : Prop where
  formed : i.Formed
  short : i.arguments.length ≤ 16

structure Draft.Sound (d : Draft) : Prop where
  three : 3 ≤ d.bound
  single : (results d.all).Nodup
  ranged : ∀ id ∈ results d.all, 3 ≤ id ∧ id < d.bound
  fits : ∀ i ∈ d.all, i.Fits
  notes : ∀ i ∈ d.notes, i.Fits ∧ i.opcode.isNote = true ∧ ∀ id ∈ i.uses, d.Outer id
  globals : Ordered (fun _ => False) [] d.globals.toList
  declarations : ∀ i ∈ d.globals.toList, i.opcode.isDeclaration = true
  code : ∀ i ∈ d.code, i.opcode.isDeclaration = false
  routines : Routines d.Outer d.functions.toList
  opened : ∀ code ∈ d.opened, Fragment d.Outer code.toList ∧
    ∃ i is, code.toList = i :: is ∧ i.opcode = .function
  entry : Fragment d.Outer d.entry.toList
  handles : ∀ id ∈ d.handles, d.Outer id
  tables : Tables d.types d.constants d.globals.toList

/-- The later draft has all that the earlier one has, and new ids for the rest. -/
structure Draft.Grows (d d' : Draft) : Prop where
  stage : d'.stage = d.stage
  bound : d.bound ≤ d'.bound
  terms : d'.terms = d.terms
  vars : d'.vars = d.vars
  functionIds : d'.functionIds = d.functionIds
  interface : d'.interface = d.interface
  opened : d'.opened.isSome = d.opened.isSome
  types : ∀ p ∈ d.types, p ∈ d'.types
  globals : ∀ id ∈ results d.globals.toList, id ∈ results d'.globals.toList
  outer : ∀ id, d.Outer id → d'.Outer id
  body : ∀ id ∈ results d.body, id ∈ results d'.body
  fresh : ∀ id ∈ results d'.all, id ∈ results d.all ∨ d.bound ≤ id

namespace Draft

variable {d d' d'' : Draft}

theorem Grows.refl (d : Draft) : d.Grows d where
  stage := rfl
  bound := Nat.le_refl _
  terms := rfl
  vars := rfl
  functionIds := rfl
  interface := rfl
  opened := rfl
  types _ h := h
  globals _ h := h
  outer _ h := h
  body _ h := h
  fresh _ h := .inl h

theorem Grows.trans (h : d.Grows d') (h' : d'.Grows d'') : d.Grows d'' where
  stage := h'.stage.trans h.stage
  bound := Nat.le_trans h.bound h'.bound
  terms := h'.terms.trans h.terms
  vars := h'.vars.trans h.vars
  functionIds := h'.functionIds.trans h.functionIds
  interface := h'.interface.trans h.interface
  opened := h'.opened.trans h.opened
  types p hp := h'.types p (h.types p hp)
  globals id hid := h'.globals id (h.globals id hid)
  outer id hid := h'.outer id (h.outer id hid)
  body id hid := h'.body id (h.body id hid)
  fresh id hid := by
    rcases h'.fresh id hid with hid | hid
    · exact h.fresh id hid
    · exact .inr (Nat.le_trans h.bound hid)

theorem Grows.visible (h : d.Grows d') (hid : d.Visible id) : d'.Visible id :=
  hid.imp (h.outer id) (h.body id)

/-- An id that has been handed out and not been used yet. -/
structure Fresh (d : Draft) (id : Id) : Prop where
  three : 3 ≤ id
  below : id < d.bound
  unused : id ∉ results d.all

theorem Fresh.mono (hid : d.Fresh id) (h : d.Grows d') : d'.Fresh id where
  three := hid.three
  below := Nat.lt_of_lt_of_le hid.below h.bound
  unused hmem := by
    rcases h.fresh id hmem with hold | hnew
    · exact hid.unused hold
    · exact absurd hid.below (Nat.not_lt.2 hnew)

/-! ## Steps -/

/-- The draft after an id has been handed out. -/
def bump (d : Draft) : Draft := { d with bound := d.bound + 1 }

theorem Sound.bump (h : d.Sound) : d.bump.Sound :=
  ⟨Nat.le_succ_of_le h.three, h.single,
    fun id hid => ⟨(h.ranged id hid).1, Nat.lt_succ_of_lt (h.ranged id hid).2⟩, h.fits, h.notes,
    h.globals, h.declarations, h.code, h.routines, h.opened, h.entry, h.handles, h.tables⟩

theorem grows_bump (d : Draft) : d.Grows d.bump := { Grows.refl d with bound := Nat.le_succ _ }

theorem Sound.fresh (h : d.Sound) : d.bump.Fresh d.bound where
  three := h.three
  below := Nat.lt_succ_self _
  unused hmem := absurd (h.ranged _ hmem).2 (Nat.lt_irrefl _)

/-- The later draft has more declarations and more code, and the same names and annotations. -/
structure Adds (declared code : List Instr) (d d' : Draft) : Prop where
  bound : d.bound ≤ d'.bound
  notes : d'.notes = d.notes
  globals : d'.globals.toList = d.globals.toList ++ declared
  code : d'.code.Perm (code ++ d.code)

namespace Adds

variable {declared code : List Instr}

theorem outer (a : Adds declared code d d') (hid : d.Outer id) : d'.Outer id := by
  refine hid.imp_right fun hid => hid.imp_right fun hid => hid.imp (fun hid => ?_) fun hid => ?_
  · rw [a.globals, results_append]
    exact mem_append_left _ hid
  · obtain ⟨i, hi, hfunction⟩ := mem_functionResults.1 hid
    exact mem_functionResults.2 ⟨i, a.code.mem_iff.2 (mem_append_right _ hi), hfunction⟩

theorem all (a : Adds declared code d d') : d'.all.Perm ((declared ++ code) ++ d.all) := by
  rw [Draft.all, a.globals]
  refine (a.code.append_left _).trans ?_
  rw [append_assoc, ← append_assoc declared]
  exact perm_append_comm_assoc ..

theorem results (a : Adds declared code d d') :
    (results d'.all).Perm (results (declared ++ code) ++ results d.all) := by
  rw [← results_append]
  exact a.all.filterMap _

theorem fresh {d'' : Draft} (a : Adds declared code d' d'') (h : d.Grows d')
    (hnew : ∀ id ∈ Spirv.results (declared ++ code), d.bound ≤ id) :
    ∀ id ∈ Spirv.results d''.all, id ∈ Spirv.results d.all ∨ d.bound ≤ id := by
  intro id hid
  rcases mem_append.1 (a.results.mem_iff.1 hid) with hnew' | hold
  · exact .inr (hnew id hnew')
  · exact h.fresh id hold

/-- What was in order stays so if the new instructions are in order where they stand. -/
theorem sound (a : Adds declared code d d') (h : d.Sound)
    (single : (Spirv.results (declared ++ code)).Nodup)
    (fresh : ∀ id ∈ Spirv.results (declared ++ code), 3 ≤ id ∧ id < d'.bound ∧
      id ∉ Spirv.results d.all)
    (fits : ∀ i ∈ declared ++ code, i.Fits)
    (declarations : ∀ i ∈ declared, i.opcode.isDeclaration = true)
    (plain : ∀ i ∈ code, i.opcode.isDeclaration = false)
    (ordered : Ordered (fun _ => False) [] d'.globals.toList)
    (tables : Tables d'.types d'.constants d'.globals.toList)
    (routines : Routines d'.Outer d'.functions.toList)
    (opened : ∀ code ∈ d'.opened, Fragment d'.Outer code.toList ∧
      ∃ i is, code.toList = i :: is ∧ i.opcode = .function)
    (entry : Fragment d'.Outer d'.entry.toList) (handles : ∀ id ∈ d'.handles, d'.Outer id) :
    d'.Sound where
  three := Nat.le_trans h.three a.bound
  single := by
    refine a.results.nodup_iff.2 (nodup_append.2 ⟨single, h.single, ?_⟩)
    rintro id hnew _ hold rfl
    exact (fresh id hnew).2.2 hold
  ranged id hid := by
    rcases mem_append.1 (a.results.mem_iff.1 hid) with hnew | hold
    · exact ⟨(fresh id hnew).1, (fresh id hnew).2.1⟩
    · exact ⟨(h.ranged id hold).1, Nat.lt_of_lt_of_le (h.ranged id hold).2 a.bound⟩
  fits i hi := by
    rcases mem_append.1 (a.all.mem_iff.1 hi) with hnew | hold
    · exact fits i hnew
    · exact h.fits i hold
  notes := by
    rw [a.notes]
    intro i hi
    obtain ⟨hfits, hnote, huses⟩ := h.notes i hi
    exact ⟨hfits, hnote, fun id hid => a.outer (huses id hid)⟩
  globals := ordered
  declarations := by
    rw [a.globals]
    intro i hi
    rcases mem_append.1 hi with hold | hnew
    · exact h.declarations i hold
    · exact declarations i hnew
  code i hi := by
    rcases mem_append.1 (a.code.mem_iff.1 hi) with hnew | hold
    · exact plain i hnew
    · exact h.code i hold
  routines := routines
  opened := opened
  entry := entry
  handles := handles
  tables := tables

theorem opened (a : Adds declared code d d') (h : d.Sound) {code : Array Instr}
    (hcode : code ∈ d.opened) : Fragment d'.Outer code.toList ∧
      ∃ i is, code.toList = i :: is ∧ i.opcode = .function :=
  ⟨(h.opened code hcode).1.mono fun _ => a.outer, (h.opened code hcode).2⟩

theorem sound_code (a : Adds [] code d d') (h : d.Sound) (single : (Spirv.results code).Nodup)
    (fresh : ∀ id ∈ Spirv.results code, 3 ≤ id ∧ id < d'.bound ∧ id ∉ Spirv.results d.all)
    (fits : ∀ i ∈ code, i.Fits ∧ i.opcode.isDeclaration = false)
    (tables : Tables d'.types d'.constants d.globals.toList)
    (routines : Routines d'.Outer d'.functions.toList)
    (opened : ∀ code ∈ d'.opened, Fragment d'.Outer code.toList ∧
      ∃ i is, code.toList = i :: is ∧ i.opcode = .function)
    (entry : Fragment d'.Outer d'.entry.toList) (handles : ∀ id ∈ d'.handles, d'.Outer id) :
    d'.Sound := by
  have hglobals : d'.globals.toList = d.globals.toList := by rw [a.globals, append_nil]
  exact a.sound h single fresh (fun i hi => (fits i hi).1) (fun i hi => nomatch hi)
    (fun i hi => (fits i hi).2) (hglobals ▸ h.globals) (hglobals ▸ tables) routines opened entry
    handles

end Adds

/-! ### Declarations -/

/-- The draft with one more declaration, and other tables. -/
def declare (d : Draft) (i : Instr) (types : List (TypeKey × Id))
    (constants : List ((Scalar × Lane) × Id)) : Draft :=
  { d with globals := d.globals.push i, types := types, constants := constants }

section Declare

variable (types' : List (TypeKey × Id)) (constants' : List ((Scalar × Lane) × Id))

theorem globals_declare (d : Draft) (i : Instr) :
    (d.declare i types' constants').globals.toList = d.globals.toList ++ [i] := Array.toList_push ..

theorem adds_declare (d : Draft) (i : Instr) : Adds [i] [] d (d.declare i types' constants') :=
  ⟨Nat.le_refl _, rfl, globals_declare types' constants' d i, .refl _⟩

theorem Sound.declare (h : d.Sound) (hid : d.Fresh id) (hresult : i.result? = some id)
    (hfits : i.Fits) (hdeclaration : i.opcode.isDeclaration = true)
    (huses : ∀ u ∈ i.uses, u ∈ results d.globals.toList)
    (htables : Tables types' constants' (d.globals.toList ++ [i])) :
    (d.declare i types' constants').Sound := by
  have a := adds_declare types' constants' d i
  have hresults : results ([i] ++ []) = [id] := by simp [results_cons, hresult]
  apply a.sound h
  case single =>
    rw [hresults]
    simp
  case fresh =>
    rw [hresults]
    intro id' hid'
    rw [mem_singleton.1 hid']
    exact ⟨hid.three, hid.below, hid.unused⟩
  case fits => simpa using hfits
  case declarations => simpa using hdeclaration
  case plain => exact fun j hj => nomatch hj
  case ordered =>
    rw [globals_declare]
    refine ordered_append.2 ⟨h.globals, fun u hu => .inr ?_, trivial⟩
    refine (mem_foldl_knownAfter fun j hj hend => ?_).2 (.inl (huses u hu))
    have hdeclared := h.declarations j hj
    rw [hend] at hdeclared
    exact Bool.false_ne_true hdeclared
  case tables =>
    rw [globals_declare]
    exact htables
  case routines => exact h.routines.mono fun _ => a.outer
  case opened => exact fun code hcode => a.opened h hcode
  case entry => exact h.entry.mono fun _ => a.outer
  case handles => exact fun id' hid' => a.outer (h.handles id' hid')

/-- With what was added before, as long as the new id is new. -/
theorem Grows.declare (h : d.Grows d') (hresult : i.result? = some id) (hid : d.bound ≤ id)
    (htypes : ∀ p ∈ d'.types, p ∈ types') : d.Grows (d'.declare i types' constants') :=
  have a := adds_declare types' constants' d' i
  { h with
    types := fun p hp => htypes p (h.types p hp)
    globals := fun id hid => by
      rw [globals_declare, results_append]
      exact mem_append_left _ (h.globals id hid)
    outer := fun id hid => a.outer (h.outer id hid)
    fresh := a.fresh h (by simpa [results_cons, hresult] using hid) }

end Declare

/-! ### Code -/

/-- The draft with one more instruction in the function that is being written. -/
def emitted (d : Draft) (i : Instr) : Draft := ((emit i).run d).2

theorem emitted_some {code : Array Instr} (h : d.opened = some code) :
    d.emitted i = { d with opened := some (code.push i) } := by
  cases d
  subst h
  rfl

theorem emitted_none (h : d.opened = none) :
    d.emitted i = { d with entry := d.entry.push i } := by
  cases d
  subst h
  rfl

theorem body_emitted (d : Draft) (i : Instr) : (d.emitted i).body = d.body ++ [i] := by
  cases h : d.opened with
  | none =>
    rw [emitted_none h]
    simp [body, h]
  | some code =>
    rw [emitted_some h]
    simp [body, h]

theorem adds_emitted (d : Draft) (i : Instr) : Adds [] [i] d (d.emitted i) := by
  cases h : d.opened with
  | none =>
    have hcode : Draft.code { d with entry := d.entry.push i } = d.code ++ [i] := by
      simp [code, h]
    rw [emitted_none h]
    refine ⟨Nat.le_refl _, rfl, (append_nil _).symm, ?_⟩
    rw [hcode]
    exact perm_append_singleton i d.code
  | some code' =>
    have hcode : Draft.code { d with opened := some (code'.push i) } =
        (d.functions.toList ++ code'.toList) ++ i :: d.entry.toList := by simp [code]
    have hold : d.code = (d.functions.toList ++ code'.toList) ++ d.entry.toList := by
      simp [code, h]
    rw [emitted_some h]
    refine ⟨Nat.le_refl _, rfl, (append_nil _).symm, ?_⟩
    rw [hcode, hold]
    exact perm_middle

theorem Sound.emitted (h : d.Sound) (hid : ∀ id ∈ i.result?, d.Fresh id) (hfits : i.Fits)
    (hcode : i.opcode.isCode = true) (huses : ∀ u ∈ i.uses, d.Visible u) : (d.emitted i).Sound := by
  have a := adds_emitted d i
  have hcode' : i.opcode.isDeclaration = false ∧ i.opcode ≠ .functionEnd := by
    unfold Opcode.isCode at hcode
    simpa using hcode
  have huses' : ∀ u ∈ i.uses, (d.emitted i).Outer u ∨ u ∈ results d.body :=
    fun u hu => (huses u hu).imp_left a.outer
  have hsingle : (results [i]).Nodup := by
    rw [results_cons]
    cases i.result? <;> simp
  have hfresh : ∀ id ∈ results [i], 3 ≤ id ∧ id < d.bound ∧ id ∉ results d.all := by
    intro id hmem
    have hnew := hid id (by simpa [results_cons] using hmem)
    exact ⟨hnew.three, hnew.below, hnew.unused⟩
  have hnew : ∀ j ∈ [i], j.Fits ∧ j.opcode.isDeclaration = false := by
    simpa using ⟨hfits, hcode'.1⟩
  have hroutines := h.routines.mono fun _ => a.outer
  have hentry := h.entry.mono fun _ => a.outer
  have hhandles := fun id hid => a.outer (h.handles id hid)
  cases ho : d.opened with
  | none =>
    have hbody : d.body = d.entry.toList := by simp [body, ho]
    rw [hbody] at huses'
    rw [emitted_none ho] at a huses' hroutines hentry hhandles ⊢
    refine a.sound_code h hsingle hfresh hnew h.tables hroutines (fun code hcode => ?_) ?_ hhandles
    · rw [ho] at hcode
      cases hcode
    · rw [Array.toList_push]
      exact hentry.push hcode'.2 huses'
  | some code =>
    have hbody : d.body = code.toList := by simp [body, ho]
    rw [hbody] at huses'
    obtain ⟨hfragment, j, is, hcons, hfunction⟩ := a.opened h (Option.mem_def.2 ho)
    rw [emitted_some ho] at a huses' hfragment hroutines hentry hhandles ⊢
    refine a.sound_code h hsingle hfresh hnew h.tables hroutines (fun code' hcode => ?_) hentry
      hhandles
    obtain rfl : code.push i = code' := Option.some.inj hcode
    rw [Array.toList_push]
    refine ⟨hfragment.push hcode'.2 huses', j, is ++ [i], ?_, hfunction⟩
    rw [hcons, cons_append]

theorem Grows.emitted (h : d.Grows d') (hresult : ∀ id ∈ i.result?, d.bound ≤ id) :
    d.Grows (d'.emitted i) := by
  have a := adds_emitted d' i
  have houter := fun id hid => a.outer (h.outer id hid)
  have hbody : ∀ id ∈ results d.body, id ∈ results (d'.emitted i).body := by
    intro id hid
    rw [body_emitted, results_append]
    exact mem_append_left _ (h.body id hid)
  have hfresh := a.fresh h fun id hid => hresult id (by simpa [results_cons] using hid)
  cases ho : d'.opened with
  | none =>
    rw [emitted_none ho] at houter hbody hfresh ⊢
    exact { h with outer := houter, body := hbody, fresh := hfresh }
  | some code =>
    rw [emitted_some ho] at houter hbody hfresh ⊢
    have hopened := h.opened
    rw [ho] at hopened
    exact { h with opened := hopened, outer := houter, body := hbody, fresh := hfresh }

/-! ### Names and annotations -/

theorem Sound.note {names annotations : Array Instr} (h : d.Sound)
    (hnotes : ∀ i ∈ names.toList ++ annotations.toList,
      i.Fits ∧ i.opcode.isNote = true ∧ ∀ id ∈ i.uses, d.Outer id) :
    Sound { d with names := names, annotations := annotations } :=
  ⟨h.three, h.single, h.ranged, h.fits, hnotes, h.globals, h.declarations, h.code, h.routines,
    h.opened, h.entry, h.handles, h.tables⟩

theorem grows_note (d : Draft) (names annotations : Array Instr) :
    d.Grows { d with names := names, annotations := annotations } := { Grows.refl d with }

end Draft

/-- The name of an id. -/
def nameInstr (target : Id) (name : String) : Instr :=
  { opcode := .name, arguments := .id target :: plain (stringWords name) }

theorem noted_name {d : Draft} {target : Id} {name : String} (hname : isName name = true)
    (hshort : name.length ≤ 30) (htarget : d.Outer target) : (nameInstr target name).Fits ∧
      (nameInstr target name).opcode.isNote = true ∧
      ∀ id ∈ (nameInstr target name).uses, d.Outer id := by
  obtain ⟨hfollows, hlength⟩ := follows_text (all_isNamePart hname) (follows_plain [])
  have hargs : (nameInstr target name).arguments = .id target :: plain (stringWords name) := rfl
  refine ⟨⟨⟨rfl, rfl, .id target ?_⟩, ?_⟩, rfl, forall_uses (fun t h => nomatch h) fun u hu => ?_⟩
  · have hempty : plain [] = [] := rfl
    rw [hempty, append_nil] at hfollows
    exact hfollows
  · simp only [hargs, length_cons, plain, length_map]
    omega
  · obtain rfl : u = target := by simpa [hargs] using hu
    exact htarget

/-! ## What a step does -/

/-- The step keeps the draft in order and lets it grow, and its result has the property. -/
def Draws {α : Type} (x : Draw α) (d : Draft) (Q : α → Draft → Prop) : Prop :=
  d.Sound → (x.run d).2.Sound ∧ d.Grows (x.run d).2 ∧ Q (x.run d).1 (x.run d).2

namespace Draws

variable {α β : Type} {x : Draw α} {f : α → Draw β} {d d' : Draft} {Q Q' : α → Draft → Prop}
  {R : β → Draft → Prop}

theorem pure {a : α} (h : Q a d) : Draws (Pure.pure a) d Q := fun hd => ⟨hd, .refl d, h⟩

theorem bind (hx : Draws x d Q) (hf : ∀ a d', d.Grows d' → Q a d' → Draws (f a) d' R) :
    Draws (x >>= f) d R := by
  intro hd
  obtain ⟨hd1, hgrows, hQ⟩ := hx hd
  obtain ⟨hd2, hgrows', hR⟩ := hf _ _ hgrows hQ hd1
  exact ⟨hd2, hgrows.trans hgrows', hR⟩

theorem mono (hx : Draws x d Q) (h : ∀ a d', d.Grows d' → Q a d' → Q' a d') : Draws x d Q' :=
  fun hd => ⟨(hx hd).1, (hx hd).2.1, h _ _ (hx hd).2.1 (hx hd).2.2⟩

theorem ite {p : Prop} [Decidable p] {y : Draw α} (hx : p → Draws x d Q) (hy : ¬ p → Draws y d Q) :
    Draws (if p then x else y) d Q :=
  iteInduction (motive := (Draws · d Q)) hx hy

theorem get {f : Draft → Draw β} (h : Draws (f d) d R) : Draws (MonadState.get >>= f) d R := h

/-- What is known of a draft that is in order may be used. -/
theorem sound (h : d.Sound → Draws x d Q) : Draws x d Q := fun hd => h hd hd

theorem declare {i : Id → Instr} {f : Id → Draw β} (hresult : (i d.bound).result? = some d.bound)
    (hfits : (i d.bound).Fits) (hdeclaration : (i d.bound).opcode.isDeclaration = true)
    (htype : (i d.bound).opcode.isSharedType = false)
    (hconstant : (i d.bound).opcode.isSharedConstant = false)
    (huses : ∀ u ∈ (i d.bound).uses, u ∈ results d.globals.toList)
    (hf : ∀ d', d.Grows d' → d.bound ∈ results d'.globals.toList → Draws (f d.bound) d' R) :
    Draws (freshId >>= fun id => global (i id) >>= fun _ => f id) d R := by
  intro hd
  have hgrows := (Draft.grows_bump d).declare d.types d.constants hresult (Nat.le_refl _) fun _ h => h
  have hsound : (d.bump.declare (i d.bound) d.types d.constants).Sound :=
    hd.bump.declare d.types d.constants hd.fresh hresult hfits hdeclaration huses
      (hd.tables.push htype hconstant)
  have hmem : d.bound ∈ results (d.bump.declare (i d.bound) d.types d.constants).globals.toList := by
    rw [Draft.globals_declare]
    exact mem_results_of_mem (mem_append_right _ (mem_singleton_self _)) hresult
  obtain ⟨hd', hgrows', hR⟩ := hf _ hgrows hmem hsound
  exact ⟨hd', hgrows.trans hgrows', hR⟩

theorem emit {i : Id → Instr} {f : Id → Draw β} (hresult : (i d.bound).result? = some d.bound)
    (hfits : (i d.bound).Fits) (hcode : (i d.bound).opcode.isCode = true)
    (huses : ∀ u ∈ (i d.bound).uses, d.Visible u)
    (hf : ∀ d', d.Grows d' → d'.Visible d.bound → Draws (f d.bound) d' R) :
    Draws (freshId >>= fun id => Spirv.emit (i id) >>= fun _ => f id) d R := by
  intro hd
  have hnew (id : Id) (hid : id ∈ (i d.bound).result?) : id = d.bound := by
    rw [hresult] at hid
    exact (Option.some.inj hid).symm
  have hgrows : d.Grows (d.bump.emitted (i d.bound)) :=
    (Draft.grows_bump d).emitted fun id hid => Nat.le_of_eq (hnew id hid).symm
  have hsound : (d.bump.emitted (i d.bound)).Sound := by
    refine hd.bump.emitted (fun id hid => ?_) hfits hcode huses
    rw [hnew id hid]
    exact hd.fresh
  have hvisible : (d.bump.emitted (i d.bound)).Visible d.bound := by
    refine .inr ?_
    rw [Draft.body_emitted]
    exact mem_results_of_mem (mem_append_right _ (mem_singleton_self _)) hresult
  obtain ⟨hd', hgrows', hR⟩ := hf _ hgrows hvisible hsound
  exact ⟨hd', hgrows.trans hgrows', hR⟩

theorem emitPlain {i : Instr} (hresult : i.result? = none) (hfits : i.Fits)
    (hcode : i.opcode.isCode = true) (huses : ∀ u ∈ i.uses, d.Visible u) :
    Draws (Spirv.emit i) d fun _ _ => True := by
  intro hd
  have hnone (id : Id) (hid : id ∈ i.result?) : False := by
    rw [hresult] at hid
    cases hid
  have hgrows : d.Grows (d.emitted i) := (Draft.Grows.refl d).emitted fun id hid => (hnone id hid).elim
  exact ⟨hd.emitted (fun id hid => (hnone id hid).elim) hfits hcode huses, hgrows, trivial⟩

theorem annotate {i : Instr} (hfits : i.Fits) (hnote : i.opcode.isNote = true)
    (huses : ∀ id ∈ i.uses, d.Outer id) : Draws (Spirv.annotate i) d fun _ _ => True := by
  intro hd
  refine ⟨hd.note fun j hj => ?_, Draft.grows_note d d.names (d.annotations.push i), trivial⟩
  rw [Array.toList_push, ← append_assoc] at hj
  rcases mem_append.1 hj with hj | hj
  · exact hd.notes j hj
  · rw [mem_singleton.1 hj]
    exact ⟨hfits, hnote, huses⟩

theorem addName {target : Id} {name : String} (hname : isName name = true)
    (hshort : name.length ≤ 30) (htarget : d.Outer target) :
    Draws (Spirv.addName target name) d fun _ _ => True := by
  intro hd
  refine ⟨hd.note fun j hj => ?_,
    Draft.grows_note d (d.names.push (nameInstr target name)) d.annotations, trivial⟩
  rw [Array.toList_push] at hj
  simp only [mem_append, mem_singleton] at hj
  rcases hj with (hj | rfl) | hj
  · exact hd.notes j (mem_append_left _ hj)
  · exact noted_name hname hshort htarget
  · exact hd.notes j (mem_append_right _ hj)

theorem decorate {target : Id} (decoration : Decoration) (htarget : d.Outer target) :
    Draws (Spirv.decorate target decoration) d fun _ _ => True := by
  refine annotate ⟨⟨rfl, rfl, .id target (follows_plain _)⟩, ?_⟩ rfl
    (forall_uses (fun t h => nomatch h) fun u hu => ?_)
  · cases decoration <;> exact Nat.le_of_ble_eq_true rfl
  · obtain rfl : u = target := by simpa using hu
    exact htarget

end Draws

end Spirv
end Microcode
