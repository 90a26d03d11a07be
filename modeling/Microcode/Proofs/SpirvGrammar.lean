import Mathlib.Data.List.Forall2
import Microcode.Proofs.Names
import Microcode.Spirv.Module

/-!
How the words of a SPIR-V module are read, and what makes a module well formed.

The high half of the first word of an instruction is its length and the low half its opcode, and the
opcode tells which of the words after it are ids.  A module is well formed when each id is defined
once and within the bound, types and constants are declared before they are used and only once, and
the code of a function refers to what is global and to what was computed before in the same function.
-/

namespace Microcode

open List
namespace Spirv

/-! ## Operands -/

/-- What stands after the result of an instruction.  A text goes up to the word with its zero byte. -/
inductive Operand where
  | id
  | number
  | text
  deriving DecidableEq, Repr

/-- The operands of an opcode: a type, a result, what stands in the places after them, and what may
stand in all places after those. -/
structure Layout where
  type : Bool := false
  result : Bool := false
  places : List Operand := []
  rest : Operand := .number
  deriving DecidableEq, Repr

/-- What most instructions have: a type, a result and the ids of their operands. -/
def Layout.ordinary : Layout := { type := true, result := true, rest := .id }

def Opcode.layout : Opcode → Layout
  | name => { places := [.id, .text] }
  | extInstImport => { result := true, places := [.text] }
  | extInst => { type := true, result := true, places := [.id, .number], rest := .id }
  | entryPoint => { places := [.number, .id, .text], rest := .id }
  | executionMode | decorate | memberDecorate | returnValue => { places := [.id] }
  | memoryModel | capability | functionEnd | .return => {}
  | typeVoid | typeBool | typeInt | typeFloat | label => { result := true }
  | typeVector => { result := true, places := [.id, .number] }
  | typeArray | typeRuntimeArray | typeStruct | typeFunction => { result := true, rest := .id }
  | typePointer => { result := true, places := [.number, .id] }
  | constantTrue | constantFalse | constant | constantNull | functionParameter =>
    { type := true, result := true }
  | function => { type := true, result := true, places := [.number, .id] }
  | .variable => { type := true, result := true, places := [.number], rest := .id }
  | load | compositeExtract => { type := true, result := true, places := [.id] }
  | store => { places := [.id, .id] }
  | vectorShuffle | compositeInsert => { type := true, result := true, places := [.id, .id] }
  | _ => .ordinary

/-- A word with a zero byte. -/
def endsText (w : Nat) : Bool :=
  w % 256 = 0 || w / 256 % 256 = 0 || w / 65536 % 256 = 0 || w / 16777216 % 256 = 0

def Operand.admits : Operand → Argument → Bool
  | .id, .id _ => true
  | .number, .word _ => true
  | _, _ => false

/-- The arguments have their ids where they belong. -/
inductive Follows (rest : Operand) : List Operand → List Argument → Prop
  | done {args : List Argument} (h : ∀ a ∈ args, rest.admits a = true) : Follows rest [] args
  | id {places : List Operand} {args : List Argument} (n : Id) (h : Follows rest places args) :
    Follows rest (.id :: places) (.id n :: args)
  | number {places : List Operand} {args : List Argument} (n : Nat) (h : Follows rest places args) :
    Follows rest (.number :: places) (.word n :: args)
  | text {places : List Operand} {args : List Argument} {body : List Nat} {last : Nat}
      (inside : ∀ w ∈ body, endsText w = false) (ends : endsText last = true)
      (h : Follows rest places args) :
    Follows rest (.text :: places) (plain body ++ .word last :: args)

/-- The instruction has the operands of its opcode. -/
structure Instr.Formed (i : Instr) : Prop where
  type : i.type?.isSome = i.opcode.layout.type
  result : i.result?.isSome = i.opcode.layout.result
  arguments : Follows i.opcode.layout.rest i.opcode.layout.places i.arguments

/-- The words are those of the instruction. -/
structure Encodes (words : List Lane) (i : Instr) : Prop where
  formed : i.Formed
  first : ∃ w, words.head? = some w ∧ w.toNat / 65536 = words.length ∧ w.toNat % 65536 = i.opcode.code
  operands : words.tail.map BitVec.toNat = i.operands

/-- The words are five words of header, the fourth of them the bound, and after them one instruction
behind the other. -/
structure Reads (words : List Lane) (bound : Nat) (instrs : List Instr) : Prop where
  header : words.length ≥ 5 ∧ (words.getD 3 0#32).toNat = bound
  tiled : ∃ pieces, words.drop 5 = pieces.flatten ∧ List.Forall₂ Encodes pieces instrs

/-! ## Well-formed modules -/

/-- Ids that the instructions define. -/
def results (is : List Instr) : List Id := is.filterMap Instr.result?

/-- Ids of the functions among the instructions. -/
def functionResults (is : List Instr) : List Id := results (is.filter (·.opcode = .function))

/-- What is known after an instruction; the end of a function forgets what was computed in it. -/
def knownAfter (known : List Id) (i : Instr) : List Id :=
  if i.opcode = .functionEnd then [] else i.result?.toList ++ known

/-- Every id is known before it is used, or is one of the outer ones. -/
def Ordered (outer : Id → Prop) : List Id → List Instr → Prop
  | _, [] => True
  | known, i :: rest =>
    (∀ id ∈ i.uses, outer id ∨ id ∈ known) ∧ Ordered outer (knownAfter known i) rest

/-- Declarations of types, constants and variables. -/
def Opcode.isDeclaration : Opcode → Bool
  | typeVoid | typeBool | typeInt | typeFloat | typeVector | typeArray | typeRuntimeArray | typeStruct
  | typePointer | typeFunction | constantTrue | constantFalse | constant | constantNull
  | .variable => true
  | _ => false

/-- Types that must not be declared twice: scalars, vectors, pointers and functions. -/
def Opcode.isSharedType : Opcode → Bool
  | typeVoid | typeBool | typeInt | typeFloat | typeVector | typePointer | typeFunction => true
  | _ => false

/-- Constants that must not be declared twice. -/
def Opcode.isSharedConstant : Opcode → Bool
  | constantTrue | constantFalse | constant => true
  | _ => false

/-- The instructions before the first function. -/
def moduleLevel (is : List Instr) : List Instr := is.takeWhile (·.opcode ≠ .function)

/-- The first function and all that follows. -/
def functionLevel (is : List Instr) : List Instr := is.dropWhile (·.opcode ≠ .function)

structure WellFormed (bound : Nat) (is : List Instr) : Prop where
  ranged : ∀ i ∈ is, ∀ id ∈ i.result?.toList ++ i.uses, 0 < id ∧ id < bound
  single : (results is).Nodup
  defined : ∀ i ∈ is, ∀ id ∈ i.uses, id ∈ results is
  declared : Ordered (fun _ => False) [] (is.filter (·.opcode.isDeclaration))
  shared : ∀ i ∈ is, ∀ j ∈ is, i.opcode.isSharedType = true ∨ i.opcode.isSharedConstant = true →
    i.opcode = j.opcode → i.type? = j.type? → i.arguments = j.arguments → i = j
  bodies : Ordered (fun id => id ∈ results (moduleLevel is) ∨ id ∈ functionResults is) []
    (functionLevel is)

/-! ## Sequences of instructions -/

variable {i j : Instr} {is js : List Instr} {outer outer' : Id → Prop} {known known' : List Id}
  {id : Id}

theorem mem_uses : id ∈ i.uses ↔ i.type? = some id ∨ .id id ∈ i.arguments := by
  unfold Instr.uses
  rw [mem_append, Option.mem_toList, mem_filterMap]
  refine or_congr Iff.rfl ⟨?_, fun h => ⟨.id id, h, rfl⟩⟩
  rintro ⟨a, ha, heq⟩
  cases a with
  | id n =>
    obtain rfl : n = id := Option.some.inj heq
    exact ha
  | word n => cases heq

theorem forall_uses {P : Id → Prop} (htype : ∀ t, i.type? = some t → P t)
    (hargs : ∀ u, .id u ∈ i.arguments → P u) : ∀ u ∈ i.uses, P u := by
  intro u hu
  rcases mem_uses.1 hu with heq | harg
  · exact htype u heq
  · exact hargs u harg

@[simp] theorem mem_ids {l : List Id} : .id id ∈ ids l ↔ id ∈ l := by
  simp [ids]

@[simp] theorem not_mem_plain {l : List Nat} : .id id ∉ plain l := by
  simp [plain]

@[simp] theorem results_nil : results [] = [] := rfl

@[simp] theorem results_append (is js : List Instr) : results (is ++ js) = results is ++ results js :=
  filterMap_append

@[simp] theorem results_cons (i : Instr) (is : List Instr) :
    results (i :: is) = i.result?.toList ++ results is := by
  cases h : i.result? <;> simp [results, h]

theorem mem_results : id ∈ results is ↔ ∃ i ∈ is, i.result? = some id := mem_filterMap

theorem mem_results_of_mem (hi : i ∈ is) (h : i.result? = some id) : id ∈ results is :=
  mem_results.2 ⟨i, hi, h⟩

theorem mem_functionResults : id ∈ functionResults is ↔
    ∃ i ∈ is, i.opcode = .function ∧ i.result? = some id := by
  rw [functionResults, mem_results]
  simp [and_assoc]

theorem results_of_functionResults (h : id ∈ functionResults is) : id ∈ results is := by
  obtain ⟨i, hi, -, hresult⟩ := mem_functionResults.1 h
  exact mem_results_of_mem hi hresult

theorem Ordered.mono (h : Ordered outer known is) (houter : ∀ id, outer id → outer' id)
    (hknown : ∀ id ∈ known, id ∈ known') : Ordered outer' known' is := by
  induction is generalizing known known' with
  | nil => trivial
  | cons i is ih =>
    obtain ⟨hi, his⟩ := h
    refine ⟨fun id hid => (hi id hid).imp (houter id) (hknown id), ih his fun id hid => ?_⟩
    unfold knownAfter at hid ⊢
    by_cases hend : i.opcode = .functionEnd
    · rw [if_pos hend] at hid ⊢
      exact hid
    · rw [if_neg hend] at hid ⊢
      exact (mem_append.1 hid).elim (mem_append_left _)
        fun hid => mem_append_right _ (hknown id hid)

theorem ordered_append : Ordered outer known (is ++ js) ↔
    Ordered outer known is ∧ Ordered outer (is.foldl knownAfter known) js := by
  induction is generalizing known with
  | nil => simp [Ordered]
  | cons i is ih =>
    rw [cons_append, Ordered, Ordered, ih, foldl_cons, and_assoc]

theorem mem_foldl_knownAfter (h : ∀ i ∈ is, i.opcode ≠ .functionEnd) :
    id ∈ is.foldl knownAfter known ↔ id ∈ results is ∨ id ∈ known := by
  induction is generalizing known with
  | nil => simp
  | cons i is ih =>
    rw [foldl_cons, ih fun j hj => h j (.tail _ hj), knownAfter,
      if_neg (h i mem_cons_self), results_cons, mem_append, mem_append]
    tauto

/-- Whole functions, one after the other. -/
structure Routines (outer : Id → Prop) (is : List Instr) : Prop where
  ordered : Ordered outer [] is
  closed : is.foldl knownAfter [] = []
  head : ∀ i ∈ is.head?, i.opcode = .function

theorem Routines.nil : Routines outer [] := ⟨trivial, rfl, fun _ h => nomatch h⟩

theorem Routines.append (his : Routines outer is) (hjs : Routines outer js) :
    Routines outer (is ++ js) where
  ordered := ordered_append.2 ⟨his.ordered, by rw [his.closed]; exact hjs.ordered⟩
  closed := by rw [foldl_append, his.closed, hjs.closed]
  head i hi := by
    cases is with
    | nil => exact hjs.head i hi
    | cons j is => exact his.head i hi

theorem Routines.mono (h : Routines outer is) (houter : ∀ id, outer id → outer' id) :
    Routines outer' is := ⟨h.ordered.mono houter fun _ h => h, h.closed, h.head⟩

/-- The code of one function, from which nothing is left out at the end but its return. -/
structure Fragment (outer : Id → Prop) (is : List Instr) : Prop where
  ordered : Ordered outer [] is
  inside : ∀ i ∈ is, i.opcode ≠ .functionEnd

theorem Fragment.mono (h : Fragment outer is) (houter : ∀ id, outer id → outer' id) :
    Fragment outer' is := ⟨h.ordered.mono houter fun _ h => h, h.inside⟩

theorem Fragment.push (h : Fragment outer is) (hi : i.opcode ≠ .functionEnd)
    (huses : ∀ id ∈ i.uses, outer id ∨ id ∈ results is) : Fragment outer (is ++ [i]) where
  ordered := by
    refine ordered_append.2 ⟨h.ordered, fun id hid => ?_, trivial⟩
    exact (huses id hid).imp_right fun hid => (mem_foldl_knownAfter h.inside).2 (.inl hid)
  inside j hj := by
    rcases mem_append.1 hj with hj | hj
    · exact h.inside j hj
    · rw [mem_singleton.1 hj]
      exact hi

theorem Fragment.routine (h : Fragment outer is) (hhead : ∃ i is', is = i :: is' ∧ i.opcode = .function)
    {last : Instr} (huses : ∀ id ∈ last.uses, id ∈ results is)
    (hlast : last.opcode ≠ .functionEnd) :
    Routines outer (is ++ [last, { opcode := .functionEnd }]) := by
  have hpush := h.push hlast fun id hid => .inr (huses id hid)
  have heq : is ++ [last, { opcode := .functionEnd }] =
      (is ++ [last]) ++ [{ opcode := .functionEnd }] := by simp
  rw [heq]
  refine ⟨ordered_append.2 ⟨hpush.ordered, fun id hid => absurd hid not_mem_nil, trivial⟩, ?_, ?_⟩
  · rw [foldl_append]
    rfl
  · obtain ⟨i, is', rfl, hi⟩ := hhead
    intro j hj
    obtain rfl : i = j := Option.some.inj hj
    exact hi

/-! ## Words -/

theorem Opcode.code_lt (o : Opcode) : o.code < 65536 := by
  cases o <;> decide

/-- A number as it is in a word. -/
def Argument.narrow : Argument → Argument
  | .id n => .id n
  | .word n => .word (n % 0x100000000)

def Instr.narrow (i : Instr) : Instr := { i with arguments := i.arguments.map Argument.narrow }

variable {args : List Argument} {places : List Operand} {rest : Operand}

theorem endsText_mod (w : Nat) : endsText (w % 0x100000000) = endsText w := by
  have h0 : w % 0x100000000 % 256 = w % 256 := by omega
  have h1 : w % 0x100000000 / 256 % 256 = w / 256 % 256 := by omega
  have h2 : w % 0x100000000 / 65536 % 256 = w / 65536 % 256 := by omega
  have h3 : w % 0x100000000 / 16777216 % 256 = w / 16777216 % 256 := by omega
  simp only [endsText, h0, h1, h2, h3]

theorem Follows.narrow (h : Follows rest places args) :
    Follows rest places (args.map Argument.narrow) := by
  induction h with
  | done h =>
    refine .done fun a ha => ?_
    obtain ⟨b, hb, rfl⟩ := mem_map.1 ha
    have hb := h b hb
    cases b <;> cases rest <;> exact hb
  | id n h ih => exact .id n ih
  | number n h ih => exact .number _ ih
  | @text places args body last inside ends h ih =>
    have hmap : (plain body ++ .word last :: args).map Argument.narrow =
        plain (body.map (· % 0x100000000)) ++
          .word (last % 0x100000000) :: args.map Argument.narrow := by
      simp [plain, Argument.narrow, Function.comp_def]
    rw [hmap]
    refine .text (fun w hw => ?_) (by rw [endsText_mod, ends]) ih
    obtain ⟨v, hv, rfl⟩ := mem_map.1 hw
    rw [endsText_mod, inside v hv]

theorem Instr.Formed.narrow (h : i.Formed) : i.narrow.Formed := ⟨h.type, h.result, h.arguments.narrow⟩

theorem uses_narrow (i : Instr) : i.narrow.uses = i.uses := by
  simp only [Instr.uses, Instr.narrow, filterMap_map]
  congr 2
  funext a
  cases a <;> rfl

theorem operands_narrow (h : ∀ id ∈ i.result?.toList ++ i.uses, id < 0x100000000) :
    i.narrow.operands = i.operands.map (· % 0x100000000) := by
  have hsame (ids : List Id) (hids : ∀ id ∈ ids, id < 0x100000000) :
      ids.map (· % 0x100000000) = ids :=
    (map_congr_left fun id hid => Nat.mod_eq_of_lt (hids id hid)).trans (map_id _)
  have htype : i.type?.toList.map (· % 0x100000000) = i.type?.toList :=
    hsame _ fun id hid => h id (mem_append_right _ (mem_append_left _ hid))
  have hresult : i.result?.toList.map (· % 0x100000000) = i.result?.toList :=
    hsame _ fun id hid => h id (mem_append_left _ hid)
  have harguments : (i.arguments.map Argument.narrow).map Argument.value =
      (i.arguments.map Argument.value).map (· % 0x100000000) := by
    rw [map_map, map_map]
    refine map_congr_left fun a ha => ?_
    cases a with
    | id n =>
      exact (Nat.mod_eq_of_lt (h n (mem_append_right _ (mem_uses.2 (.inr ha))))).symm
    | word n => rfl
  show i.type?.toList ++ i.result?.toList ++ (i.arguments.map Argument.narrow).map Argument.value = _
  rw [Instr.operands, map_append, map_append, htype, hresult, harguments]

theorem encodes_words (h : i.Formed) (hlength : i.operands.length < 65535)
    (hids : ∀ id ∈ i.result?.toList ++ i.uses, id < 0x100000000) : Encodes i.words i.narrow where
  formed := h.narrow
  first := by
    have hcode := i.opcode.code_lt
    have hor : (i.operands.length + 1) <<< 16 ||| i.opcode.code =
        (i.operands.length + 1) * 65536 + i.opcode.code := by
      rw [← Nat.shiftLeft_add_eq_or_of_lt (by simpa using hcode), Nat.shiftLeft_eq]
    have hword : (BitVec.ofNat 32 ((i.operands.length + 1) <<< 16 ||| i.opcode.code)).toNat =
        (i.operands.length + 1) * 65536 + i.opcode.code := by
      rw [hor, BitVec.toNat_ofNat, Nat.mod_eq_of_lt (by omega)]
    refine ⟨_, rfl, ?_, ?_⟩
    · rw [hword]
      simp only [Instr.words, length_cons, length_map]
      omega
    · rw [hword]
      show _ = i.opcode.code
      omega
  operands := by
    rw [operands_narrow hids]
    simp only [Instr.words, tail_cons, map_map]
    exact map_congr_left fun n _ => BitVec.toNat_ofNat ..

theorem reads_words {m : Module} (hbound : m.bound < 0x100000000)
    (h : ∀ i ∈ m.instructions, i.Formed ∧ i.operands.length < 65535 ∧
      ∀ id ∈ i.result?.toList ++ i.uses, id < 0x100000000) :
    Reads m.words m.bound (m.instructions.map Instr.narrow) where
  header := by
    refine ⟨by simp [Module.words, Module.header], ?_⟩
    show (BitVec.ofNat 32 m.bound).toNat = _
    rw [BitVec.toNat_ofNat, Nat.mod_eq_of_lt hbound]
  tiled := by
    refine ⟨m.instructions.map Instr.words, ?_, ?_⟩
    · rw [← flatMap_def]
      rfl
    · rw [forall₂_map_left_iff, forall₂_map_right_iff, forall₂_same]
      exact fun i hi => encodes_words (h i hi).1 (h i hi).2.1 (h i hi).2.2

theorem follows_ids (l : List Id) : Follows .id [] (ids l) := by
  refine .done fun a ha => ?_
  obtain ⟨id, -, rfl⟩ := mem_map.1 ha
  rfl

theorem follows_plain (l : List Nat) : Follows .number [] (plain l) := by
  refine .done fun a ha => ?_
  obtain ⟨n, -, rfl⟩ := mem_map.1 ha
  rfl

/-! ## Texts -/

theorem nonzero_of_isNamePart {c : Char} (h : isNamePart c = true) :
    c.val.toNat ≤ 0x7f ∧ 0 < c.val.toNat := by
  rw [isNamePart, Bool.or_eq_true, isNameStart_iff] at h
  show c.toNat ≤ 127 ∧ 0 < c.toNat
  rcases h with (h | h | rfl) | h
  · omega
  · omega
  · decide
  · have hdigit : 48 ≤ c.toNat ∧ c.toNat ≤ 57 := by
      simpa [Char.isDigit, UInt32.le_iff_toNat_le] using h
    omega

/-- A name has one byte for each character, and no zero byte. -/
theorem bytes_name {s : String} (h : s.toList.all isNamePart = true) :
    (∀ b ∈ s.toUTF8.data.toList, b ≠ 0) ∧ s.toUTF8.data.toList.length = s.length := by
  have hbytes : s.toUTF8.data.toList = s.toList.flatMap String.utf8EncodeChar := by
    rw [String.toUTF8_eq_toByteArray, ← String.utf8Encode_toList]
    exact toList_data_toByteArray
  have hchar (c : Char) (hc : c ∈ s.toList) :
      String.utf8EncodeChar c = [UInt8.ofNat c.val.toNat] ∧ UInt8.ofNat c.val.toNat ≠ 0 := by
    obtain ⟨hsmall, hpos⟩ := nonzero_of_isNamePart (all_eq_true.1 h c hc)
    refine ⟨if_pos hsmall, fun hzero => ?_⟩
    have hmod := congrArg UInt8.toNat hzero
    rw [UInt8.toNat_ofNat', Nat.mod_eq_of_lt (by omega)] at hmod
    exact absurd hmod (Nat.ne_of_gt hpos)
  rw [hbytes]
  constructor
  · intro b hb
    obtain ⟨c, hc, hmem⟩ := mem_flatMap.1 hb
    rw [(hchar c hc).1, mem_singleton] at hmem
    rw [hmem]
    exact (hchar c hc).2
  · rw [length_flatMap, ← String.length_toList]
    have hones : s.toList.map (fun c => (String.utf8EncodeChar c).length) =
        List.replicate s.toList.length 1 :=
      eq_replicate_iff.2 ⟨by simp, fun n hn => by
        obtain ⟨c, hc, rfl⟩ := mem_map.1 hn
        rw [(hchar c hc).1]
        rfl⟩
    rw [hones, sum_replicate_nat, Nat.mul_one]

theorem endsText_word {a b c d : Nat} (ha : a < 256) (hb : b < 256) (hc : c < 256) (hd : d < 256) :
    endsText (a + 256 * b + 65536 * c + 16777216 * d) = true ↔ a = 0 ∨ b = 0 ∨ c = 0 ∨ d = 0 := by
  have h0 : (a + 256 * b + 65536 * c + 16777216 * d) % 256 = a := by omega
  have h1 : (a + 256 * b + 65536 * c + 16777216 * d) / 256 % 256 = b := by omega
  have h2 : (a + 256 * b + 65536 * c + 16777216 * d) / 65536 % 256 = c := by omega
  have h3 : (a + 256 * b + 65536 * c + 16777216 * d) / 16777216 % 256 = d := by omega
  simp only [endsText, h0, h1, h2, h3, Bool.or_eq_true, decide_eq_true_eq, or_assoc]

/-- The zero byte at the end is in the last word, and in no other. -/
theorem packBytes_text (bytes : List UInt8) (h : ∀ b ∈ bytes, b ≠ 0) : ∃ body last,
    packBytes (bytes ++ [0]) = body ++ [last] ∧ (∀ w ∈ body, endsText w = false) ∧
      endsText last = true ∧ 4 * body.length ≤ bytes.length := by
  have hzero : (0 : Nat) < 256 := by decide
  match bytes, h with
  | [], _ => exact ⟨[], 0, rfl, fun _ hw => absurd hw not_mem_nil, rfl, Nat.le_refl _⟩
  | [a], _ =>
    refine ⟨[], _, rfl, fun _ hw => absurd hw not_mem_nil, ?_, Nat.zero_le _⟩
    exact (endsText_word a.toNat_lt hzero hzero hzero).2 (.inr (.inl rfl))
  | [a, b], _ =>
    refine ⟨[], _, rfl, fun _ hw => absurd hw not_mem_nil, ?_, Nat.zero_le _⟩
    exact (endsText_word a.toNat_lt b.toNat_lt hzero hzero).2 (.inr (.inr (.inl rfl)))
  | [a, b, c], _ =>
    refine ⟨[], _, rfl, fun _ hw => absurd hw not_mem_nil, ?_, Nat.zero_le _⟩
    exact (endsText_word a.toNat_lt b.toNat_lt c.toNat_lt hzero).2 (.inr (.inr (.inr rfl)))
  | a :: b :: c :: d :: rest, h =>
    obtain ⟨body, last, hpack, hbody, hlast, hlength⟩ :=
      packBytes_text rest fun x hx => h x (by simp [hx])
    have hne (x : UInt8) (hx : x ∈ a :: b :: c :: d :: rest) : x.toNat ≠ 0 :=
      fun hzero => h x hx (UInt8.toNat_inj.1 hzero)
    refine ⟨_ :: body, last, congrArg (List.cons _) hpack, ?_, hlast, ?_⟩
    · refine forall_mem_cons.2 ⟨Bool.eq_false_iff.2 fun hends => ?_, hbody⟩
      rcases (endsText_word a.toNat_lt b.toNat_lt c.toNat_lt d.toNat_lt).1 hends with
        hx | hx | hx | hx
      · exact hne a (by simp) hx
      · exact hne b (by simp) hx
      · exact hne c (by simp) hx
      · exact hne d (by simp) hx
    · simp only [length_cons]
      omega

theorem follows_text {s : String} (h : s.toList.all isNamePart = true) (hargs : Follows rest places args) :
    Follows rest (.text :: places) (plain (stringWords s) ++ args) ∧
      4 * (stringWords s).length ≤ s.length + 4 := by
  obtain ⟨hne, hlength⟩ := bytes_name h
  obtain ⟨body, last, hpack, hbody, hlast, hwords⟩ := packBytes_text _ hne
  have hsplit : plain (stringWords s) ++ args = plain body ++ .word last :: args := by
    rw [stringWords, hpack]
    simp [plain]
  refine ⟨hsplit ▸ .text hbody hlast hargs, ?_⟩
  rw [stringWords, hpack, length_append, length_singleton]
  omega

end Spirv
end Microcode
