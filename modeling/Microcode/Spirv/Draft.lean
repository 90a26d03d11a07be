import Microcode.Code.Listing
import Microcode.Spirv.Instr

/-!
Modules in the making: ids, and the types, constants, buffers and helpers that are declared once.
-/

namespace Microcode
namespace Spirv

/-- Types that are declared once. -/
inductive TypeKey where
  | void
  | value (shape : Shape)
  | pointer (region : Region) (pointee : Id)
  | function (result : Id) (parameters : List Id)
  deriving DecidableEq, Repr

/-- A value: its id and its shape. -/
structure Term where
  id : Id
  shape : Shape
  deriving DecidableEq, Repr, Inhabited

structure Draft where
  stage : Stage
  /-- The next id.  The first two are the mathematics and the entry point. -/
  bound : Id := 3
  names : Array Instr := #[]
  annotations : Array Instr := #[]
  globals : Array Instr := #[]
  functions : Array Instr := #[]
  entry : Array Instr := #[]
  /-- Code of the open function; without one the code goes to the entry point. -/
  opened : Option (Array Instr) := none
  interface : Array Id := #[]
  types : List (TypeKey × Id) := []
  constants : List ((Scalar × Lane) × Id) := []
  helpers : List (Helper × Id) := []
  buffers : List (MemorySpace × Id) := []
  terms : Array Term := #[]
  vars : Array (Id × Variable) := #[]
  functionIds : Array Id := #[]
  deriving Inhabited

/-- The extended instruction set for mathematics. -/
def mathId : Id := 1

def entryId : Id := 2

abbrev Draw := StateM Draft

def freshId : Draw Id := modifyGet fun d => (d.bound, { d with bound := d.bound + 1 })

def addName (target : Id) (name : String) : Draw Unit :=
  let i : Instr := { opcode := .name, arguments := .id target :: plain (stringWords name) }
  modify fun d => { d with names := d.names.push i }

def annotate (i : Instr) : Draw Unit := modify fun d =>
  { d with annotations := d.annotations.push i }

def decorate (target : Id) (decoration : Decoration) : Draw Unit :=
  annotate { opcode := .decorate, arguments := .id target :: plain decoration.words }

def global (i : Instr) : Draw Unit := modify fun d => { d with globals := d.globals.push i }

def emit (i : Instr) : Draw Unit := modify fun d =>
  match d.opened with
  | some code => { d with opened := some (code.push i) }
  | none => { d with entry := d.entry.push i }

/-- A type, declared when it is first used. -/
def sharedType (key : TypeKey) (opcode : Opcode) (arguments : List Argument) : Draw Id := do
  match (← get).types.lookup key with
  | some id => return id
  | none =>
    let id ← freshId
    global { opcode := opcode, result? := some id, arguments := arguments }
    modify fun d => { d with types := (key, id) :: d.types }
    return id

def voidType : Draw Id := sharedType .void .typeVoid []

def scalarType (s : Shape) : Draw Id :=
  match s.scalar with
  | .f32 => sharedType (.value s) .typeFloat (plain [32])
  | .i32 => sharedType (.value s) .typeInt (plain [32, 1])
  | .u32 => sharedType (.value s) .typeInt (plain [32, 0])
  | .bool => sharedType (.value s) .typeBool []

def typeId (s : Shape) : Draw Id := do
  if 1 < s.count then
    match (← get).types.lookup (.value s) with
    | some id => return id
    | none =>
      let component ← scalarType ⟨s.scalar, 1⟩
      sharedType (.value s) .typeVector [.id component, .word s.count]
  else scalarType s

def pointerType (region : Region) (pointee : Id) : Draw Id :=
  sharedType (.pointer region pointee) .typePointer [.word region.code, .id pointee]

def functionType (result : Id) (parameters : List Id) : Draw Id :=
  sharedType (.function result parameters) .typeFunction (ids (result :: parameters))

/-- A constant, declared when it is first used. -/
def constantId (scalar : Scalar) (bits : Lane) : Draw Id := do
  match (← get).constants.lookup (scalar, bits) with
  | some id => return id
  | none =>
    let type ← typeId ⟨scalar, 1⟩
    let id ← freshId
    let (opcode, arguments) := match scalar with
      | .bool => (if bits ≠ 0#32 then Opcode.constantTrue else .constantFalse, [])
      | _ => (.constant, plain [bits.toNat])
    global { opcode := opcode, type? := some type, result? := some id, arguments := arguments }
    modify fun d => { d with constants := ((scalar, bits), id) :: d.constants }
    return id

/-- An index as a constant. -/
def indexId (n : Nat) : Draw Id := constantId .u32 (BitVec.ofNat 32 n)

/-- An instruction with a result of its own. -/
def result (opcode : Opcode) (shape : Shape) (arguments : List Argument) : Draw Term := do
  let type ← typeId shape
  let id ← freshId
  emit { opcode := opcode, type? := some type, result? := some id, arguments := arguments }
  return ⟨id, shape⟩

def mathResult (f : MathFunction) (shape : Shape) (args : List Id) : Draw Term :=
  result .extInst shape (.id mathId :: .word f.code :: ids args)

/-- Declares a block that holds an array, and a variable of it. -/
def declareBlock (array : Id) (stride : Nat) (region : Region) (set binding : Nat) : Draw Id := do
  decorate array (.arrayStride stride)
  let block ← freshId
  global { opcode := .typeStruct, result? := some block, arguments := [.id array] }
  decorate block .block
  annotate { opcode := .memberDecorate, arguments := .id block :: plain [0, 35, 0] }
  let pointer ← pointerType region block
  let id ← freshId
  global { opcode := .variable, type? := some pointer, result? := some id,
           arguments := [.word region.code] }
  decorate id (.descriptorSet set)
  decorate id (.binding binding)
  return id

def declareUniformArray (v : Variable) (binding : Nat) : Draw Id := do
  let element ← typeId v.shape
  let length ← indexId v.length
  let array ← freshId
  global { opcode := .typeArray, result? := some array, arguments := ids [element, length] }
  declareBlock array 16 .uniform 0 binding

/-- The buffer of words behind a memory, declared when it is first used. -/
def buffer (space : MemorySpace) : Draw Id := do
  match (← get).buffers.lookup space with
  | some id => return id
  | none =>
    let word ← typeId Shape.u32
    let array ← freshId
    global { opcode := .typeRuntimeArray, result? := some array, arguments := ids [word] }
    let id ← declareBlock array 4 .storageBuffer 1 space.binding
    addName id space.name
    modify fun d => { d with buffers := (space, id) :: d.buffers }
    return id

/-- Body of a helper between its label and its return, from `argument` through `middle` to
`result`. -/
def helperBody (h : Helper) (float pair word argument middle result : Id) : List Instr :=
  let math (f : MathFunction) (type id arg : Id) : Instr :=
    { opcode := .extInst, type? := some type, result? := some id,
      arguments := [.id mathId, .word f.code, .id arg] }
  let cast (type id arg : Id) : Instr :=
    { opcode := .bitcast, type? := some type, result? := some id, arguments := [.id arg] }
  match h with
  | .unpack .unorm16 => [cast word middle argument, math .unpackUnorm2x16 pair result middle]
  | .unpack .ieee => [cast word middle argument, math .unpackHalf2x16 pair result middle]
  | .pack .unorm16 => [math .packUnorm2x16 word middle argument, cast float result middle]
  | .pack .ieee => [math .packHalf2x16 word middle argument, cast float result middle]

/-- A helper function, defined when it is first called. -/
def helper (h : Helper) : Draw Id := do
  match (← get).helpers.lookup h with
  | some id => return id
  | none =>
    let float ← typeId Shape.f32
    let pair ← typeId ⟨.f32, 2⟩
    let word ← typeId Shape.u32
    let (returned, parameter) := match h with
      | .unpack _ => (pair, float)
      | .pack _ => (float, pair)
    let type ← functionType returned [parameter]
    let id ← freshId
    let argument ← freshId
    let label ← freshId
    let middle ← freshId
    let last ← freshId
    addName id h.name
    let code : List Instr :=
      [{ opcode := .function, type? := some returned, result? := some id,
         arguments := [.word 0, .id type] },
       { opcode := .functionParameter, type? := some parameter, result? := some argument },
       { opcode := .label, result? := some label }] ++
      helperBody h float pair word argument middle last ++
      [{ opcode := .returnValue, arguments := [.id last] }, { opcode := .functionEnd }]
    modify fun d => { d with functions := d.functions ++ code.toArray,
                             helpers := (h, id) :: d.helpers }
    return id

end Spirv
end Microcode
