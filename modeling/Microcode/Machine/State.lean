import Microcode.Machine.Arithmetic
import Microcode.Machine.Program
import Microcode.Quad

/-!
Machine states and execution.
-/

namespace Microcode
namespace Machine

/-- What one value or one group of a variable holds. -/
abbrev Lanes := Quad Lane

/-- Bytes of the memories. -/
structure Memory where
  global : Array (BitVec 8) := #[]
  literal : Array (BitVec 8) := #[]
  textureIndex : Array (BitVec 8) := #[]
  scratch : Array (BitVec 8) := #[]
  deriving DecidableEq, Repr, Inhabited

namespace Memory

def bytes (m : Memory) : MemorySpace → Array (BitVec 8)
  | .global => m.global
  | .literal => m.literal
  | .textureIndex => m.textureIndex
  | .scratch => m.scratch

def setBytes (m : Memory) (space : MemorySpace) (bytes : Array (BitVec 8)) : Memory :=
  match space with
  | .global => { m with global := bytes }
  | .literal => { m with literal := bytes }
  | .textureIndex => { m with textureIndex := bytes }
  | .scratch => { m with scratch := bytes }

/-- The little-endian word at a byte offset; zero unless all four bytes are there. -/
def fetch (m : Memory) (space : MemorySpace) (offset : Nat) : Lane :=
  let bytes := m.bytes space
  if offset + 4 ≤ bytes.size then
    bytes.getD (offset + 3) 0 ++ bytes.getD (offset + 2) 0 ++ bytes.getD (offset + 1) 0 ++
      bytes.getD offset 0
  else 0#32

/-- Writes a little-endian word, after extending the memory with zeros to hold it. -/
def store (m : Memory) (space : MemorySpace) (offset : Nat) (word : Lane) : Memory :=
  let bytes := m.bytes space
  let bytes := bytes ++ Array.replicate (offset + 4 - bytes.size) 0#8
  m.setBytes space <|
    (List.range 4).foldl (fun b k => b.setIfInBounds (offset + k) (word.extractLsb' (8 * k) 8)) bytes

end Memory

structure State where
  values : Array Lanes
  vars : Array (Array Lanes)
  memory : Memory := {}
  deriving DecidableEq, Repr, Inhabited

namespace State

/-- Everything is zero but the constants. -/
def initial (p : Program) : State where
  values := p.constants.foldl
    (fun values (v, bits) => values.setIfInBounds v.index ⟨bits, 0#32, 0#32, 0#32⟩)
    (Array.replicate p.shapes.size (.replicate 0#32))
  vars := p.vars.map fun v => Array.replicate v.length (.replicate 0#32)

def lanes (s : State) (v : Value) : Lanes := s.values.getD v.index (.replicate 0#32)

/-- Lane `i` of a value; a scalar has the same lane everywhere. -/
def lane (p : Program) (s : State) (v : Value) (i : Nat) : Lane :=
  if p.countOf v = 1 then (s.lanes v).x else (s.lanes v).get i

/-- The element of a place: the last index of its path, or the first element. -/
def elementIndex (place : Place) : Nat := place.path.getLast?.getD 0

/-- Reading past the end of an array gives zeros. -/
def read (s : State) (place : Place) : Lanes :=
  (s.vars.getD place.variableIndex #[]).getD (elementIndex place) (.replicate 0#32)

/-- Writing past the end of an array does nothing. -/
def write (s : State) (place : Place) (lanes : Lanes) : State :=
  let update (elements : Array Lanes) := elements.setIfInBounds (elementIndex place) lanes
  { s with vars := s.vars.modify place.variableIndex update }

/-- The first `count` lanes of `f`, and zeros after them. -/
def fill (count : Nat) (f : Nat → Lane) : Lanes := .ofFn fun i => if i < count then f i else 0#32

def single (a : Lane) : Lanes := ⟨a, 0#32, 0#32, 0#32⟩

/-- Lanes of the value an operation defines. -/
def eval (p : Program) (s : State) (shape : Shape) (op : Op) : Lanes :=
  let lane (v : Value) (i : Nat) := s.lane p v i
  let scalar (v : Value) := (p.shapeOf v).scalar
  match op with
  | .constant c => single c.lane
  | .construct parts =>
    let joined := parts.flatMap fun v => (List.range (p.countOf v)).map (lane v)
    fill shape.count fun i => joined.getD i 0#32
  | .load place => s.read place
  | .extract v index => single (lane v index)
  | .insert v part index => (s.lanes v).set (index % 4) (lane part 0)
  | .shuffle a b indices =>
    let left := p.countOf a
    let picked := indices.map fun i => if i < left then lane a i else lane b (i - left)
    fill shape.count fun i => picked.getD i 0#32
  | .binary op a b => fill shape.count fun i => binary op (scalar a) (lane a i) (lane b i)
  | .unary op a => fill shape.count fun i => unary op (scalar a) (lane a i)
  | .compare op a b =>
    fill shape.count fun i => ofBool (compare op (scalar a) (lane a i) (lane b i))
  | .select c a b => fill shape.count fun i => if lane c i ≠ 0#32 then lane a i else lane b i
  | .builtin .dot args =>
    let x := args.getD 0 default
    let y := args.getD 1 default
    single (dot ((List.range (p.countOf x)).map fun i => (lane x i, lane y i)))
  | .builtin f args => fill shape.count fun i => builtin f (args.map fun v => lane v i)
  | .convert conversion v target =>
    fill shape.count fun i => convert conversion (scalar v) target (lane v i)
  | .helper (.unpack encoding) v =>
    let word := lane v 0
    ⟨unpackHalf encoding (word.setWidth 16), unpackHalf encoding ((word >>> 16).setWidth 16),
      0#32, 0#32⟩
  | .helper (.pack encoding) v =>
    single (packHalf encoding (lane v 1) ++ packHalf encoding (lane v 0))
  | .fetch space offset => single (s.memory.fetch space (lane offset 0).toNat)

def step (p : Program) (call : Nat → State → State) (s : State) : Instr → State
  | .define v shape op => { s with values := s.values.setIfInBounds v.index (s.eval p shape op) }
  | .store place v => s.write place (s.lanes v)
  | .storeMemory space offset v =>
    { s with memory := s.memory.store space (s.lane p offset 0).toNat (s.lane p v 0) }
  | .call f => call f s

/-- Runs a function, with at most `depth` functions open at a time. -/
def exec (p : Program) : Nat → Nat → State → State
  | 0, _, s => s
  | depth + 1, f, s => (p.functions.getD f #[]).foldl (step p (exec p depth)) s

/-- Runs the entry point.  A function calls only functions that were begun before it, so no more
functions are ever open than there are. -/
def run (p : Program) (s : State) : State := exec p p.functions.size 0 s

end State

/-- Why lanes cannot be put into a variable. -/
inductive SeedError where
  | unknownVariable (name : String)
  | tooManyLanes (name : String) (capacity got : Nat)
  deriving DecidableEq, Repr

def SeedError.message : SeedError → String
  | unknownVariable name => "no variable named `" ++ name ++ "`"
  | tooManyLanes name capacity got =>
    "variable `" ++ name ++ "` holds " ++ toString capacity ++ " lanes, got " ++ toString got

namespace State

/-- Puts lanes into the named variable, element after element. -/
def seed (p : Program) (s : State) (name : String) (lanes : List Lane) : Except SeedError State :=
  match p.variableIndex? name with
  | none => .error (.unknownVariable name)
  | some index =>
    let v := p.vars.getD index default
    let width := v.shape.count
    if width * v.length < lanes.length then
      .error (.tooManyLanes name (width * v.length) lanes.length)
    else
      let update (elements : Array Lanes) := lanes.zipIdx.foldl
        (fun elements (a, i) => elements.modify (i / width) (·.set (i % width) a)) elements
      .ok { s with vars := s.vars.modify index update }

/-- Lanes of a variable, element after element. -/
def variableLanes (p : Program) (s : State) (index : Nat) : List Lane :=
  let width := (p.vars.getD index default).shape.count
  (s.vars.getD index #[]).toList.flatMap fun element => element.toList.take width

def lanes? (p : Program) (s : State) (name : String) : Option (List Lane) :=
  (p.variableIndex? name).map (s.variableLanes p)

end State
end Machine
end Microcode
