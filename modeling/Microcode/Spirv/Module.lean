import Microcode.Spirv.Writer

/-!
Finished SPIR-V modules and their words.
-/

namespace Microcode
namespace Spirv

/-- A module: the instructions in their order, and a bound above all ids. -/
structure Module where
  bound : Id
  instructions : List Instr
  deriving DecidableEq, Repr

/-- What every module begins with, and the entry point with its interface. -/
def preamble (d : Draft) : List Instr :=
  [{ opcode := .capability, arguments := [.word 1] },
   { opcode := .extInstImport, result? := some mathId,
     arguments := plain (stringWords "GLSL.std.450") },
   { opcode := .memoryModel, arguments := plain [0, 1] },
   { opcode := .entryPoint,
     arguments := .word (if d.stage = .fragment then 4 else 0) :: .id entryId ::
       plain (stringWords "main") ++ ids d.interface.toList }] ++
  if d.stage = .fragment then [{ opcode := .executionMode, arguments := [.id entryId, .word 7] }]
  else []

def entryFunction (d : Draft) (void type label : Id) : List Instr :=
  [{ opcode := .function, type? := some void, result? := some entryId,
     arguments := [.word 0, .id type] },
   { opcode := .label, result? := some label }] ++ d.entry.toList ++
  [{ opcode := .return }, { opcode := .functionEnd }]

def finish : Draw Module := do
  closeFunction
  let void ← voidType
  let type ← functionType void []
  let label ← freshId
  let d ← get
  return {
    bound := d.bound
    instructions := preamble d ++ d.names.toList ++ d.annotations.toList ++ d.globals.toList ++
      d.functions.toList ++ entryFunction d void type label }

/-- The module of a listing. -/
def Module.ofListing (stage : Stage) (l : Listing) : Module :=
  let draw : Draw Module := do
    addName entryId "main"
    l.entries.forM write
    finish
  (draw.run { stage := stage }).1

/-- The header: a magic number, the version, the generator, the bound and a zero. -/
def Module.header (m : Module) : List Lane :=
  [0x07230203#32, 0x00010300#32, 0#32, BitVec.ofNat 32 m.bound, 0#32]

def Module.words (m : Module) : List Lane := m.header ++ m.instructions.flatMap Instr.words

end Spirv

/-- A listing as a SPIR-V module. -/
def Listing.spirv (l : Listing) (stage : Stage) : Spirv.Module := Spirv.Module.ofListing stage l

end Microcode
