import Microcode.Access.Store
import Microcode.Lowering.Repeat

/-!
Literals, and transfers between registers and memory.
-/

namespace Microcode
namespace Lowering

open Emit

/-- Writes a literal to one lane. -/
def literal (ctx : Context) (i : Instruction) : Emit Unit := do
  match i.detail with
  | .literal value => Access.store ctx i.dest (← constant (.u32 value)) 0b0001 0 none
  | _ => unsupported .literalMissing

/-- The memory that a base register stands for. -/
def memorySpace (aliases : MemoryAliases) (base : Operand) : MemorySpace :=
  if base.bank ≠ .secondaryAttribute then .global
  else if aliases.literal? = some base.num then .literal
  else if aliases.textureIndex? = some base.num then .textureIndex
  else if aliases.scratch? = some base.num then .scratch
  else .global

/-- The byte offset, if it is fixed by immediates. -/
def fixedOffset (o : Operation) (size : Nat) (expanded : Bool) : Emit (Option Nat) := do
  if o.src1.bank = .immediate && o.src2.bank = .immediate then
    let scaled ← word (o.src1.num * size)
    let sum ← word (scaled + o.src2.num)
    some <$> word (sum + if expanded then 0 else 4)
  else return none

/-- The lane `k` registers after an operand. -/
def nextLane (op : Operand) (k : Nat) : Operand := { op with num := op.num + k }

/-- Reads words at a known place of the literal buffer while compiling. -/
def foldLiterals (ctx : Context) (dest : Operand) (start words : Nat) (condition : Option Value) :
    Emit Unit :=
  (List.range words).forM fun k => do
    match ctx.shader.literal (← word (start + k * 4)) with
    | .error e => throw e
    | .ok bits =>
      Access.store ctx (nextLane dest k) (← constant (.f32 bits)) 0b0001 0 condition
      discard <| word (dest.num + k + 1)

/-- The address of the first word. -/
def address (ctx : Context) (o : Operation) (space : MemorySpace) (size : Nat) (expanded : Bool) :
    Emit Value := do
  let start ←
    if o.src1.bank = .immediate then do
      constant (.i32 (BitVec.ofNat 32 (← word (o.src1.num * size))))
    else do
      let register ← Access.load ctx o.src1 0b0001 0
      binary .sub register (← constant (.i32 0x10000#32))
  let index ← Access.load ctx o.src2 0b0001 0
  let sum ← binary .add start index
  let sum ←
    if space = .global then do binary .add (← Access.load ctx o.src0 0b0001 0) sum
    else pure sum
  let sum ← if expanded then pure sum else do binary .add sum (← constant (.i32 4#32))
  convert .bitcast sum .u32

/-- Moves one word between a lane and memory. -/
def transferWord (ctx : Context) (isStore : Bool) (space : MemorySpace) (base : Value)
    (lane : Operand) (k : Nat) (condition : Option Value) : Emit Unit := do
  let step ← constant (.u32 (BitVec.ofNat 32 (← word (k * 4))))
  let location ← binary .add base step
  if isStore then storeMemory space location (← Access.load ctx lane 0b0001 0)
  else Access.store ctx lane (← fetchMemory space location) 0b0001 0 condition

/-- Moves consecutive words between registers and memory.  Reads of the literal buffer at a known
place are done while compiling. -/
def transfer (ctx : Context) (i : Instruction) : Emit Unit := do
  match i.detail with
  | .memory element count expanded =>
    let size := element.size
    let words := ((← word (size * count)) + 3) / 4
    let space := memorySpace ctx.shader.aliases i.src0
    let isStore := i.opcode = .str
    let condition ← Access.condition i.predicate
    if isStore && condition.isSome then unsupported .predicatedStore
    let dest := { i.dest with element := .f32 }
    let fixed? ←
      if space = .literal && !isStore then fixedOffset i.toOperation size expanded else pure none
    match fixed? with
    | some start => foldLiterals ctx dest start words condition
    | none =>
      let base ← address ctx i.toOperation space size expanded
      (List.range words).forM fun k => do
        transferWord ctx isStore space base (nextLane dest k) k condition
        discard <| word (dest.num + k + 1)
  | _ => unsupported .memoryLayoutMissing

end Lowering
end Microcode
