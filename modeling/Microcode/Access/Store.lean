import Microcode.Access.Load
import Microcode.Access.Numeric
import Microcode.Glsl.Location

/-!
Writing operands.
-/

namespace Microcode
namespace Access

open Emit

/-- The component for `channel`, the `ordinal`-th selected one: a value of four components is
indexed by channel, a narrower one in order, and a scalar goes to every channel. -/
def component (v : Value) (channel ordinal : Nat) : Emit Value := do
  match ← countOf v with
  | 1 => return v
  | 4 => extract v channel
  | count => extract v (min ordinal (count - 1))

/-- Parts of a value by channel, in the scalar of the element. -/
def channels (v : Value) (element : Element) (mask : Mask) : Emit (List (Nat × Value)) :=
  (Mask.components mask).zipIdx.mapM fun (channel, ordinal) => do
    let part ← component v channel ordinal
    return (channel, ← coerce part element.scalar (element.ratio = 1))

/-- The elements a lane holds now. -/
def currentElements (ctx : Context) (dest : Operand) (sub : Int) : Emit Value := do
  let found ← resolve dest.bank dest.num sub true
  let v ← Emit.load found.register.place
  let bits ← if found.register.lanes = 1 then pure v else extract v found.offset
  unpackLane ctx bits dest.storage

/-- The new contents of a divided lane: channels that are not written keep their elements. -/
def mergeLane (ctx : Context) (dest : Operand) (sub : Int) (lane : Nat)
    (parts : List (Nat × Value)) : Emit Value := do
  let element := dest.storage
  let slots := List.range' (lane * element.ratio) element.ratio
  let old ←
    if slots.all fun c => (parts.lookup c).isSome then pure none
    else some <$> currentElements ctx dest (← offset (sub + lane))
  let elements ← slots.mapM fun c => do
    match parts.lookup c, old with
    | some part, _ => return part
    | none, some old => extract old (c - lane * element.ratio)
    | none, none => constant (.zero element.scalar)
  packLane ctx (← construct elements) element

/-- Whether a lane of `ratio` elements holds a written channel. -/
def isTouched (ratio lane : Nat) (parts : List (Nat × Value)) : Bool :=
  (List.range' (lane * ratio) ratio).any fun c => (parts.lookup c).isSome

/-- The lanes that a write changes, with their new contents. -/
def laneWrites (ctx : Context) (dest : Operand) (sub : Int) (parts : List (Nat × Value)) :
    Emit (List (Nat × Value)) := do
  let ratio := dest.storage.ratio
  if ratio = 1 then
    parts.mapM fun (channel, part) => do return (channel, ← coerce part .f32 true)
  else
    ((List.range (4 / ratio)).filter (isTouched ratio · parts)).mapM fun lane => do
      return (lane, ← mergeLane ctx dest sub lane parts)

/-- Whether two registers are the same to the target of a listing. -/
def sameRegister (l : Listing) (a b : Register) : Bool :=
  a.lanes = b.lanes && a.base = b.base && l.samePlace a.place b.place

/-- Adds a lane to its register's group; groups stand in the order of their first lane. -/
def addToGroup (l : Listing) (found : Resolved) (v : Value) :
    List (Register × List (Nat × Value)) → List (Register × List (Nat × Value))
  | [] => [(found.register, [(found.offset, v)])]
  | (register, lanes) :: rest =>
    if sameRegister l register found.register then
      (register, lanes ++ [(found.offset, v)]) :: rest
    else (register, lanes) :: addToGroup l found v rest

/-- Lanes by the register that holds them. -/
def groupLanes (bank : Bank) (num : Nat) (sub : Int) (writes : List (Nat × Value)) :
    Emit (List (Register × List (Nat × Value))) :=
  writes.foldlM
    (fun groups (lane, v) => do
      let found ← resolve bank num (← offset (sub + lane)) true
      return addToGroup (← get).listing found v groups) []

/-- Replaces lanes of a register, which are given in ascending order. -/
def replaceLanes (register : Register) (lanes : List (Nat × Value)) : Emit Value := do
  if lanes.length = register.lanes then construct (lanes.map Prod.snd)
  else
    let old ← Emit.load register.place
    match lanes with
    | [(index, part)] => insert old part index
    | _ =>
      let written ← construct (lanes.map Prod.snd)
      shuffle old written <| (List.range register.lanes).map fun j =>
        match lanes.findIdx? fun (index, _) => index = j with
        | some k => register.lanes + k
        | none => j

def writeRegister (register : Register) (v : Value) (condition : Option Value) : Emit Unit := do
  Emit.store register.place (← guarded register.place v condition)

def writeLanes (bank : Bank) (num : Nat) (sub : Int) (writes : List (Nat × Value))
    (condition : Option Value) : Emit Unit := do
  (← groupLanes bank num sub writes).forM fun (register, lanes) => do
    writeRegister register (← replaceLanes register lanes) condition

/-- A predicate register takes the first component; a number counts as true unless it is zero. -/
def storePredicate (dest : Operand) (v : Value) (sub : Int) (condition : Option Value) :
    Emit Unit := do
  let place ← predicatePlace (← predicateNumber dest sub)
  let shape ← shapeOf v
  let v ← if 1 < shape.count then extract v 0 else pure v
  let v ←
    if shape.scalar = .bool then pure v
    else do compare .ne v (← constant (.zero shape.scalar))
  Emit.store place (← guarded place v condition)

/-- The register that a write of four whole lanes replaces. -/
def wholeRegister? (dest : Operand) (shape : Shape) (mask : Mask) (sub : Int) :
    Emit (Option Register) := do
  if dest.storage.ratio = 1 && mask = 0b1111 && shape.count = 4 then
    let found ← resolve dest.bank dest.num sub true
    if found.offset = 0 && found.register.lanes = 4 then return some found.register
  return none

/-- Writes the channels that a mask selects, where the condition holds. -/
def storeRegister (ctx : Context) (dest : Operand) (v : Value) (mask : Mask) (sub : Int)
    (condition : Option Value) : Emit Unit := do
  match ← wholeRegister? dest (← shapeOf v) mask sub with
  | some register =>
    let typed ← coerce v dest.storage.scalar true
    writeRegister register (← coerce typed .f32 true) condition
  | none =>
    let parts ← channels v dest.storage mask
    let writes ← laneWrites ctx dest sub parts
    writeLanes dest.bank dest.num sub writes condition

/-- Writes a value to an operand. -/
def store (ctx : Context) (dest : Operand) (v : Value) (mask : Mask) (sub : Int)
    (condition : Option Value) : Emit Unit := do
  let mask := mask % 16
  if mask = 0 then return
  match dest.bank with
  | .predicate => storePredicate dest v sub condition
  | bank =>
    if bank.isRegister then storeRegister ctx dest v mask sub condition
    else unsupported (.storeBank bank)

end Access
end Microcode
