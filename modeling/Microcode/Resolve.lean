import Microcode.Emit

/-!
Resolution of lanes to storage.

A lane of an attribute bank is read from the shadow of its group once there is one, and written
only there; the first write to a group makes its shadow, seeded with what the group holds.  A lane
of the secondary attributes that nothing backs gets a shadow when it is first touched.
-/

namespace Microcode
namespace Emit

def bind (bank : Bank) (base : Nat) (binding : Binding) : Emit Unit := do
  setRegisters ((← getRegisters).bind bank base binding)

/-- The binding that covers a lane; its end is a 32-bit lane number. -/
def findBinding (bank : Bank) (lane : Nat) : Emit (Option (Nat × Binding)) := do
  match (← getRegisters).candidate? bank lane with
  | none => return none
  | some (base, binding) =>
    let lanes ← word binding.lanes
    let stop ← word (base + lanes)
    return if lane < stop then some (base, binding) else none

/-- The register bound to a lane.  An array is divided into groups of four lanes. -/
def lookup (bank : Bank) (lane : Nat) : Emit (Option Resolved) := do
  match ← findBinding bank lane with
  | none => return none
  | some (base, .vector place lanes) => return some ⟨⟨place, lanes, base⟩, lane - base⟩
  | some (base, .array place _) =>
    let index := (lane - base) / 4
    let place ← element place index
    return some ⟨⟨place, 4, base + index * 4⟩, (lane - base) % 4⟩

/-- Declares a hidden group for every group of four lanes below `lanes` of which nothing is
bound. -/
def declareBank (bank : Bank) (lanes : Nat) : Emit Unit :=
  (List.range ((lanes + 3) / 4)).forM fun k => do
    let group := 4 * k
    let registers ← getRegisters
    if (List.range 4).any fun i => registers.isBound bank (group + i) then return
    let place ← declare ⟨bank.name ++ toString group, Shape.group, .hidden⟩
    bind bank group (.vector place 4)

/-- The lanes of a group as parts of one value: what is bound is loaded and what is not is zero.
`fuel` bounds the number of parts. -/
def groupParts (bank : Bank) (stop : Nat) : (fuel lane : Nat) → Emit (List Value)
  | 0, _ => return []
  | fuel + 1, lane => do
    if stop ≤ lane then return []
    match ← lookup bank lane with
    | some found =>
      let v ← load found.register.place
      let take := min (found.register.lanes - found.offset) (stop - lane)
      let part ←
        if found.offset = 0 && take = found.register.lanes then pure v
        else shuffle v v (List.range' found.offset take)
      return part :: (← groupParts bank stop fuel (lane + take))
    | none =>
      let part ← constant (.f32 0#32)
      return part :: (← groupParts bank stop fuel (lane + 1))

/-- Makes the shadow of a group and seeds it. -/
def makeShadow (bank : Bank) (group : Nat) : Emit Register := do
  let place ← declare ⟨bank.name ++ toString group ++ "_shadow", Shape.group, .hidden⟩
  let stop ← word (group + 4)
  let seed ← construct (← groupParts bank stop 4 group)
  store place seed
  setRegisters ((← getRegisters).addShadow bank group place)
  return ⟨place, 4, group⟩

/-- Lane number of a register: internal registers are four lanes wide. -/
def laneNumber (bank : Bank) (index : Nat) (sub : Int) : Int :=
  (if bank = .internal then 4 * (index : Int) else index) + sub

/-- Storage of lane `sub` counted from register `index`. -/
def resolve (bank : Bank) (index : Nat) (sub : Int) (forStore : Bool) : Emit Resolved := do
  let number := laneNumber bank index sub
  if number < 0 || 0x100000000 ≤ number then throw (.unresolved bank index)
  let lane := number.toNat
  let group := lane / 4 * 4
  let registers ← getRegisters
  match if bank.isShadowed then registers.shadow? bank group else none with
  | some register => return ⟨register, lane - group⟩
  | none =>
    if bank.isShadowed && forStore then return ⟨← makeShadow bank group, lane - group⟩
    match ← lookup bank lane with
    | some found => return found
    | none =>
      if bank = .secondaryAttribute then return ⟨← makeShadow bank group, lane - group⟩
      throw (.unresolved bank index)

/-- Storage of a predicate register, declared when it is first used. -/
def predicatePlace (n : Int) : Emit Place := do
  if n < 0 || 4 ≤ n then throw (.unresolved .predicate n.toNat)
  let slot := n.toNat
  let registers ← getRegisters
  match registers.predicates.get slot with
  | some place => return place
  | none =>
    let place ← declare ⟨"p" ++ toString slot, Shape.bool, .hidden⟩
    setRegisters { registers with predicates := registers.predicates.set slot (some place) }
    return place

end Emit
end Microcode
