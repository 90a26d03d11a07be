import Microcode.Access.Division
import Microcode.Resolve

/-!
Reading operands.
-/

namespace Microcode
namespace Access

open Emit

/-- Lanes `start` to `start + take - 1` of a value. -/
structure Segment where
  value : Value
  start : Nat
  take : Nat
  deriving DecidableEq, Repr, Inhabited

/-- Registers that cover `remaining` lanes from lane `first` of register `num` on.  What lies past
the end of the bank reads as zeros, provided that something came before it.  `fuel` bounds the
number of registers. -/
def gatherFrom (bank : Bank) (num : Nat) (first : Int) :
    (fuel got remaining : Nat) → Emit (List Segment)
  | 0, _, _ => return []
  | fuel + 1, got, remaining => do
    if remaining = 0 then return []
    let sub ← offset (first + got)
    match ← attempt (resolve bank num sub false) with
    | .ok found =>
      let take := min (found.register.lanes - found.offset) remaining
      let v ← load found.register.place
      return ⟨v, found.offset, take⟩ :: (← gatherFrom bank num first fuel (got + take) (remaining - take))
    | .error e =>
      if got = 0 || e = .overflow then throw e
      return [⟨← splatConstant (.f32 0#32) remaining, 0, remaining⟩]

def gather (bank : Bank) (num : Nat) (first : Int) (count : Nat) : Emit (List Segment) :=
  gatherFrom bank num first count 0 count

/-- The lanes of a segment as one value. -/
def Segment.compact (s : Segment) : Emit Value := do
  let total ← countOf s.value
  if s.start = 0 && s.take = total then return s.value
  else if s.take = 1 then extract s.value s.start
  else shuffle s.value s.value (List.range' s.start s.take)

def compact (segments : List Segment) : Emit Value := do
  construct (← segments.mapM Segment.compact)

/-- Two values that follow each other, and the lane of the first where the data starts. -/
def twoValues (segments : List Segment) : Emit (Value × Value × Nat) := do
  match segments with
  | [only] => return (only.value, only.value, only.start)
  | [a, b] =>
    if b.start = 0 then return (a.value, b.value, a.start)
    let v ← compact segments
    return (v, v, 0)
  | _ =>
    let v ← compact segments
    return (v, v, 0)

def literalChannels (scalar : Scalar) (swizzle : Swizzle) (mask : Mask) : Emit Value := do
  let parts ← (Mask.components mask).mapM fun i =>
    constant (.ofNumber scalar (swizzle.get i).literal)
  construct parts

/-- Reads a register of lanes. -/
def loadRegister (ctx : Context) (op : Operand) (mask : Mask) (sub : Int) : Emit Value := do
  let element := op.storage
  let scalar := element.scalar
  let ratio := element.ratio
  let storage := (Mask.components mask).filterMap fun i => (op.swizzle.get i).storage?
  match storage.min?, storage.max? with
  | some least, some greatest =>
    let lo := least / ratio
    let hi := greatest / ratio
    let segments ← gather op.bank op.num (← offset (sub + lo)) (hi - lo + 1)
    if ratio = 1 then
      let (left, right, start) ← twoValues segments
      if scalar = .f32 then bridge left right op.swizzle ((start : Int) - lo) mask
      else
        let left ← convert .bitcast left scalar
        let right ← convert .bitcast right scalar
        bridge left right op.swizzle ((start : Int) - lo) mask
    else
      unpack ctx (← compact segments) element op.swizzle mask (-(lo * ratio : Nat))
  | _, _ => literalChannels scalar op.swizzle mask

/-- The constant that component `i` of a constant operand reads.  Components of the first source
read banks of their own. -/
def constantAt (ctx : Context) (op : Operand) (i index : Nat) : Option Lane :=
  if op.element = .f16 then
    ctx.constants.f16? (if op.slot = 0 then i else 0) index
  else
    ctx.constants.f32? (if i = 1 && op.slot = 0 then 1 else 0) index

def loadConstant (ctx : Context) (op : Operand) (mask : Mask) : Emit Value := do
  let parts ← (Mask.components mask).mapM fun i => do
    let channel := op.swizzle.get i
    match channel.literal? with
    | some bits => constant (.f32 bits)
    | none =>
      let index ← word (op.num + channel.storage?.getD 0)
      match constantAt ctx op i index with
      | some bits => constant (.f32 bits)
      | none => throw (.load (op.text mask) .constantIndex)
  let v ← construct parts
  if op.element.scalar = .f32 then return v else convert .numeric v op.element.scalar

/-- What an immediate operand holds in every component: floats are one, integers are the number of
the operand. -/
def immediateFill (op : Operand) : Constant :=
  match op.element.scalar with
  | .f32 | .bool => .f32 Binary32.one
  | .i32 => .i32 (BitVec.ofNat 32 op.num)
  | .u32 => .u32 (BitVec.ofNat 32 op.num)

def loadImmediate (op : Operand) (mask : Mask) : Emit Value := do
  let only? := match Mask.components mask with
    | [i] => (op.swizzle.get i).literal?
    | _ => none
  match only? with
  | some bits => constant (.ofNumber op.element.scalar bits)
  | none =>
    let v ← splatConstant (immediateFill op) (Mask.count mask)
    bridge v v op.swizzle 0 mask

/-- Predicate register that an operand names. -/
def predicateNumber (op : Operand) (sub : Int) : Emit Int :=
  offset ((BitVec.ofNat 32 op.num).toInt + sub)

/-- The components of an operand that a mask selects, in the scalar of its element. -/
def load (ctx : Context) (op : Operand) (mask : Mask) (sub : Int) : Emit Value := do
  let mask := mask % 16
  if mask = 0 then throw (.load (op.text mask) .emptyMask)
  match op.bank with
  | .constant => modify op.modifiers (← loadConstant ctx op mask)
  | .immediate => modify op.modifiers (← loadImmediate op mask)
  | .predicate => Emit.load (← predicatePlace (← predicateNumber op sub))
  | bank =>
    if bank.isRegister then modify op.modifiers (← loadRegister ctx op mask sub)
    else unsupported (.loadBank bank)

end Access
end Microcode
