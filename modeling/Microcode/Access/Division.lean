import Microcode.Access.Bridge
import Microcode.Shader

/-!
Division of lanes into elements.

A lane holds one element of 32 bits, two of 16 or four bytes, the lowest bits first.  `unpackLane`
gives the elements of a lane as numbers, and `packLane` joins them again.
-/

namespace Microcode
namespace Access

open Emit

/-- An integer constant of a scalar. -/
def integer (scalar : Scalar) (n : Nat) : Constant :=
  if scalar = .i32 then .i32 (BitVec.ofNat 32 n) else .u32 (BitVec.ofNat 32 n)

/-- Fields of `width` bits: each is shifted to the top and back down. -/
def splitBits (lane : Value) (width : Nat) (signed : Bool) : Emit Value := do
  let count := 32 / width
  let scalar := if signed then Scalar.i32 else .u32
  let bits ← convert .bitcast lane scalar
  let spread ← splat bits count
  let ups ← (List.range count).mapM fun k => constant (integer scalar (32 - width * (k + 1)))
  let up ← construct ups
  let down ← splatConstant (integer scalar (32 - width)) count
  let raised ← binary .shl spread up
  binary (if signed then .asr else .shr) raised down

/-- Joins unsigned fields of `width` bits. -/
def joinBits (bits : Value) (width : Nat) : Emit Value := do
  let count := 32 / width
  let field ← splatConstant (.u32 (BitVec.ofNat 32 (1 <<< width - 1))) count
  let masked ← binary .and bits field
  let amounts ← (List.range count).mapM fun k => constant (.u32 (BitVec.ofNat 32 (k * width)))
  let placed ← binary .shl masked (← construct amounts)
  let first ← extract placed 0
  let word ← (List.range' 1 (count - 1)).foldlM
    (fun word k => do binary .or word (← extract placed k)) first
  convert .bitcast word .f32

def byteBias : Constant := .i32 128#32

/-- `1 / 255`. -/
def colorStep : Constant := .f32 (Binary32.div Binary32.one Element.c10.maximum)

/-- Elements of one lane, in the scalar they are computed in. -/
def unpackLane (ctx : Context) (lane : Value) (element : Element) : Emit Value := do
  match element with
  | .f16 => helper (.unpack ctx.halfEncoding) lane
  | .s16 | .u16 => splitBits lane 16 element.isSigned
  | .s8 | .u8 => splitBits lane 8 element.isSigned
  | .o8 =>
    let bytes ← splitBits lane 8 false
    let bytes ← convert .bitcast bytes .i32
    let bias ← splatConstant byteBias 4
    binary .sub bytes bias
  | .c10 =>
    let bytes ← splitBits lane 8 false
    let floats ← convert .numeric bytes .f32
    let scale ← splatConstant colorStep 4
    binary .mul floats scale
  | .f32 | .s32 | .u32 | .unknown =>
    if element.scalar = .f32 then return lane else convert .bitcast lane element.scalar

def asUnsigned (v : Value) : Emit Value := do
  if (← scalarOf v) = .u32 then return v else convert .bitcast v .u32

/-- Numbers between zero and one as parts of `maximum`, rounded. -/
def toUnorm (v : Value) (maximum : Lane) : Emit Value := do
  let count ← countOf v
  let zero ← splatConstant (.f32 0#32) count
  let one ← splatConstant (.f32 Binary32.one) count
  let scale ← splatConstant (.f32 maximum) count
  let clamped ← builtin .clamp [v, zero, one]
  let scaled ← binary .mul clamped scale
  let rounded ← builtin .round [scaled]
  convert .numeric rounded .u32

/-- One lane that holds the elements. -/
def packLane (ctx : Context) (elements : Value) (element : Element) : Emit Value := do
  match element with
  | .f16 => helper (.pack ctx.halfEncoding) elements
  | .s16 | .u16 => joinBits (← asUnsigned elements) 16
  | .s8 | .u8 => joinBits (← asUnsigned elements) 8
  | .o8 =>
    let bias ← splatConstant byteBias 4
    let biased ← binary .add elements bias
    joinBits (← asUnsigned biased) 8
  | .c10 => joinBits (← toUnorm elements Element.c10.maximum) 8
  | .f32 | .s32 | .u32 | .unknown =>
    if (← scalarOf elements) = .f32 then return elements else convert .bitcast elements .f32

/-- The values of a list up to the place where they hold `limit` elements, and the rest. -/
def splitParts (parts : List Value) (ratio limit : Nat) : List Value × List Value :=
  parts.splitAt ((limit + ratio - 1) / ratio)

/-- Divides every lane of `packed`, and applies a swizzle to the sequence of elements. -/
def unpack (ctx : Context) (packed : Value) (element : Element) (swizzle : Swizzle) (mask : Mask)
    (shift : Int) : Emit Value := do
  let lanes ← countOf packed
  let parts ← (List.range lanes).mapM fun k => do unpackLane ctx (← extract packed k) element
  let (first, rest) := splitParts parts element.ratio 4
  let left ← construct first
  let right ← if rest.isEmpty then pure left else construct rest
  bridge left right swizzle shift mask

end Access
end Microcode
