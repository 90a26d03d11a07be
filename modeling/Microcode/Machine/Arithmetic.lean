import Microcode.Code.Operator
import Microcode.Numeric.Binary16
import Microcode.Numeric.PowerOfTwo

/-!
Meaning of the operators on single lanes.
-/

namespace Microcode
namespace Machine

/-- Bitwise operations and shifts; amounts are taken modulo 32. -/
def bitwise (op : BinaryOp) (a b : Lane) : Lane :=
  match op with
  | .and => a &&& b
  | .or => a ||| b
  | .xor => a ^^^ b
  | .shl => a <<< (b.toNat % 32)
  | .shr => a >>> (b.toNat % 32)
  | .asr => a.sshiftRight (b.toNat % 32)
  | _ => 0#32

/-- Signed division toward zero; what has no quotient gives zero. -/
def signedDiv (a b : Lane) : Lane :=
  if b = 0#32 || (a = BitVec.intMin 32 && b = BitVec.allOnes 32) then 0#32 else a.sdiv b

def binary (op : BinaryOp) (scalar : Scalar) (a b : Lane) : Lane :=
  match scalar, op with
  | .f32, .add => Binary32.add a b
  | .f32, .sub => Binary32.sub a b
  | .f32, .mul => Binary32.mul a b
  | .f32, .div => Binary32.div a b
  | .f32, .min => Binary32.min a b
  | .f32, .max => Binary32.max a b
  | .i32, .add | .u32, .add => a + b
  | .i32, .sub | .u32, .sub => a - b
  | .i32, .mul | .u32, .mul => a * b
  | .i32, .div => signedDiv a b
  | .i32, .min => if b.slt a then b else a
  | .i32, .max => if a.slt b then b else a
  | .u32, .div => a / b
  | .u32, .min => if b < a then b else a
  | .u32, .max => if a < b then b else a
  | .bool, .and | .bool, .min | .bool, .mul => a &&& b &&& 1#32
  | .bool, .or | .bool, .max | .bool, .add => (a ||| b) &&& 1#32
  | .bool, _ => (a ^^^ b) &&& 1#32
  | _, _ => bitwise op a b

def unary (op : UnaryOp) (scalar : Scalar) (a : Lane) : Lane :=
  match op, scalar with
  | .neg, .f32 => Binary32.neg a
  | .neg, _ => -a
  | .abs, .f32 => Binary32.abs a
  | .abs, .i32 => a.abs
  | .abs, _ => a
  | .not, .bool => if a = 0#32 then 1#32 else 0#32
  | .not, _ => ~~~a

/-- Position of a lane in the order of its scalar. -/
def position (scalar : Scalar) (a : Lane) : Option Int :=
  match scalar with
  | .f32 => Binary32.position a
  | .i32 => some a.toInt
  | .u32 | .bool => some a.toNat

def ofBool (b : Bool) : Lane := if b then 1#32 else 0#32

/-- Comparison; with a NaN only inequality holds. -/
def compare (op : CompareOp) (scalar : Scalar) (a b : Lane) : Bool :=
  match position scalar a, position scalar b with
  | some p, some q =>
    match op with
    | .eq => p = q
    | .ne => p ≠ q
    | .lt => p < q
    | .le => p ≤ q
    | .gt => q < p
    | .ge => q ≤ p
  | _, _ => op = .ne

/-- A builtin on the lanes of its arguments; a missing argument is zero.  A single invocation has
no neighbours, so its derivatives vanish. -/
def builtin (f : Builtin) (args : List Lane) : Lane :=
  let x := args.getD 0 0#32
  let y := args.getD 1 0#32
  let z := args.getD 2 0#32
  match f with
  | .floor => Binary32.floor x
  | .fract => Binary32.sub x (Binary32.floor x)
  | .round => Binary32.roundAway x
  | .sign =>
    if Binary32.lt 0#32 x then Binary32.one
    else if Binary32.lt x 0#32 then Binary32.neg Binary32.one
    else 0#32
  | .inverseSqrt => Binary32.div Binary32.one (Binary32.sqrt x)
  | .exp2 => Binary32.exp2 x
  | .log2 => Binary32.log2 x
  | .step => if Binary32.lt y x then 0#32 else Binary32.one
  | .mix =>
    Binary32.add (Binary32.mul x (Binary32.sub Binary32.one z)) (Binary32.mul y z)
  | .clamp => Binary32.min (Binary32.max x y) z
  | .dot => Binary32.mul x y
  | .dfdx | .dfdy => 0#32

/-- Sum of products, from the left. -/
def dot (pairs : List (Lane × Lane)) : Lane :=
  pairs.foldl (fun sum (a, b) => Binary32.add sum (Binary32.mul a b)) (Binary32.zero true)

def convert (conversion : Conversion) (source target : Scalar) (a : Lane) : Lane :=
  if conversion = .bitcast || source = target then a
  else match source, target with
    | .f32, .bool => ofBool (Binary32.position a ≠ some 0)
    | _, .bool => ofBool (a ≠ 0#32)
    | .f32, .i32 => Binary32.toSigned a
    | .f32, .u32 => Binary32.toUnsigned a
    | .i32, .f32 => Binary32.ofSigned a
    | .u32, .f32 | .bool, .f32 => Binary32.ofUnsigned a
    | _, _ => a

/-- `65535` in binary32. -/
def unormScale : Lane := 0x477fff00#32

def unpackHalf (encoding : HalfEncoding) (h : BitVec 16) : Lane :=
  match encoding with
  | .unorm16 => Binary32.div (Binary32.ofInt h.toNat) unormScale
  | .ieee => Binary16.toBinary32 h

def packHalf (encoding : HalfEncoding) (a : Lane) : BitVec 16 :=
  match encoding with
  | .unorm16 =>
    let clamped :=
      if Binary32.lt a 0#32 then 0#32 else if Binary32.lt Binary32.one a then Binary32.one else a
    (Binary32.toUnsigned (Binary32.roundAway (Binary32.mul clamped unormScale))).setWidth 16
  | .ieee => Binary16.ofBinary32 a

end Machine
end Microcode
