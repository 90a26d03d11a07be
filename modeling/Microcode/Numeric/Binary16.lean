import Microcode.Numeric.Binary32

/-!
Binary16 numbers: widening is exact, narrowing rounds to nearest even and keeps subnormals.  A NaN
keeps its sign and the top of its payload and becomes quiet.
-/

namespace Microcode
namespace Binary16

open Numeric

def magnitude (h : BitVec 16) : Nat := h.toNat % 0x8000

def toBinary32 (h : BitVec 16) : Lane :=
  let m := magnitude h
  if m < Format.binary16.infinity then
    Binary32.round h.msb (Format.binary16.units m <<< (149 - 24)) 1
  else if m = Format.binary16.infinity then Binary32.infinity h.msb
  else Binary32.pack h.msb (0x7fc00000 ||| ((m % 0x400) <<< 13))

def ofBinary32 (a : Lane) : BitVec 16 :=
  let magnitude : Nat :=
    match Binary32.datum a with
    | .finite _ m => Format.binary16.round m (1 <<< (149 - 24))
    | .infinite _ => Format.binary16.infinity
    | .nan => 0x7e00 ||| ((Binary32.magnitude a % 0x800000) >>> 13)
  BitVec.ofNat 16 (magnitude + if Binary32.isNegative a then 0x8000 else 0)

end Binary16
end Microcode
