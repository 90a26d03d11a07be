import Microcode.Assembly
import Microcode.Glsl.Writer
import Microcode.Spirv.Module

/-!
The bytes of an assembled shader, as they are handed to a host.
-/

namespace Microcode

def wordBytes (w : Lane) : List (BitVec 8) := (List.range 4).map fun k => w.extractLsb' (8 * k) 8

/-- The text or the little-endian words; the machine has none. -/
def Assembled.bytes (a : Assembled) : Option (List (BitVec 8)) :=
  match a.listing.target with
  | .machine => none
  | .glsl => some ((a.listing.glsl a.stage).toUTF8.toList.map fun b => b.toBitVec)
  | .spirv => some ((a.listing.spirv a.stage).words.flatMap wordBytes)

end Microcode
