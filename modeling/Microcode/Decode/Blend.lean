import Microcode.Decode.Arithmetic

/-!
Blend words: sums of products of byte colours.
-/

namespace Microcode
namespace Decode

def byteSources (f : Fields) (secondary : Bool) (o : Operation) : Operation :=
  let regs : RegisterField := ⟨false, 7, secondary⟩
  { o with
    dest := { regs.dest (f.get 'q') (f.get 't') (f.flag 'd') with element := .u8 }
    src1 := { regs.source (f.get 'z') (f.get 'k') (f.flag 'r') 1 with element := .u8 }
    src2 := { regs.source (f.get 'A') (f.get 'j') (f.flag 'b') 2 with element := .u8 }
    predicate := .ofShortCode (f.get 'p')
    skipInvalid := f.flag 's'
    isLast := f.flag 'e' }

def blend (f : Fields) (secondary : Bool) : Instruction :=
  { byteSources f secondary {
      opcode := .sop2, repeatCount := f.get 'o', repeatMultiplier := .replicate 1 } with
    detail := .blend {
      colorOp := .ofCode (f.get 'v')
      alphaOp := .ofCode (f.get 'w')
      colorSelect1 := f.get 'g'
      colorSelect2 := f.get 'h'
      alphaSelect1 := f.get 'a'
      alphaSelect2 := f.get 'l'
      colorComplement1 := f.flag 'c'
      colorComplement2 := f.flag 'm'
      alphaComplement1 := f.flag 'f'
      alphaComplement2 := f.flag 'i'
      sourceComplement := f.flag 'u' } }

/-- The write mask is encoded with alpha in its lowest bit. -/
def maskedBlend (f : Fields) (secondary : Bool) : Instruction :=
  let mask := f.get 'w'
  { byteSources f secondary { opcode := .sop2m, destMask := mask / 2 + 8 * (mask % 2) } with
    detail := .maskedBlend {
      colorOp := .ofCode (f.get 'o')
      alphaOp := .ofCode (f.get 'a')
      select1 := f.get 'g'
      select2 := f.get 'h'
      complement1 := f.flag 'c'
      complement2 := f.flag 'm' } }

end Decode
end Microcode
