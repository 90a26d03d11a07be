import Microcode.Decode.Arithmetic

/-!
Pack words: conversions between element formats.
-/

namespace Microcode
namespace Decode

def packElement (code : Nat) : Element :=
  match code % 8 with
  | 0 => .u8
  | 1 => .s8
  | 2 => .o8
  | 3 => .u16
  | 4 => .s16
  | 5 => .f16
  | 6 => .f32
  | _ => .c10

/-- Fixed-point colours convert from and to floats only. -/
def packable (dest source : Element) : Bool :=
  (dest ≠ .c10 && source ≠ .c10) || (dest.isFloat && source.isFloat)

/-- First component of a mask, or the first of all when it is empty. -/
def firstComponent (mask : Mask) : Nat := (Mask.components mask).headD 0

/-- How the components of a wide pack are divided between the two source registers. -/
structure SourceSplit where
  firstMask : Mask
  secondMask : Mask
  swizzle : Swizzle

/-- Each register supplies half of the components, the first one more when their number is odd. -/
def splitSources (destMask : Mask) (first second : Operand) : SourceSplit :=
  let count := Mask.count destMask
  let firstCount := (count + 1) / 2
  let secondCount := count - firstCount
  let contiguous := first.bank = second.bank && first.num + firstCount = second.num
  if !contiguous && secondCount ≠ 0 && second.bank ≠ .immediate then
    let start := firstComponent destMask
    let shifted := destMask >>> start
    let firstLoad : Mask := match firstCount with
      | 0 => 0
      | 1 => 0b1
      | _ => 0b11
    let secondLoad : Mask := match secondCount with
      | 1 => 0b10
      | _ => 0b1100
    let distance := (((second.num : Int) - first.num) % 4).toNat
    { firstMask := (shifted &&& firstLoad) <<< start
      secondMask := ((shifted &&& secondLoad) >>> firstCount) <<< start
      swizzle := .ofFn fun i =>
        if i + distance < 4 then first.swizzle.get (i + distance) else second.swizzle.get i }
  else ⟨destMask, 0, second.swizzle⟩

def pack (f : Fields) (secondary : Bool) : Except DecodeFault Instruction :=
  let dest := packElement (f.get 't')
  let source := packElement (f.get 'f')
  if !packable dest source then .error (.pack dest source)
  else
    let scale := f.flag 'h'
    let destMask := f.get 'm'
    let isWide := source = .f32
    let isFloat := source.isFloat
    let num := if isFloat then f.get 'q' else f.get 'v' + 2 * f.get 'q'
    let selectHigh := if isWide then f.get 'v' % 2 else f.get 'w' % 2
    let swizzle : Swizzle :=
      .ofCodes (f.get 'x' + 2 * selectHigh) (f.get 'i') (f.get 'j') (f.get 'o')
    let src1 := { (RegisterField.mk isFloat 7 secondary).source num (f.get 'k') (f.flag 'c') 1 with
      element := source, swizzle := swizzle }
    let base : Operation := {
      opcode := .vpck dest source
      dest := { (RegisterField.mk false 7 secondary).dest (f.get 'g') (f.get 'b') (f.flag 'd') with
        element := dest }
      src1 := src1
      destMask := destMask
      predicate := .ofCode (f.get 'p')
      repeatCount := f.get 'a'
      repeatMultiplier := if isFloat then ⟨1, 2, 2, 1⟩ else .replicate 1
      skipInvalid := f.flag 's'
      isLast := f.flag 'e' }
    if isWide then
      let src2 :=
        { (RegisterField.mk true 7 secondary).source (f.get 'w') (f.get 'l') (f.flag 'x') 2 with
          element := source }
      let split := splitSources destMask src1 src2
      checked { base with
        src2 := { src2 with swizzle := split.swizzle }
        sourceMask := split.firstMask
        detail := .pack scale split.secondMask }
    else
      -- Integer sources cycle their selection to start at the first written component, except for
      -- normalized bytes.
      let fixed := isFloat || (scale && (source = .u8 || dest = .u8))
      let start := firstComponent destMask
      let cycled : Swizzle := .ofFn fun i => swizzle.get ((i + 4 - start) % 4)
      checked { base with
        src1 := if fixed then src1 else { src1 with swizzle := cycled }
        sourceMask := destMask
        detail := .pack scale 0 }

end Decode
end Microcode
