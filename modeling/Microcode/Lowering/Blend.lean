import Microcode.Access.Store
import Microcode.Lowering.Repeat

/-!
Blends of byte colours.
-/

namespace Microcode
namespace Lowering

open Emit

def BlendOp.binaryOp : BlendOp → BinaryOp
  | .add => .add
  | .sub => .sub
  | .min => .min
  | .max => .max

/-- One minus the value, if `enabled`. -/
def complement (v : Value) (enabled : Bool) : Emit Value := do
  if enabled then
    let one ← splatConstant (.f32 Binary32.one) (← countOf v)
    binary .sub one v
  else return v

/-- Bytes as numbers between zero and one. -/
def loadUnorm (ctx : Context) (op : Operand) (mask : Mask) (advance : Int) : Emit Value := do
  Access.toFloat (← Access.load ctx op mask advance) .u8 true

/-- The two sources of a blend, as numbers. -/
structure BlendSources where
  color1 : Value
  color2 : Value
  alpha1 : Value
  alpha2 : Value

def colorFactor (selector : Nat) (s : BlendSources) : Emit Value := do
  match selector with
  | 0 => splatConstant (.f32 0#32) 3
  | 1 => return s.color1
  | 2 => return s.color2
  | 3 => splat s.alpha1 3
  | 4 => splat s.alpha2 3
  | _ => unsupported (.colorSelector selector)

def alphaFactor (selector : Nat) (s : BlendSources) : Emit Value := do
  match selector with
  | 0 => constant (.f32 0#32)
  | 1 => return s.alpha1
  | 2 => return s.alpha2
  | _ => unsupported (.alphaSelector selector)

def loadBlendSources (ctx : Context) (o : Operation) (complemented : Bool) (advances : Quad Int) :
    Emit BlendSources := do
  let color1 ← loadUnorm ctx o.src1 0b0111 advances.y
  let alpha1 ← loadUnorm ctx o.src1 0b1000 advances.y
  let color2 ← loadUnorm ctx o.src2 0b0111 advances.z
  let alpha2 ← loadUnorm ctx o.src2 0b1000 advances.z
  let color1 ← complement color1 complemented
  let alpha1 ← complement alpha1 complemented
  return ⟨color1, color2, alpha1, alpha2⟩

/-- The blended colour and alpha. -/
def blendColors (b : Blend) (s : BlendSources) : Emit (Value × Value) := do
  let f1 ← complement (← colorFactor b.colorSelect1 s) b.colorComplement1
  let f2 ← complement (← colorFactor b.colorSelect2 s) b.colorComplement2
  let g1 ← complement (← alphaFactor b.alphaSelect1 s) b.alphaComplement1
  let g2 ← complement (← alphaFactor b.alphaSelect2 s) b.alphaComplement2
  let color1 ← binary .mul f1 s.color1
  let color2 ← binary .mul f2 s.color2
  let alpha1 ← binary .mul g1 s.alpha1
  let alpha2 ← binary .mul g2 s.alpha2
  let color ← binary (BlendOp.binaryOp b.colorOp) color1 color2
  let alpha ← binary (BlendOp.binaryOp b.alphaOp) alpha1 alpha2
  return (color, alpha)

/-- Blends colour and alpha apart. -/
def blend (ctx : Context) (i : Instruction) : Emit Unit := do
  match i.detail with
  | .blend state =>
    let condition ← Access.condition i.predicate
    repeated i.toOperation fun _ advances => do
      let sources ← loadBlendSources ctx i.toOperation state.sourceComplement advances
      let (color, alpha) ← blendColors state sources
      let color ← Access.ofFloat color .u8 true
      let alpha ← Access.ofFloat alpha .u8 true
      Access.store ctx i.dest color 0b0111 advances.w condition
      Access.store ctx i.dest alpha 0b1000 advances.w condition
  | _ => unsupported .blendMissing

def maskedFactor (selector : Nat) (src1 src2 : Value) : Emit Value := do
  match selector with
  | 0 => splatConstant (.f32 0#32) 4
  | 2 => return src1
  | 3 => shuffle src1 src1 [3, 3, 3, 3]
  | 6 => return src2
  | 7 => shuffle src2 src2 [3, 3, 3, 3]
  | _ => unsupported (.maskedSelector selector)

/-- Blends all four channels alike, and alpha on its own when it is written. -/
def maskedBlend (ctx : Context) (i : Instruction) : Emit Unit := do
  match i.detail with
  | .maskedBlend state =>
    let condition ← Access.condition i.predicate
    let src1 ← loadUnorm ctx i.src1 0b1111 0
    let src2 ← loadUnorm ctx i.src2 0b1111 0
    let f1 ← complement (← maskedFactor state.select1 src1 src2) state.complement1
    let f2 ← complement (← maskedFactor state.select2 src1 src2) state.complement2
    let a ← binary .mul f1 src1
    let b ← binary .mul f2 src2
    let v ← binary (BlendOp.binaryOp state.colorOp) a b
    let v ←
      if i.destMask.testBit 3 then do
        let a3 ← extract a 3
        let b3 ← extract b 3
        insert v (← binary (BlendOp.binaryOp state.alphaOp) a3 b3) 3
      else pure v
    Access.store ctx i.dest (← Access.ofFloat v .u8 true) i.destMask 0 condition
  | _ => unsupported .maskedBlendMissing

end Lowering
end Microcode
