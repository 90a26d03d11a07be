import Microcode.Lowering
import Microcode.Proofs.TandemAccess

/-!
Instructions under a guard and the same instructions without one.

Past its condition, an instruction loads, computes and stores alike on both sides, at every repeat.
Only its stores look at the condition.
-/

namespace Microcode
namespace Tandem

open Emit Lowering

variable (s s' : BlendSources) (ctx : Context) (selector : Nat) (o : Operation) (a a' : Value)
  {σ : Course} {W : Tandem σ}

set_option synthInstance.maxSize 10000

/-! ## Repeats -/

instance sided_advances (iteration : Nat) :
    Sided W (advances o iteration) (advances o iteration) := by
  unfold advances
  refine @sided_get _ _ _ _ _ _ ?_
  rw [W.increments]
  infer_instance

instance sided_repeated (body body' : Nat → Quad Int → Emit Unit)
    [∀ (W' : After W) (iteration : Nat) (advances : Quad Int),
      Sided W'.tandem (body iteration advances) (body' iteration advances)] :
    Sided W (repeated o body) (repeated o body') := by
  have (W' : After W) (W'' : After W'.tandem) (iteration : Nat) (advances : Quad Int) :
      Sided W''.tandem (body iteration advances) (body' iteration advances) :=
    inferInstanceAs (Sided (After.mk W''.tandem (W'.later.trans W''.later)).tandem _ _)
  unfold repeated
  infer_instance

/-! ## Arithmetic -/

instance sided_dot (x y x' y' : Value) [Twins W x x'] [Twins W y y'] :
    Sided W (dot x y) (dot x' y') := by
  unfold dot
  infer_instance

instance sided_rotateLeft (amount amount' : Value) [Twins W a a'] [Twins W amount amount'] :
    Sided W (rotateLeft a amount) (rotateLeft a' amount') := by
  unfold rotateLeft
  apply Sided.data_cases
  intro W1 shape
  iterate 3
    apply Sided.bind_cases
    intro _ _
  infer_instance

instance sided_derivative (f : Builtin) [Twins W a a'] :
    Sided W (derivative ctx f a) (derivative ctx f a') := by
  unfold derivative
  infer_instance

theorem getElem?_rel {α : Type} [Related σ α] {as bs : List α} (h : Related.rel W as bs) (i : Nat) :
    Option.Rel (Related.rel W) as[i]? bs[i]? := by
  induction h generalizing i with
  | nil => exact .none
  | cons hab _ ih =>
    cases i with
    | zero => exact .some hab
    | succ i => exact ih i

instance sided_compute (opcode : Opcode) (sources sources' : List Value) (same : Bool)
    [Twins W sources sources'] :
    Sided W (compute ctx opcode sources same) (compute ctx opcode sources' same) := by
  unfold compute
  extract_lets arg arg'
  -- A source is there on both sides or on neither.
  have source (W' : Tandem σ) [h : Twins W' sources sources'] (i : Nat) :
      Sided W' (arg i) (arg' i) := by
    have hrel := getElem?_rel h.rel i
    unfold arg arg'
    generalize sources[i]? = source at hrel ⊢
    generalize sources'[i]? = source' at hrel ⊢
    cases hrel with
    | none => infer_instance
    | some hv => exact ⟨.pure hv⟩
  split
  · infer_instance
  · split <;> infer_instance

instance sided_loadSources (operands : List Operand) (mask : Mask) (advances : Quad Int) :
    Sided W (loadSources ctx operands mask advances) (loadSources ctx operands mask advances) := by
  unfold loadSources
  infer_instance

instance sided_bitwiseOperand (invert : Bool) (immediate? : Option Lane) (advance : Int) :
    Sided W (bitwiseOperand ctx o invert immediate? advance)
      (bitwiseOperand ctx o invert immediate? advance) := by
  unfold bitwiseOperand
  split <;> infer_instance

/-! ## Moves and packs -/

instance sided_blendMove (test : ZeroTest) (subject on off subject' on' off' : Value)
    [Twins W subject subject'] [Twins W on on'] [Twins W off off'] :
    Sided W (blendMove test subject on off) (blendMove test subject' on' off') := by
  unfold blendMove
  cases test <;> infer_instance

instance sided_selectMove (test : ZeroTest) (subject on off subject' on' off' : Value)
    [Twins W subject subject'] [Twins W on on'] [Twins W off off'] :
    Sided W (selectMove test subject on off) (selectMove test subject' on' off') := by
  unfold selectMove
  infer_instance

instance sided_convertElements (dest source : Element) (scale : Bool) (v v' : Value)
    [Twins W v v'] :
    Sided W (convertElements dest source scale v) (convertElements dest source scale v') := by
  unfold convertElements
  split <;> infer_instance

/-! ## Blends -/

instance sided_packComponents (src1 : Operand) (secondMask : Mask) (advances : Quad Int) :
    Sided W (packComponents ctx o src1 secondMask advances)
      (packComponents ctx o src1 secondMask advances) := by
  unfold packComponents
  infer_instance

instance sided_complement (v v' : Value) (enabled : Bool) [Twins W v v'] :
    Sided W (complement v enabled) (complement v' enabled) := by
  unfold complement
  infer_instance

instance sided_loadUnorm (op : Operand) (mask : Mask) (advance : Int) :
    Sided W (loadUnorm ctx op mask advance) (loadUnorm ctx op mask advance) := by
  unfold loadUnorm
  infer_instance

/-- Sources of a blend, value by value. -/
instance : Related σ BlendSources where
  rel W a b := W.Val a.color1 b.color1 ∧ W.Val a.color2 b.color2 ∧ W.Val a.alpha1 b.alpha1 ∧
    W.Val a.alpha2 b.alpha2
  later h hs := ⟨hs.1.later h, hs.2.1.later h, hs.2.2.1.later h, hs.2.2.2.later h⟩

instance twins_blendSources (b c d b' c' d' : Value) [ha : Twins W a a'] [hb : Twins W b b']
    [hc : Twins W c c'] [hd : Twins W d d'] :
    Twins W (BlendSources.mk a b c d) (BlendSources.mk a' b' c' d') :=
  ⟨ha.rel, hb.rel, hc.rel, hd.rel⟩

instance twins_color1 [h : Twins W s s'] : Twins W s.color1 s'.color1 :=
  ⟨h.rel.1⟩

instance twins_color2 [h : Twins W s s'] : Twins W s.color2 s'.color2 :=
  ⟨h.rel.2.1⟩

instance twins_alpha1 [h : Twins W s s'] : Twins W s.alpha1 s'.alpha1 :=
  ⟨h.rel.2.2.1⟩

instance twins_alpha2 [h : Twins W s s'] : Twins W s.alpha2 s'.alpha2 :=
  ⟨h.rel.2.2.2⟩

instance sided_colorFactor [Twins W s s'] :
    Sided W (colorFactor selector s) (colorFactor selector s') := by
  unfold colorFactor
  split <;> infer_instance

instance sided_alphaFactor [Twins W s s'] :
    Sided W (alphaFactor selector s) (alphaFactor selector s') := by
  unfold alphaFactor
  split <;> infer_instance

instance sided_loadBlendSources (complemented : Bool) (advances : Quad Int) :
    Sided W (loadBlendSources ctx o complemented advances)
      (loadBlendSources ctx o complemented advances) := by
  unfold loadBlendSources
  infer_instance

instance sided_blendColors (b : Blend) [Twins W s s'] :
    Sided W (blendColors b s) (blendColors b s') := by
  unfold blendColors
  iterate 8
    apply Sided.bind_cases
    intro _ _
  infer_instance

instance sided_maskedFactor (src1 src2 src1' src2' : Value) [Twins W src1 src1']
    [Twins W src2 src2'] :
    Sided W (maskedFactor selector src1 src2) (maskedFactor selector src1' src2') := by
  unfold maskedFactor
  split <;> infer_instance

/-! ## Tests -/

instance sided_evaluateTest (i : Instruction) :
    Sided W (evaluateTest ctx i) (evaluateTest ctx i) := by
  unfold evaluateTest
  split
  · split <;> infer_instance
  · infer_instance

/-! ## Reads of memory -/

instance sided_fixedOffset (size : Nat) (expanded : Bool) :
    Sided W (fixedOffset o size expanded) (fixedOffset o size expanded) := by
  unfold fixedOffset
  infer_instance

instance sided_discardWord (n : Nat) : Sided W (discard (word n)) (discard (word n)) :=
  sided_map (fun _ => ()) (word n) (word n)

instance sided_foldLiterals (dest : Operand) (start words : Nat) :
    Sided W (foldLiterals ctx dest start words (some σ.guard))
      (foldLiterals ctx dest start words none) := by
  unfold foldLiterals
  refine @sided_forM _ _ _ _ _ _ fun W' k => ?_
  apply Sided.data_cases
  intro W1 at_
  split <;> infer_instance

instance sided_address (space : MemorySpace) (size : Nat) (expanded : Bool) :
    Sided W (address ctx o space size expanded) (address ctx o space size expanded) := by
  unfold address
  infer_instance

instance sided_transferWord (space : MemorySpace) (base base' : Value) (lane : Operand) (k : Nat)
    [Twins W base base'] :
    Sided W (transferWord ctx false space base lane k (some σ.guard))
      (transferWord ctx false space base' lane k none) := by
  unfold transferWord
  simp only [Bool.false_eq_true, if_false]
  infer_instance

end Tandem
end Microcode
