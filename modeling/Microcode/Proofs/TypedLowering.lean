import Microcode.Lowering
import Microcode.Proofs.Decoders
import Microcode.Proofs.TypedAccess

/-!
Lowering keeps the contract.

The code of every regular instruction is well typed, whatever registers are bound: the sources of an
operation are loaded under one mask in one scalar, and a store takes what it is given.
-/

namespace Microcode

open Emit Lowering

set_option synthInstance.maxSize 1000000000

variable (ctx : Context) (selector : Nat) (o : Operation) {s : BlendSources} {i : Instruction}
  {op : Operand}

variable {w : Workspace} {scalar : Scalar} {n : Nat} {a b c v : Value}

/-! ## Arithmetic -/

instance inferred_dot [ha : Known w a ⟨.f32, n⟩] [hb : Known w b ⟨.f32, n⟩] :
    Inferred w (dot a b) ⟨.f32, 1⟩ := by
  unfold dot
  refine ⟨.shapeOf ha.is (.ite (fun hone => ?_) fun _ => checks_define (.dot ha.is hb.is))⟩
  obtain rfl : n = 1 := by simpa [Shape.isScalar] using hone
  exact Inferred.checks

instance inferred_rotateLeft [Known w a ⟨scalar, n⟩] [Known w b ⟨scalar, n⟩] :
    Inferred w (rotateLeft a b) ⟨scalar, n⟩ := by
  unfold rotateLeft
  exact .proper a fun _ => inferInstance

instance inferred_derivative (f : Builtin) [f.Takes 1] [Known w v ⟨.f32, n⟩] :
    Inferred w (derivative ctx f v) ⟨.f32, n⟩ := by
  unfold derivative
  exact .proper v fun _ => inferInstance

/-- Components of a result: a sum of products has one. -/
def Opcode.resultWidth (opcode : Opcode) (n : Nat) : Nat :=
  match opcode with
  | .vdp | .vf16dp | .vssq => 1
  | _ => n

/-- What is computed has the scalar of the sources, which are floats unless any scalar will do. -/
theorem inferred_compute {opcode : Opcode} (sources : List Value) (same : Bool)
    [Known w sources ⟨scalar, n⟩] (hfloat : opcode.anyScalar = false → scalar = .f32) :
    Inferred w (compute ctx opcode sources same) ⟨scalar, opcode.resultWidth n⟩ := by
  unfold compute
  extract_lets arg
  have source (w' : Workspace) (i : Nat) [h : Known w' sources ⟨scalar, n⟩] :
      Inferred w' (arg i) ⟨scalar, n⟩ := by
    unfold arg
    cases hv : sources[i]? with
    | none => exact .of_parts
    | some v => exact ⟨.pure (h.is v (List.mem_of_getElem? hv))⟩
  cases opcode <;> dsimp only [binaryOp?, Opcode.resultWidth]
  case vfrc | vf16frc | fsubflr | vdp | vf16dp | vssq | vrsq | frsq | vlog | flog | vexp | fexp
      | vdsx | vf16dsx | vdsy | vf16dsy =>
    obtain rfl := hfloat rfl
    exact .of_parts
  case vrcp | frcp =>
    obtain rfl := hfloat rfl
    refine ⟨(source w 0).checks.bind fun a w1 _ _ ha => ?_⟩
    have : Known w1 a ⟨.f32, n⟩ := ⟨ha⟩
    exact (Inferred.proper a fun _ => inferInstance).checks
  all_goals exact .of_parts

/-! ## Operands and repeats -/

class Operand.Reading (op : Operand) (scalar : outParam Scalar) : Prop where
  reads : op.Reads scalar

class Mask.Counts (mask : Mask) (n : outParam Nat) : Prop where
  count : Mask.count mask = n

instance (priority := low) (mask : Mask) : mask.Counts (Mask.count mask) := ⟨rfl⟩

instance : Mask.Counts 0b0001 1 := ⟨by decide⟩

instance : Mask.Counts 0b0111 3 := ⟨by decide⟩

instance : Mask.Counts 0b1000 1 := ⟨by decide⟩

instance : Mask.Counts 0b1111 4 := ⟨by decide⟩

instance inferred_loadReads (mask : Mask) (sub : Int) [h : op.Reading scalar] [hn : mask.Counts n] :
    Inferred w (Access.load ctx op mask sub) ⟨scalar, n⟩ := by
  rw [← h.reads.scalar, ← hn.count]
  exact inferred_loadOperand ctx h.reads.bank mask sub

theorem inferred_loadSources {operands : List Operand} (h : ∀ op ∈ operands, op.Reads scalar)
    (mask : Mask) (advances : Quad Int) :
    Inferred w (loadSources ctx operands mask advances) ⟨scalar, Mask.count mask⟩ := by
  unfold loadSources
  refine ⟨(Checks.mapM (P := .within) (S := fun v w' => w'.listing.Has v ⟨scalar, Mask.count mask⟩) _
    (fun _ _ _ h hv => h.has hv) fun op hop w' _ _ => ?_).mono fun _ _ _ _ h => h.2⟩
  have : op.Reading scalar := ⟨h op hop⟩
  exact Inferred.checks

instance inferred_forM {α : Type} (xs : List α) (f : α → Emit Unit)
    [h : ∀ (w' : w.Later) x, Checked w'.workspace (f x) ()] : Inferred w (xs.forM f) () :=
  ⟨.forM xs fun x _ w' hw _ => (h ⟨w', hw⟩ x).checks⟩

theorem checks_advances (iteration : Nat) :
    Checks .within (advances o iteration) w fun _ _ => True := by
  have amounts (increments : Quad Increment) : Checks .within (do
      let amount (op : Operand) : Emit Int := offset (advance increments o op iteration)
      return (⟨← amount o.src0, ← amount o.src1, ← amount o.src2, ← amount o.dest⟩ : Quad Int)) w
        fun _ _ => True :=
    .offset (.offset (.offset (.offset (.pure trivial))))
  exact amounts w.increments

instance inferred_repeated (body : Nat → Quad Int → Emit Unit)
    [h : ∀ (w' : w.Later) iteration advances, Checked w'.workspace (body iteration advances) ()] :
    Inferred w (repeated o body) () :=
  ⟨.forM _ fun iteration _ _ h1 _ => (checks_advances o iteration).bind
    fun advances w2 h2 _ _ => (h ⟨w2, h1.trans h2⟩ iteration advances).checks⟩

/-! ## Families -/

theorem inferred_arithmetic (i : Instruction) {operands : List Operand}
    (hreads : ∀ op ∈ operands, op.Reads scalar)
    (hfloat : i.opcode.anyScalar = false → scalar = .f32) :
    Inferred w (arithmetic ctx i operands) () := by
  have loaded (w' : Workspace) := inferred_loadSources (w := w') ctx hreads i.sourceMask
  have computed (w' : Workspace) (values : List Value) (same : Bool) (n : Nat)
      [Known w' values ⟨scalar, n⟩] := inferred_compute (w := w') (n := n) ctx values same hfloat
  unfold arithmetic
  dsimp only
  exact .of_parts

theorem inferred_bitwise [i.src1.Reading .u32] [i.src2.Reading .u32]
    (hopcode : i.opcode.anyScalar = true) : Inferred w (bitwise ctx i) () := by
  have second (w' : Workspace) (invert : Bool) (immediate? : Option Lane) (advance : Int) :
      Inferred w' (bitwiseOperand ctx i.toOperation invert immediate? advance) ⟨.u32, 1⟩ := by
    unfold bitwiseOperand
    split <;> exact .of_parts
  have computed (w' : Workspace) (values : List Value) [Known w' values ⟨.u32, 1⟩] :=
    inferred_compute (w := w') (n := 1) ctx values false fun h => absurd (hopcode ▸ h) (by decide)
  unfold bitwise
  dsimp only
  exact .of_parts

instance inferred_blendMove (test : ZeroTest) [Known w a ⟨.f32, n⟩] [Known w b ⟨.f32, n⟩]
    [Known w c ⟨.f32, n⟩] : Inferred w (blendMove test a b c) ⟨.f32, n⟩ := by
  unfold blendMove
  cases test <;> exact .proper a fun _ => inferInstance

instance inferred_selectMove (test : ZeroTest) {source : Scalar} [Known w a ⟨source, n⟩]
    [Known w b ⟨scalar, n⟩] [Known w c ⟨scalar, n⟩] :
    Inferred w (selectMove test a b c) ⟨scalar, n⟩ := by
  unfold selectMove
  exact .proper a fun _ => inferInstance

theorem Element.scalar_of_isFloat {e : Element} (h : e.isFloat = true) : e.scalar = .f32 := by
  rw [Element.scalar, h]
  rfl

theorem inferred_conditionalMove {source : Scalar} [h0 : i.src0.Reading source]
    [h1 : i.src1.Reading scalar] [i.src2.Reading scalar] :
    Inferred w (conditionalMove ctx i) () := by
  unfold conditionalMove
  dsimp only
  by_cases hblend : movesByBlend ctx i.toOperation
  · -- Both the subject and the second source are floats, and the third has the scalar of the second.
    simp only [movesByBlend, Bool.and_eq_true] at hblend
    obtain rfl : source = .f32 := h0.reads.scalar ▸ Element.scalar_of_isFloat hblend.1.2
    obtain rfl : scalar = .f32 := h1.reads.scalar ▸ Element.scalar_of_isFloat hblend.1.1.2
    exact .of_parts
  · simp only [hblend, Bool.false_eq_true, if_false]
    exact .of_parts

instance inferred_convertElements (dest source : Element) (scale : Bool)
    [hv : Known w v ⟨source.scalar, n⟩] :
    Inferred w (convertElements dest source scale v) ⟨dest.scalar, n⟩ := by
  unfold convertElements
  split
  · rename_i hdest _
    rw [Element.scalar_of_isFloat hdest]
    exact .of_parts
  · rename_i _ hsource
    rw [Element.scalar_of_isFloat hsource] at hv
    exact .of_parts
  · rename_i hdest hsource
    rw [Element.scalar_of_isFloat hsource, ← Element.scalar_of_isFloat hdest] at hv
    exact .of_parts
  · refine ⟨.scalarOf hv.is (.ite (fun hsame => .pure ?_) fun _ => Inferred.checks)⟩
    rw [← hsame]
    exact hv.is

theorem reads_packSource {dest source : Element} {mask : Mask} (h : op.Reads scalar) :
    (packSource dest source mask op).Reads scalar := by
  rw [packSource]
  split
  · exact ⟨h.bank, h.scalar⟩
  · exact h

variable {o} in
/-- A pack gets as many components as its two masks select. -/
theorem checks_packComponents {src1 : Operand} {secondMask : Mask} (h1 : src1.Reads scalar)
    (h2 : secondMask ≠ 0 → o.src2.Reads scalar ∧
      Mask.count o.sourceMask + Mask.count secondMask ≤ 4) (advances : Quad Int) :
    Yields .within (packComponents ctx o src1 secondMask advances) w
      ⟨scalar, Mask.count o.sourceMask + Mask.count secondMask⟩ := by
  have load {op : Operand} (h : op.Reads scalar) (mask : Mask) (sub : Int) (w : Workspace) :
      Yields .within (Access.load ctx op mask sub) w ⟨scalar, Mask.count mask⟩ :=
    have : op.Reading scalar := ⟨h⟩
    Inferred.checks
  refine (load h1 o.sourceMask advances.y w).bind ?_
  intro first w1 h₁ _ hfirst
  refine .ite (fun hzero => .pure ?_) fun hne => ?_
  · rw [hzero, show Mask.count 0 = 0 by decide]
    exact hfirst
  · obtain ⟨hreads, hwidth⟩ := h2 hne
    refine (load hreads secondMask advances.z w1).bind ?_
    intro rest w2 h₂ _ hrest
    have hparts : List.Forall₂ (fun v n => w2.listing.Has v ⟨scalar, n⟩) [first, rest]
        [Mask.count o.sourceMask, Mask.count secondMask] := .cons (h₂.has hfirst) (.cons hrest .nil)
    exact (checks_construct hparts (by simp) (by simpa using hwidth)).mono fun v w' _ _ hv => by
      simpa using hv

theorem inferred_pack {dest source : Element} (h1 : i.src1.Reads source.scalar)
    (h2 : ∀ scale secondMask, i.detail = .pack scale secondMask → secondMask ≠ 0 →
      i.src2.Reads source.scalar ∧ Mask.count i.sourceMask + Mask.count secondMask ≤ 4) :
    Inferred w (pack ctx i dest source) () := by
  unfold pack
  split
  rename_i scale secondMask hmasks
  have second (hne : secondMask ≠ 0) : i.src2.Reads source.scalar ∧
      Mask.count i.sourceMask + Mask.count secondMask ≤ 4 := by
    split at hmasks
    · rename_i hdetail
      cases hmasks
      exact h2 scale secondMask hdetail hne
    · cases hmasks
      exact absurd rfl hne
  have components (w' : Workspace) (advances : Quad Int) :
      Inferred w' (packComponents ctx i.toOperation (packSource dest source i.destMask i.src1)
        secondMask advances) ⟨source.scalar, Mask.count i.sourceMask + Mask.count secondMask⟩ :=
    ⟨checks_packComponents ctx (reads_packSource h1) second advances⟩
  exact .of_parts

/-! Blends. -/

instance inferred_complement (enabled : Bool) [Known w v ⟨.f32, n⟩] :
    Inferred w (complement v enabled) ⟨.f32, n⟩ := by
  unfold complement
  exact .proper v fun _ => inferInstance

instance inferred_loadUnorm (mask : Mask) (advance : Int) [op.Reading .u32] [mask.Counts n] :
    Inferred w (loadUnorm ctx op mask advance) ⟨.f32, n⟩ := by
  unfold loadUnorm
  exact .of_parts

/-- Colours are three floats and alphas are one. -/
structure Listing.Blends (l : Listing) (s : BlendSources) : Prop where
  color1 : l.Has s.color1 ⟨.f32, 3⟩
  color2 : l.Has s.color2 ⟨.f32, 3⟩
  alpha1 : l.Has s.alpha1 ⟨.f32, 1⟩
  alpha2 : l.Has s.alpha2 ⟨.f32, 1⟩

instance : Described BlendSources Unit where
  Is w s _ := w.listing.Blends s
  later h hs := ⟨h.has hs.color1, h.has hs.color2, h.has hs.alpha1, h.has hs.alpha2⟩

instance known_color1 [h : Known w s ()] : Known w s.color1 ⟨.f32, 3⟩ := ⟨h.is.color1⟩

instance known_color2 [h : Known w s ()] : Known w s.color2 ⟨.f32, 3⟩ := ⟨h.is.color2⟩

instance known_alpha1 [h : Known w s ()] : Known w s.alpha1 ⟨.f32, 1⟩ := ⟨h.is.alpha1⟩

instance known_alpha2 [h : Known w s ()] : Known w s.alpha2 ⟨.f32, 1⟩ := ⟨h.is.alpha2⟩

instance known_blendSources {c1 c2 a1 a2 : Value} [h1 : Known w c1 ⟨.f32, 3⟩]
    [h2 : Known w c2 ⟨.f32, 3⟩] [h3 : Known w a1 ⟨.f32, 1⟩] [h4 : Known w a2 ⟨.f32, 1⟩] :
    Known w (BlendSources.mk c1 c2 a1 a2) () :=
  ⟨h1.is, h2.is, h3.is, h4.is⟩

instance : Described (Value × Value) (Shape × Shape) where
  Is w r shapes := w.listing.Has r.1 shapes.1 ∧ w.listing.Has r.2 shapes.2
  later h hr := ⟨h.has hr.1, h.has hr.2⟩

instance known_pair {s1 s2 : Shape} [ha : Known w a s1] [hb : Known w b s2] :
    Known w (a, b) (s1, s2) := ⟨ha.is, hb.is⟩

instance inferred_colorFactor [Known w s ()] : Inferred w (colorFactor selector s) ⟨.f32, 3⟩ := by
  unfold colorFactor
  split <;> exact .of_parts

instance inferred_alphaFactor [Known w s ()] : Inferred w (alphaFactor selector s) ⟨.f32, 1⟩ := by
  unfold alphaFactor
  split <;> exact .of_parts

instance inferred_loadBlendSources (complemented : Bool) (advances : Quad Int) [o.src1.Reading .u32]
    [o.src2.Reading .u32] : Inferred w (loadBlendSources ctx o complemented advances) () := by
  unfold loadBlendSources
  exact .of_parts

instance inferred_blendColors (blending : Blend) [Known w s ()] :
    Inferred w (blendColors blending s) (⟨.f32, 3⟩, ⟨.f32, 1⟩) := by
  unfold blendColors
  exact .of_parts

instance checked_storeBlend (state : Blend) (advances : Quad Int) (condition : Option Value)
    (sources : BlendSources) [Known w sources ()] [Known w condition ()] :
    Checked w (do
      let (color, alpha) ← blendColors state sources
      let color ← Access.ofFloat color .u8 true
      let alpha ← Access.ofFloat alpha .u8 true
      Access.store ctx i.dest color 0b0111 advances.w condition
      Access.store ctx i.dest alpha 0b1000 advances.w condition) () := by
  refine @checked_bind _ _ _ _ _ _ _ _ _ _ _ (inferred_blendColors state) ?_
  rintro w1 ⟨⟨color, alpha⟩, hcolor, halpha⟩
  have : Known w1.workspace color ⟨.f32, 3⟩ := ⟨hcolor⟩
  have : Known w1.workspace alpha ⟨.f32, 1⟩ := ⟨halpha⟩
  infer_instance

theorem inferred_blend [i.src1.Reading .u32] [i.src2.Reading .u32] :
    Inferred w (blend ctx i) () := by
  unfold blend
  split <;> exact .of_parts

class Ordinal (k : Nat) : Prop where
  lt : k < 4

instance : Ordinal 1 := ⟨by decide⟩

instance : Ordinal 2 := ⟨by decide⟩

instance : Ordinal 3 := ⟨by decide⟩

instance inferred_extract {k : Nat} [hk : Ordinal k] [hv : Known w v ⟨scalar, 4⟩] :
    Inferred w (extract v k) ⟨scalar, 1⟩ :=
  ⟨checks_extract hv.is hk.lt⟩

instance inferred_insert {k : Nat} [hk : Ordinal k] [hv : Known w v ⟨scalar, 4⟩]
    [ha : Known w a ⟨scalar, 1⟩] : Inferred w (Emit.insert v a k) ⟨scalar, 4⟩ :=
  ⟨checks_insert hv.is ha.is hk.lt⟩

instance inferred_maskedFactor [ha : Known w a ⟨.f32, 4⟩] [hb : Known w b ⟨.f32, 4⟩] :
    Inferred w (maskedFactor selector a b) ⟨.f32, 4⟩ := by
  have alpha (v : Value) [hv : Known w v ⟨.f32, 4⟩] :
      Inferred w (shuffle v v [3, 3, 3, 3]) ⟨.f32, 4⟩ :=
    ⟨checks_shuffle hv.is hv.is (by simp) (by simp) (by simp)⟩
  unfold maskedFactor
  split <;> exact .of_parts

theorem inferred_maskedBlend [i.src1.Reading .u32] [i.src2.Reading .u32] :
    Inferred w (maskedBlend ctx i) () := by
  unfold maskedBlend
  split
  · dsimp only
    exact .of_parts
  · exact .of_parts

/-! Tests. -/

theorem checks_evaluateTest
    (h : ∀ op comparison mask?, i.detail = .test op comparison mask? → i.Pair op.anyScalar) :
    Checks .within (evaluateTest ctx i) w fun v w' => ∃ n, w'.listing.Has v ⟨.bool, n⟩ := by
  unfold evaluateTest
  split
  · rename_i op comparison mask? hdetail
    obtain ⟨scalar, h1, h2, hfloat, -⟩ := h op comparison mask? hdetail
    have : i.src1.Reading scalar := ⟨h1⟩
    have : i.src2.Reading scalar := ⟨h2⟩
    refine (inferred_loadReads ctx i.sourceMask 0).checks.bind fun a w1 _ _ ha => ?_
    refine (inferred_loadReads ctx i.sourceMask 0).checks.bind fun b w2 h₂ _ hb => ?_
    have : Known w2 a ⟨scalar, Mask.count i.sourceMask⟩ := ⟨h₂.has ha⟩
    have : Known w2 b ⟨scalar, Mask.count i.sourceMask⟩ := ⟨hb⟩
    cases hopcode : TestOp.opcode? op with
    | none => exact (inferred_compare a b _).checks.mono fun _ _ _ _ h => ⟨_, h⟩
    | some opcode =>
      refine (inferred_compute ctx [a, b] _ fun hany => hfloat ?_).checks.bind fun v w3 _ _ hv => ?_
      · cases op <;> cases hopcode <;> first | rfl | cases hany
      · generalize opcode.resultWidth (Mask.count i.sourceMask) = m at hv
        have : Known w3 v ⟨scalar, m⟩ := ⟨hv⟩
        exact (Inferred.proper (g := (⟨.bool, m⟩ : Shape)) v fun _ => inferInstance).checks.mono
          fun _ _ _ _ h => ⟨_, h⟩
  · exact .unsupported

theorem inferred_test
    (h : ∀ op comparison mask?, i.detail = .test op comparison mask? → i.Pair op.anyScalar) :
    Inferred w (test ctx i) () := by
  unfold test
  refine ⟨(inferred_condition i.predicate).checks.bind fun condition w1 _ _ hc => ?_⟩
  refine (checks_evaluateTest ctx h).bind ?_
  rintro v w2 h₂ _ ⟨n, hv⟩
  have : Known w2 v ⟨.bool, n⟩ := ⟨hv⟩
  have : Known w2 condition () := ⟨Described.later h₂ hc⟩
  exact Inferred.checks

theorem inferred_testMask
    (h : ∀ op comparison mask?, i.detail = .test op comparison mask? → i.Pair op.anyScalar) :
    Inferred w (testMask ctx i) () := by
  have on (element : Element) : (maskConstants element).1.Of (maskConstants element).1.scalar := ⟨rfl⟩
  have off (element : Element) : (maskConstants element).2.Of (maskConstants element).1.scalar := by
    rw [maskConstants]
    split <;> exact ⟨rfl⟩
  unfold testMask
  dsimp only
  refine ⟨(inferred_condition i.predicate).checks.bind fun condition w1 _ _ hc => ?_⟩
  refine (checks_evaluateTest ctx h).bind ?_
  rintro outcome w2 h₂ _ ⟨n, houtcome⟩
  have : Known w2 outcome ⟨.bool, n⟩ := ⟨houtcome⟩
  have : Known w2 condition () := ⟨Described.later h₂ hc⟩
  exact (Inferred.proper outcome fun _ => inferInstance).checks

/-! Memory. -/

instance inferred_discardWord (n : Nat) : Inferred w (discard (word n)) () := by
  have hdiscard : discard (word n) = word n >>= fun _ => pure () := by
    simp only [discard, map_const, Function.comp_apply, map_eq_pure_bind]
  rw [hdiscard]
  exact .of_parts

instance inferred_fetchMemory (space : MemorySpace) [h : Known w v ⟨.u32, 1⟩] :
    Inferred w (fetchMemory space v) ⟨.f32, 1⟩ :=
  ⟨checks_define (.fetch h.is rfl)⟩

instance inferred_storeMemory (space : MemorySpace) [ha : Known w a ⟨.u32, 1⟩]
    [hv : Known w v ⟨scalar, 1⟩] : Inferred w (storeMemory space a v) () :=
  ⟨fun hw => ⟨fun _ => rfl, Passage.within.add w (.storeMemory space a v) rfl,
    hw.add (.storeMemory ha.is rfl hv.is), trivial⟩⟩

theorem inferred_literal (i : Instruction) : Inferred w (literal ctx i) () := by
  unfold literal
  split <;> exact .of_parts

instance : Described (Option Nat) Unit where
  Is _ _ _ := True
  later _ h := h

instance known_fixed (fixed? : Option Nat) : Known w fixed? () := ⟨trivial⟩

instance inferred_fixedOffset (size : Nat) (expanded : Bool) :
    Inferred w (fixedOffset o size expanded) () := by
  unfold fixedOffset
  refine ⟨.ite (fun _ => .word fun _ => .word fun _ => ?_) fun _ => .pure trivial⟩
  rw [map_eq_pure_bind]
  exact .word fun _ => .pure trivial

instance inferred_foldLiterals (dest : Operand) (start words : Nat) (condition : Option Value)
    [hc : Known w condition ()] :
    Inferred w (foldLiterals ctx dest start words condition) () := by
  have folded (w' : Workspace) (k m : Nat) [Known w' condition ()] :
      Checked w' (match ctx.shader.literal m with
        | .error e => throw e
        | .ok bits => do
          Access.store ctx (nextLane dest k) (← constant (.f32 bits)) 0b0001 0 condition
          discard <| word (dest.num + k + 1)) () := by
    split <;> infer_instance
  unfold foldLiterals
  exact .of_parts

instance inferred_address (space : MemorySpace) (size : Nat) (expanded : Bool)
    [o.src0.Reading .i32] [o.src1.Reading .i32] [o.src2.Reading .i32] :
    Inferred w (address ctx o space size expanded) ⟨.u32, 1⟩ := by
  unfold address
  exact .of_parts

instance inferred_transferWord (isStore : Bool) (space : MemorySpace) (base : Value) (lane : Operand)
    (k : Nat) (condition : Option Value) [Known w base ⟨.u32, 1⟩] [lane.Reading scalar]
    [Known w condition ()] :
    Inferred w (transferWord ctx isStore space base lane k condition) () := by
  unfold transferWord
  exact .of_parts

theorem checked_transferWords [i.src0.Reading .i32] [i.src1.Reading .i32] [i.src2.Reading .i32]
    [∀ k, (nextLane { i.dest with element := .f32 } k).Reading .f32] (fixed? : Option Nat)
    (space : MemorySpace) (size words : Nat) (isStore expanded : Bool) (condition : Option Value)
    [Known w condition ()] :
    Checked w (match fixed? with
      | some start => foldLiterals ctx { i.dest with element := .f32 } start words condition
      | none => do
        let base ← address ctx i.toOperation space size expanded
        (List.range words).forM fun k => do
          transferWord ctx isStore space base (nextLane { i.dest with element := .f32 } k) k condition
          discard <| word (i.dest.num + k + 1)) () := by
  split <;> infer_instance

theorem inferred_transfer (hdest : i.dest.bank ≠ .predicate) [i.src0.Reading .i32]
    [i.src1.Reading .i32] [i.src2.Reading .i32] : Inferred w (transfer ctx i) () := by
  have lane (k : Nat) : (nextLane { i.dest with element := .f32 } k).Reading .f32 := ⟨hdest, rfl⟩
  have words (w' : Workspace) := checked_transferWords (w := w') (i := i) ctx
  unfold transfer
  split
  · dsimp only
    exact .of_parts
  · exact .of_parts

/-! ## Instructions and streams -/

theorem checks_loadDual (h : o.Floats) :
    Checks .within (loadDual ctx o) w fun r w' => ∃ n, ∀ v ∈ r.1, w'.listing.Has v ⟨.f32, n⟩ := by
  have hreads : ∀ op ∈ [o.src0, o.src1, o.src2].take (sourceCount o.opcode), op.Reads .f32 := by
    intro op hop
    have := List.mem_of_mem_take hop
    simp only [List.mem_cons, List.not_mem_nil, or_false] at this
    rcases this with rfl | rfl | rfl
    · exact h.src0
    · exact h.src1
    · exact h.src2
  rw [loadDual]
  refine (inferred_loadSources ctx hreads o.sourceMask _).checks.bind ?_
  intro values w1 _ _ hvalues
  exact .pure ⟨_, hvalues⟩

theorem inferred_dual {first second : Operation} (h1 : first.Floats) (h2 : second.Floats) :
    Inferred w (dual ctx first second) () := by
  have computed (w' : Workspace) (opcode : Opcode) (values : List Value) (same : Bool) (n : Nat)
      [Known w' values ⟨.f32, n⟩] :
      Inferred w' (compute ctx opcode values same) ⟨.f32, opcode.resultWidth n⟩ :=
    inferred_compute ctx values same fun _ => rfl
  unfold dual
  refine ⟨(inferred_forM _ _).checks.bind fun _ w1 _ _ _ => ?_⟩
  refine (checks_loadDual ctx first h1).bind ?_
  rintro sources1 w2 _ _ ⟨n1, hs1⟩
  refine (checks_loadDual ctx second h2).bind ?_
  rintro sources2 w3 h3 _ ⟨n2, hs2⟩
  have : Known w3 sources1.1 ⟨.f32, n1⟩ := ⟨Described.later h3 hs1⟩
  have : Known w3 sources2.1 ⟨.f32, n2⟩ := ⟨hs2⟩
  exact Checked.checks

theorem checks_lower (h : i.Regular) : Checks .within (lower ctx i) w fun _ _ => True := by
  have one (op : Operand) (scalar : Scalar) (h : op.Reads scalar) :
      ∀ a ∈ [op], a.Reads scalar := by simpa using h
  have two (a b : Operand) (h : a.Reads .f32 ∧ b.Reads .f32 ∧ a.Alike b) :
      ∀ op ∈ [a, b], op.Reads .f32 := by simp [h.1, h.2.1]
  have any (hany : i.opcode.anyScalar = true) (scalar : Scalar) :
      i.opcode.anyScalar = false → scalar = .f32 := fun h => absurd h (by simp [hany])
  have floats : i.opcode.anyScalar = false → Scalar.f32 = .f32 := fun _ => rfl
  suffices Inferred w (lower ctx i) () from this.checks
  unfold Instruction.Regular at h
  unfold lower
  split
  · rename_i second hdetail
    rw [hdetail] at h
    exact inferred_dual ctx h.1 h.2
  · rename_i hdetail
    split at h
    · exact absurd ‹_› (hdetail _)
    · cases hopcode : i.opcode <;> rw [hopcode] at h any
      case vmov =>
        obtain ⟨scalar, hreads⟩ := h
        exact inferred_arithmetic ctx i (one _ _ hreads) (hopcode ▸ any rfl scalar)
      case vrcp | vrsq | vlog | vexp => exact inferred_arithmetic ctx i (one _ _ h) floats
      case vmad | vf16mad =>
        have three : ∀ op ∈ [i.src0, i.src1, i.src2], op.Reads .f32 := by
          simpa using ⟨h.src0, h.src1, h.src2⟩
        exact inferred_arithmetic ctx i three floats
      case vmul | vadd | vfrc | vdsx | vdsy | vmin | vmax | vdp | vf16mul | vf16add | vf16frc
          | vf16dsx | vf16dsy | vf16min | vf16max | vf16dp =>
        exact inferred_arithmetic ctx i (two _ _ h) floats
      case vmovc | vmovcu8 =>
        obtain ⟨⟨source, h0⟩, scalar, h1, h2, -⟩ := h
        exact @inferred_conditionalMove ctx _ _ _ _ ⟨h0⟩ ⟨h1⟩ ⟨h2⟩
      case vpck => exact inferred_pack ctx h.1 h.2
      case and | or | xor | shl | rol | shr | asr =>
        exact @inferred_bitwise ctx _ _ ⟨h.1⟩ ⟨h.2⟩ (by simp [hopcode, Opcode.anyScalar])
      case sop2 => exact @inferred_blend ctx _ _ ⟨h.1⟩ ⟨h.2⟩
      case sop2m => exact @inferred_maskedBlend ctx _ _ ⟨h.1⟩ ⟨h.2⟩
      case vtst => exact inferred_test ctx h
      case vtstmsk => exact inferred_testMask ctx h
      case ldr | str => exact @inferred_transfer ctx _ _ h.1 ⟨h.2.1⟩ ⟨h.2.2.1⟩ ⟨h.2.2.2⟩
      case limm => exact inferred_literal ctx i
      case smlsi =>
        dsimp only
        split
        · exact ⟨fun hw => ⟨fun _ => rfl, ⟨.refl _, rfl, rfl, fun h => h⟩,
            ⟨hw.listing, hw.registers⟩, trivial⟩⟩
        · exact .of_parts
      case nop | phas | spec => exact ⟨.pure trivial⟩
      all_goals exact .of_parts

theorem checks_lowerWords (secondary : Bool) (words : List Word) :
    Checks .within (lowerWords ctx secondary words) w fun _ _ => True := by
  induction words generalizing w with
  | nil => exact .pure trivial
  | cons word rest ih =>
    rw [lowerWords]
    split
    · exact .throw
    · rename_i i hdecode
      refine (checks_lower ctx (decode_regular hdecode)).bind ?_
      intro _ w1 _ _ _
      exact .ite (fun _ => .pure trivial) fun _ => ih

theorem checks_lowerStream (words : List Word) (secondary : Bool) :
    Checks .within (lowerStream ctx words secondary) w fun _ _ => True := by
  have reset : Checks .within
      (modify fun w => { w with increments := .replicate .identity } : Emit Unit) w fun _ _ => True :=
    fun hw => ⟨fun _ => rfl, ⟨.refl _, rfl, rfl, fun h => h⟩,
      ⟨hw.listing, hw.registers⟩, trivial⟩
  exact reset.bind fun _ _ _ _ _ => checks_lowerWords ctx secondary words

end Microcode
