import Microcode.Proofs.Footprints

/-!
The code of instructions in any frame.

The code of an instruction evaluates a predicate, reads and writes operands as far as its repeats
advance them, and otherwise only defines values.  So it stays in every frame that lets operands be
read and written there.
-/

namespace Microcode

open Emit Footprint List

variable (ctx : Context) {i : Instruction} {o : Operation}

/-! ## Operands that a frame lets be read and written -/

/-- An operand that may be read, through any swizzle, and written `sub` lanes further on. -/
class Operand.Open (F : Footprint) (op : Operand) (sub : Int) : Prop where
  load : ∀ ctx swizzle mask, Within F (Access.load ctx { op with swizzle } mask sub)
  store : ∀ ctx v mask condition, Within F (Access.store ctx op v mask sub condition)

/-- A frame in which predicates may be evaluated, and all errors may come up but an overflow. -/
class Footprint.Hosts (F : Footprint) : Prop where
  may : ∀ e, e ≠ .overflow → F.May e
  condition : ∀ p, Within F (Access.condition p)

/-- An operation whose operands may be read and written at the distances of `D`, which are all
those that its repeats ask for. -/
structure Operation.Reached (F : Footprint) (D : Int → Prop) (o : Operation) : Prop where
  zero : D 0
  dest : ∀ sub, D sub → o.dest.Open F sub
  src0 : ∀ sub, D sub → o.src0.Open F sub
  src1 : ∀ sub, D sub → o.src1.Open F sub
  src2 : ∀ sub, D sub → o.src2.Open F sub
  advances : ∀ n ≤ o.repeatCount, ∀ w,
    F.Leads (Lowering.advances o n) w fun amounts _ => ∀ k, D (amounts.get k)

/-- An instruction whose operations may do what they ask for.  A transfer reaches as many lanes
from its first one on as it moves bytes, and its numbers stay below the sum of all that it
names. -/
structure Instruction.Reached (F : Footprint) (D : Int → Prop) (i : Instruction) : Prop extends
    Operation.Reached F D i.toOperation where
  second : ∀ o, i.detail = .dual o → o.Reached F D
  lanes : ∀ element count expanded, i.detail = .memory element count expanded →
    ∀ k ≤ element.size * count, (Lowering.nextLane { i.dest with element := .f32 } k).Open F 0
  words : ∀ element count expanded, i.detail = .memory element count expanded →
    ∀ n ≤ element.size * (i.src1.num + count) + i.src2.num + i.dest.num + 8, Within F (word n)

section

variable {F : Footprint}

instance within_openLoad (ctx : Context) (op : Operand) (mask : Mask) (sub : Int)
    [h : op.Open F sub] : Within F (Access.load ctx op mask sub) :=
  h.load ctx op.swizzle mask

instance within_openStore (ctx : Context) (op : Operand) (v : Value) (mask : Mask) (sub : Int)
    (condition : Option Value) [h : op.Open F sub] :
    Within F (Access.store ctx op v mask sub condition) :=
  h.store ctx v mask condition

variable [h : F.Hosts]

instance within_hostedCondition (p : Predicate) : Within F (Access.condition p) := h.condition p

instance may_unsupported (what : Unsupported) : F.May (.unsupported what) := h.may _ nofun

instance may_decode (e : DecodeError) : F.May (.decode e) := h.may _ nofun

instance may_metadata (fault : MetadataFault) : F.May (.metadata fault) := h.may _ nofun

theorem may_literal {s : Shader} {offset : Nat} {e : Error} (he : s.literal offset = .error e) :
    F.May e := by
  unfold Shader.literal at he
  dsimp only at he
  split at he
  · cases he
  · obtain rfl := Except.error.inj he
    infer_instance

end

/-! ## Families of instructions -/

namespace Lowering

variable {F : Footprint} {D : Int → Prop}

-- Instances are sought for blocks of up to ten requests.
set_option synthInstance.maxSize 1000

theorem within_mapM_mem {α γ : Type} {g : γ → Emit α} (xs : List γ)
    (h : ∀ c ∈ xs, Within F (g c)) : Within F (xs.mapM g) := by
  induction xs with
  | nil =>
    rw [mapM_nil]
    infer_instance
  | cons c rest ih =>
    have := h c mem_cons_self
    have := ih fun d hd => h d (.tail _ hd)
    rw [mapM_cons]
    infer_instance

theorem within_forM_mem {γ : Type} {g : γ → Emit Unit} (xs : List γ)
    (h : ∀ c ∈ xs, Within F (g c)) : Within F (xs.forM g) :=
  ⟨fun _ => .forM xs trivial fun c hc w' _ _ => (h c hc).leads w'⟩

/-- The body of a repeat is run with the distances that the repeat asks for. -/
theorem within_repeated (h : o.Reached F D) {body : Nat → Quad Int → Emit Unit}
    (hbody : ∀ n amounts, (∀ k, D (amounts.get k)) → Within F (body n amounts)) :
    Within F (repeated o body) := by
  apply within_forM_mem
  intro n hn
  constructor
  intro w
  apply (h.advances n (Nat.le_of_lt_succ (mem_range.1 hn)) w).bind
  intro amounts w1 _ hamounts
  exact (hbody n amounts hamounts).leads w1

theorem within_loadSources (operands : List Operand) (mask : Mask) (amounts : Quad Int)
    (h : ∀ op ∈ operands, op.Open F (amounts.get op.slot)) :
    Within F (loadSources ctx operands mask amounts) := by
  apply within_mapM_mem
  intro op hop
  have := h op hop
  infer_instance

instance within_loadUnorm (ctx : Context) (op : Operand) (mask : Mask) (sub : Int) [op.Open F sub] :
    Within F (loadUnorm ctx op mask sub) := by
  unfold loadUnorm
  infer_instance

theorem within_loadDual (h : o.Reached F D) : Within F (loadDual ctx o) := by
  have zero (k : Nat) : (Quad.replicate (0 : Int)).get k = 0 := by
    unfold Quad.get
    split <;> rfl
  have hsources : ∀ op ∈ [o.src0, o.src1, o.src2].take (sourceCount o.opcode),
      op.Open F ((Quad.replicate 0).get op.slot) := by
    intro op hop
    have hmem := mem_of_mem_take hop
    simp only [mem_cons, not_mem_nil, or_false] at hmem
    rw [zero]
    rcases hmem with rfl | rfl | rfl
    · exact h.src0 0 h.zero
    · exact h.src1 0 h.zero
    · exact h.src2 0 h.zero
  have := within_loadSources ctx _ o.sourceMask (.replicate 0) hsources
  unfold loadDual
  infer_instance

theorem leads_fixedOffset (o : Operation) (size : Nat) (expanded : Bool) {bound : Nat}
    (hbound : o.src1.num * size + o.src2.num + 4 ≤ bound) (hwords : ∀ n ≤ bound, Within F (word n))
    (w : Workspace) : F.Leads (fixedOffset o size expanded) w fun found? _ =>
      ∀ start, found? = some start → start ≤ o.src1.num * size + o.src2.num + 4 := by
  unfold fixedOffset
  apply Leads.ite
  · intro _
    apply (leads_word (hwords _ (by omega)) w).bind
    rintro scaled w1 - ⟨rfl, rfl⟩
    apply (leads_word (hwords _ (by omega)) w1).bind
    rintro sum w2 - ⟨rfl, rfl⟩
    have hle : o.src1.num * size + o.src2.num + (if expanded = true then 0 else 4) ≤
        o.src1.num * size + o.src2.num + 4 := by
      split <;> omega
    rw [map_eq_pure_bind]
    apply (leads_word (hwords _ (Nat.le_trans hle hbound)) w2).bind
    rintro start w3 - ⟨rfl, rfl⟩
    refine .pure fun start h => ?_
    obtain rfl := Option.some.inj h
    exact hle
  · exact fun _ => .pure fun _ h => nomatch h

theorem within_address (space : MemorySpace) (size : Nat) (expanded : Bool) (h : o.Reached F D)
    (hword : Within F (word (o.src1.num * size))) :
    Within F (address ctx o space size expanded) := by
  have := h.src0 0 h.zero
  have := h.src1 0 h.zero
  have := h.src2 0 h.zero
  unfold address
  infer_instance

variable [F.Hosts]

theorem within_arithmetic (h : i.Reached F D) (sources : List Operand)
    (hsources : ∀ op ∈ sources, ∀ sub, D sub → op.Open F sub) :
    Within F (arithmetic ctx i sources) := by
  unfold arithmetic
  apply Within.bind_cases
  intro condition
  apply within_repeated h.toReached
  intro n amounts hamounts
  have := h.dest amounts.w (hamounts 3)
  have := within_loadSources ctx sources i.sourceMask amounts fun op hop =>
    hsources op hop _ (hamounts op.slot)
  infer_instance

theorem within_bitwise (h : i.Reached F D) : Within F (bitwise ctx i) := by
  have operand (invert : Bool) (immediate? : Option Lane) (sub : Int) (hsub : D sub) :
      Within F (bitwiseOperand ctx i.toOperation invert immediate? sub) := by
    have := h.src2 sub hsub
    unfold bitwiseOperand
    split <;> infer_instance
  have body (invert : Bool) (immediate? : Option Lane) (condition : Option Value) :
      Within F (repeated i.toOperation fun _ amounts => do
        let a ← Access.load ctx i.src1 0b0001 amounts.y
        let b ← bitwiseOperand ctx i.toOperation invert immediate? amounts.z
        let v ← compute ctx i.opcode [a, b] false
        Access.store ctx i.dest v 0b0001 amounts.w condition) := by
    apply within_repeated h.toReached
    intro n amounts hamounts
    have := h.src1 amounts.y (hamounts 1)
    have := operand invert immediate? amounts.z (hamounts 2)
    have := h.dest amounts.w (hamounts 3)
    infer_instance
  unfold bitwise
  dsimp only
  infer_instance

theorem within_blend (h : i.Reached F D) : Within F (blend ctx i) := by
  unfold blend
  split
  · apply Within.bind_cases
    intro condition
    apply within_repeated h.toReached
    intro n amounts hamounts
    have := h.src1 amounts.y (hamounts 1)
    have := h.src2 amounts.z (hamounts 2)
    have := h.dest amounts.w (hamounts 3)
    have (complemented : Bool) :
        Within F (loadBlendSources ctx i.toOperation complemented amounts) := by
      unfold loadBlendSources
      infer_instance
    infer_instance
  · infer_instance

theorem within_maskedBlend (h : i.Reached F D) : Within F (maskedBlend ctx i) := by
  have := h.dest 0 h.zero
  have := h.src1 0 h.zero
  have := h.src2 0 h.zero
  unfold maskedBlend
  split
  · iterate 6
      apply Within.bind_cases
      intro _
    infer_instance
  · infer_instance

theorem within_dual {first second : Operation} (h : first.Reached F D) (h' : second.Reached F D) :
    Within F (dual ctx first second) := by
  have := h.dest 0 h.zero
  have := h'.dest 0 h.zero
  have := within_loadDual ctx h
  have := within_loadDual ctx h'
  unfold dual
  infer_instance

theorem within_literal (h : i.Reached F D) : Within F (literal ctx i) := by
  have := h.dest 0 h.zero
  unfold literal
  split <;> infer_instance

theorem within_conditionalMove (h : i.Reached F D) : Within F (conditionalMove ctx i) := by
  unfold conditionalMove
  dsimp only
  apply Within.bind_cases
  intro condition
  apply within_repeated h.toReached
  intro n amounts hamounts
  have := h.src0 amounts.x (hamounts 0)
  have := h.src1 amounts.y (hamounts 1)
  have := h.src2 amounts.z (hamounts 2)
  have := h.dest amounts.w (hamounts 3)
  infer_instance

theorem within_pack (dest source : Element) (h : i.Reached F D) :
    Within F (pack ctx i dest source) := by
  unfold pack
  dsimp only
  apply Within.bind_cases
  intro condition
  apply within_repeated h.toReached
  intro n amounts hamounts
  have := h.src2 amounts.z (hamounts 2)
  have := h.dest amounts.w (hamounts 3)
  have load : Within F
      (Access.load ctx (packSource dest source i.destMask i.src1) i.sourceMask amounts.y) := by
    have hsrc1 := h.src1 amounts.y (hamounts 1)
    unfold packSource
    split
    · exact hsrc1.load ctx _ i.sourceMask
    · infer_instance
  have (secondMask : Mask) : Within F (packComponents ctx i.toOperation
      (packSource dest source i.destMask i.src1) secondMask amounts) := by
    unfold packComponents
    infer_instance
  infer_instance

theorem within_evaluateTest (h : i.Reached F D) : Within F (evaluateTest ctx i) := by
  have := h.src1 0 h.zero
  have := h.src2 0 h.zero
  unfold evaluateTest
  split
  · apply Within.bind_cases
    intro a
    apply Within.bind_cases
    intro b
    split <;> infer_instance
  · infer_instance

theorem within_test (h : i.Reached F D) : Within F (test ctx i) := by
  have := h.dest 0 h.zero
  have := within_evaluateTest ctx h
  unfold test
  infer_instance

theorem within_testMask (h : i.Reached F D) : Within F (testMask ctx i) := by
  have := h.dest 0 h.zero
  have := within_evaluateTest ctx h
  unfold testMask
  dsimp only
  infer_instance

/-! ## Transfers -/

theorem within_foldLiterals {dest : Operand} {start words bound : Nat} (condition : Option Value)
    (hbound : start + 4 * words + dest.num ≤ bound)
    (hlanes : ∀ k < words, (nextLane dest k).Open F 0) (hwords : ∀ n ≤ bound, Within F (word n)) :
    Within F (foldLiterals ctx dest start words condition) := by
  apply within_forM_mem
  intro k hk
  have hk := mem_range.1 hk
  have := hlanes k hk
  have := hwords (start + k * 4) (by omega)
  have := hwords (dest.num + k + 1) (by omega)
  apply Within.bind_cases
  intro place
  cases hliteral : ctx.shader.literal place with
  | error e =>
    have := may_literal (F := F) hliteral
    infer_instance
  | ok bits =>
    dsimp only
    infer_instance

theorem within_transfer (h : i.Reached F D) : Within F (transfer ctx i) := by
  unfold transfer
  split
  case h_1 element count expanded hdetail =>
    have hlanes := h.lanes element count expanded hdetail
    have hwords := h.words element count expanded hdetail
    rw [Nat.mul_add, Nat.mul_comm element.size i.src1.num] at hwords
    constructor
    intro w
    apply (leads_word (hwords _ (by omega)) w).bind
    rintro _ w1 - ⟨rfl, rfl⟩
    apply Leads.andThen
    intro condition w2 _
    generalize hcount : (element.size * count + 3) / 4 = words
    have moves (base : Value) : Within F ((List.range words).forM fun k => do
        transferWord ctx (i.opcode = .str) (memorySpace ctx.shader.aliases i.src0) base
          (nextLane { i.dest with element := .f32 } k) k condition
        discard <| word (i.dest.num + k + 1)) := by
      apply within_forM_mem
      intro k hk
      have hk := mem_range.1 hk
      have := hlanes k (by omega)
      have := hwords (k * 4) (by omega)
      have := hwords (i.dest.num + k + 1) (by omega)
      unfold transferWord
      infer_instance
    have := within_address ctx (memorySpace ctx.shader.aliases i.src0) element.size expanded
      h.toReached (hwords _ (by omega))
    apply Leads.ite
    · exact fun _ => .raise
    · intro _
      apply Leads.ite
      · intro _
        apply (leads_fixedOffset i.toOperation element.size expanded (by omega) hwords w2).bind
        intro fixed? w3 _ hfixed
        cases fixed? with
        | some start =>
          have hstart := hfixed start rfl
          have := within_foldLiterals ctx condition (Nat.le_of_add_right_le (by
            show start + 4 * words + i.dest.num + 0 ≤ _
            omega)) (fun k hk => hlanes k (by omega)) hwords
          exact Within.leads w3
        | none => exact Within.leads w3
      · intro _
        rw [pure_bind]
        exact Within.leads w2
  case h_2 => infer_instance

end Lowering

/-! ## Instructions and streams -/

section

open Lowering

variable {F : Footprint} {D : Int → Prop} [F.Hosts]

theorem within_lower (h : i.Reached F D) : Within F (lower ctx i) := by
  have one : ∀ op ∈ [i.src1], ∀ sub, D sub → op.Open F sub := by
    simpa using h.src1
  have two : ∀ op ∈ [i.src1, i.src2], ∀ sub, D sub → op.Open F sub := by
    simpa using ⟨h.src1, h.src2⟩
  have three : ∀ op ∈ [i.src0, i.src1, i.src2], ∀ sub, D sub → op.Open F sub := by
    simpa using ⟨h.src0, h.src1, h.src2⟩
  unfold lower
  split
  case h_1 second hdetail => exact within_dual ctx h.toReached (h.second second hdetail)
  case h_2 =>
    generalize i.opcode = opcode
    cases opcode with
    | vmov | vrcp | vrsq | vlog | vexp => exact within_arithmetic ctx h _ one
    | vmad | vf16mad => exact within_arithmetic ctx h _ three
    | vmul | vadd | vfrc | vdsx | vdsy | vmin | vmax | vdp
    | vf16mul | vf16add | vf16frc | vf16dsx | vf16dsy | vf16min | vf16max | vf16dp =>
      exact within_arithmetic ctx h _ two
    | vmovc | vmovcu8 => exact within_conditionalMove ctx h
    | vpck dest source => exact within_pack ctx dest source h
    | and | or | xor | shl | rol | shr | asr => exact within_bitwise ctx h
    | sop2 => exact within_blend ctx h
    | sop2m => exact within_maskedBlend ctx h
    | vtst => exact within_test ctx h
    | vtstmsk => exact within_testMask ctx h
    | ldr | str => exact within_transfer ctx h
    | limm => exact within_literal ctx h
    | smlsi =>
      dsimp only
      split <;> infer_instance
    | nop | phas | spec | sop3 | smp | kill | br
    | vssq | fmad | fadd | fmul | fsubflr | frsq | frcp | fexp | flog =>
      dsimp only
      infer_instance

/-- The code of words stays in a frame that lets every word of the program do what it asks for. -/
theorem within_lowerWords (secondary : Bool) (words : List Word)
    (h : ∀ word i, decode word secondary = .ok i → i.Reached F D) :
    Within F (lowerWords ctx secondary words) := by
  induction words with
  | nil =>
    unfold lowerWords
    infer_instance
  | cons word rest ih =>
    unfold lowerWords
    split
    case h_1 => infer_instance
    case h_2 i hi =>
      have := within_lower ctx (h word i hi)
      infer_instance

theorem within_lowerStream (words : List Word) (secondary : Bool)
    (h : ∀ word i, decode word secondary = .ok i → i.Reached F D) :
    Within F (lowerStream ctx words secondary) := by
  have := within_lowerWords ctx secondary words h
  unfold lowerStream
  infer_instance

end

end Microcode
