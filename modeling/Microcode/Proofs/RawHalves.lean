import Microcode.Proofs.Attributes
import Microcode.Proofs.BitwiseWords
import Microcode.Proofs.Rounding

/-!
Halves of a host that keeps their bits.

Halves are widened to be moved, and so is the half beside one that is written.  What comes back has
the same bits, unless it is a signalling NaN: that one comes back quiet.
-/

namespace Microcode

open Machine Emit Access Lowering List

variable (ctx : Context) {start : Nat → Nat → Lanes} {w w' : Workspace} {s s' : State}
  {op dest : Operand} {mask : Mask} {sub : Int} {f : Nat → Lane} {n k : Nat} {taken : Bool}

/-- An operand for halves in registers that are not internal. -/
structure Operand.OfHalves (op : Operand) : Prop where
  register : op.bank.isRegister = true
  outside : op.bank ≠ .internal
  element : op.element = .f16

theorem Operand.OfHalves.storage (h : op.OfHalves) : op.storage = .f16 := by
  rw [Operand.storage, if_neg h.outside, h.element]

theorem Context.halfEncoding_raw (raw : ctx.features.rawHalves = true) :
    ctx.halfEncoding = .ieee := by
  rw [Context.halfEncoding, if_pos raw]

/-- A half is written rounded, and the one beside it comes back quiet. -/
theorem field_merged_half (hs : dest.storage = .f16) (f : Nat → Lane) (old : Lane) (hk : k < 2) :
    field 16 (dest.merged .ieee mask f old n) k =
      if n * 2 + k ∈ Mask.components mask then Binary16.ofBinary32 (f (n * 2 + k))
      else Binary16.quieted (field 16 old k) := by
  rw [Operand.merged, hs]
  refine (Element.field_pack (e := .f16) .ieee (by simp) hk).trans ?_
  rw [getD_eq_getElem _ _ (by simpa using show k < Element.f16.ratio from hk), getElem_map,
    getElem_range]
  show ((Binary16.ofBinary32 _).setWidth 32).setWidth 16 = _
  rw [BitVec.setWidth_setWidth_of_le _ (by omega), BitVec.setWidth_eq]
  show Binary16.ofBinary32 (if n * 2 + k ∈ Mask.components mask then _ else _) = _
  split
  · rfl
  · exact Binary16.ofBinary32_toBinary32 _

/-- The halves of a lane after a store that takes place. -/
theorem Stores.halves (h : Stores w s w' s' dest .ieee mask sub f true) (hs : dest.storage = .f16)
    (hn : n ∈ dest.writtenLanes mask) : ∃ y,
      w'.registers.laneAt s' dest.bank (dest.laneOf (sub + n)) = some y ∧
      ∀ k, k < 2 →
        if n * 2 + k ∈ Mask.components mask then field 16 y k = Binary16.ofBinary32 (f (n * 2 + k))
        else ∀ x, w.registers.laneAt s dest.bank (dest.laneOf (sub + n)) = some x →
          field 16 y k = Binary16.quieted (field 16 x k) := by
  obtain ⟨g, hwrites, hg⟩ := h
  obtain ⟨hbacks, old, hold, hgn⟩ := hg n hn
  refine ⟨g n, hwrites.written ?_, fun k hk => ?_⟩
  · rw [if_pos rfl, newLanes_eq_some]
    exact ⟨n, hn, (Int.toNat_of_nonneg hbacks.1).symm, rfl⟩
  rw [hgn, field_merged_half hs f old hk]
  by_cases hmem : n * 2 + k ∈ Mask.components mask
  · rw [if_pos hmem, if_pos hmem]
  · rw [if_neg hmem, if_neg hmem]
    intro x hx
    rw [hold x hx]

/-- Lanes that a store does not write. -/
theorem Stores.kept (h : Stores w s w' s' dest .ieee mask sub f taken) {bank : Bank} {lane : Nat}
    (hlane : taken = true → bank = dest.bank → ∀ n ∈ dest.writtenLanes mask,
      lane ≠ dest.laneOf (sub + n)) {x : Lane} (hx : w.registers.laneAt s bank lane = some x) :
    w'.registers.laneAt s' bank lane = some x := by
  obtain ⟨g, hwrites, -⟩ := h
  refine hwrites.kept (fun hbank => ?_) hx
  split
  · cases hnews : newLanes dest.bank dest.num sub (dest.writtenLanes mask) g lane with
    | none => rfl
    | some y =>
      obtain ⟨n, hn, hnumber, -⟩ := newLanes_eq_some.1 hnews
      exact absurd (congrArg Int.toNat hnumber).symm (hlane ‹_› hbank n hn)
  · rfl

/-! ## Moves -/

/-- A move of four halves as they are, from register to register. -/
structure Instruction.MovesHalves (i : Instruction) : Prop where
  opcode : i.opcode = .vmov
  single : ∀ second, i.detail ≠ .dual second
  predicate : i.predicate = .none
  once : i.repeatCount = 0
  source : i.src1.OfHalves
  slot : i.src1.slot = 1
  dest : i.dest.OfHalves
  swizzle : i.src1.swizzle = Swizzle.identity
  absolute : i.src1.modifiers.absolute = false
  negative : i.src1.modifiers.negative = false
  sourceMask : i.sourceMask = 0b1111
  destMask : i.destMask = 0b1111

namespace Instruction.MovesHalves

variable {i : Instruction}

theorem lower_eq (h : i.MovesHalves) : lower ctx i = arithmetic ctx i [i.src1] := by
  rw [lower]
  split
  · exact absurd ‹_› (h.single _)
  · rw [h.opcode]

/-- A move of halves reads two lanes. -/
theorem touches_iff (h : i.MovesHalves) : i.src1.Touches i.sourceMask n ↔ n < 2 := by
  have hall : i.src1.storageOf i.sourceMask = [0, 1, 2, 3] := by
    rw [Operand.storageOf, h.sourceMask, h.swizzle]
    rfl
  have hratio : i.src1.storage.ratio = 2 := by
    rw [h.source.storage]
    rfl
  rw [Operand.Touches, hall, hratio]
  simp only [mem_cons, not_mem_nil, or_false, exists_eq_or_imp, exists_eq_left]
  omega

/-- The components that a move of halves reads from two lanes. -/
def components (lanes : Nat → Lane) : List Lane :=
  (List.range 4).map fun c => Binary16.toBinary32 (field 16 (lanes (c / 2)) (c % 2))

theorem getD_components (lanes : Nat → Lane) (hn : n < 2) (hk : k < 2) :
    (components lanes).getD (n * 2 + k) 0#32 = Binary16.toBinary32 (field 16 (lanes n) k) := by
  have hlt : n * 2 + k < 4 := by omega
  rw [components, getD_eq_getElem _ _ (by simpa using hlt), getElem_map,
    getElem_range, show (n * 2 + k) / 2 = n by omega, show (n * 2 + k) % 2 = k by omega]

theorem reads_eq (h : i.MovesHalves) (lanes : Nat → Lane) :
    ((Mask.components i.sourceMask).map fun c => i.src1.modifiers.apply i.src1.storage.scalar
      (i.src1.reads .ieee lanes c)) = components lanes := by
  rw [h.sourceMask]
  refine map_congr_left fun c hc => ?_
  have hc' : c < 4 := Mask.lt_of_mem_components hc
  have hchannel : (Swizzle.identity.get c).storage? = some c :=
    (by decide : ∀ c < 4, (Swizzle.identity.get c).storage? = some c) c hc'
  simp only [Operand.reads, h.swizzle, hchannel, h.source.storage, Modifiers.apply, h.absolute,
    h.negative]
  rfl

theorem emits (h : i.MovesHalves) (raw : ctx.features.rawHalves = true)
    (aligned : w.registers.Aligned i.src1.bank)
    (resolves : ∀ n : Nat, n < 2 → w.Resolves i.src1.bank i.src1.num
      (advance w.increments i.toOperation i.src1 0 + n)) :
    Emits (.alters start) (lower ctx i) w s
      (fun _ w' s' => ∃ x : Nat → Lane, (∀ n : Nat, n < 2 → w.registers.laneAt s i.src1.bank
          (i.src1.laneOf (advance w.increments i.toOperation i.src1 0 + n)) = some (x n)) ∧
        Stores w s w' s' i.dest .ieee i.destMask (advance w.increments i.toOperation i.dest 0)
          ((components x).getD · 0#32) true)
      fun _ _ => True := by
  rw [h.lower_eq, arithmetic]
  have hcondition : Access.condition i.predicate = pure none := by
    rw [h.predicate]
    rfl
  rw [hcondition, pure_bind, repeated_once h.once]
  refine Emits.advances ?_
  have hmask : maskAt i 0 = i.destMask := by
    rw [maskAt]
    split <;> rfl
  simp only [loadSources, mapM_cons, mapM_nil, h.slot, h.opcode, hmask, bind_assoc,
    pure_bind]
  refine ((emits_load ctx h.source.register (by rw [h.sourceMask]; decide) _).fails
    fun _ _ _ => trivial).alters.bind fun v w1 s1 _ h1 => ?_
  obtain ⟨k1, hv, -⟩ := h1
  rw [ctx.halfEncoding_raw raw, h.reads_eq] at hv
  refine Emits.bind (.pure (P := fun u w2 s2 => u = v ∧ w2 = w1 ∧ s2 = s1) ⟨rfl, rfl, rfl⟩) ?_
  rintro u w2 s2 - ⟨rfl, rfl, rfl⟩
  refine (emits_store_value ctx h.dest.register i.destMask _ hv
    (show Permits _ _ none true from rfl)).mono (fun _ w3 s3 _ h3 =>
      ⟨i.src1.gathered w.registers s i.sourceMask (advance w.increments i.toOperation i.src1 0),
        fun n hn => ?_, ?_⟩) fun _ _ _ => trivial
  · exact Operand.gathered_eq k1.good aligned (fun n hn => resolves n (h.touches_iff.1 hn))
      (h.touches_iff.2 hn)
  · rw [ctx.halfEncoding_raw raw, h.source.storage, h.dest.storage] at h3
    have hwritten (xs : List Lane) (hxs : xs.length = 4) :
        Element.f16.written .f32 xs i.destMask = (xs.getD · 0#32) := by
      funext c
      rw [Element.written, componentFor_four hxs]
      rfl
    have h4 := h3.after_keeps k1
    rw [show Element.f16.scalar = .f32 from rfl, hwritten _ (by simp [components])] at h4
    exact h4

end Instruction.MovesHalves

/-! ## Halves on a machine -/

/-- On a host that keeps the bits of halves, a move of four halves sets two lanes of its destination
to two lanes of its source, and a store leaves the halves beside those that it writes, in both cases
with the NaNs among them made quiet.  All else stays as it is. -/
theorem raw_halves_come_back_quiet (ctx : Context) (w w' : Workspace)
    (raw : ctx.features.rawHalves = true) (ready : w.Ready) (separate : w.registers.Separate) :
    (∀ i : Instruction, i.MovesHalves →
      let source := advance w.increments i.toOperation i.src1 0
      let dest := advance w.increments i.toOperation i.dest 0
      w.registers.Aligned i.src1.bank →
      (∀ n : Nat, n < 2 → w.Resolves i.src1.bank i.src1.num (source + n)) →
      lower ctx i w = .ok () w' →
      ∀ l : Listing, w'.listing.entries.toList <+: l.entries.toList →
      ∀ S : State, S.Loaded (.ofListing l) →
        let T := S.runSince (.ofListing l) w.listing w'.listing
        (∀ n : Nat, n < 2 → ∃ x y,
          w.registers.laneAt S i.src1.bank (i.src1.laneOf (source + n)) = some x ∧
          w'.registers.laneAt T i.dest.bank (i.dest.laneOf (dest + n)) = some y ∧
          ∀ k < 2, field 16 y k = Binary16.quieted (field 16 x k)) ∧
        ∀ bank lane x, (bank = i.dest.bank → ∀ n : Nat, n < 2 → lane ≠ i.dest.laneOf (dest + n)) →
          w.registers.laneAt S bank lane = some x → w'.registers.laneAt T bank lane = some x) ∧
    ∀ (dest : Operand) (v : Value) (mask : Mask) (sub : Int) (condition : Option Value),
      dest.OfHalves → w.listing.Offers v → w.listing.Tests condition →
      Access.store ctx dest v mask sub condition w = .ok () w' →
      ∀ l : Listing, w'.listing.entries.toList <+: l.entries.toList →
      ∀ S : State, S.Loaded (.ofListing l) →
        let T := S.runSince (.ofListing l) w.listing w'.listing
        let taken := ∀ c ∈ condition, (S.lanes c).get 0 ≠ 0#32
        (taken → ∀ n ∈ dest.writtenLanes mask, ∀ k < 2, n * 2 + k ∉ Mask.components mask →
          ∀ x, w.registers.laneAt S dest.bank (dest.laneOf (sub + n)) = some x →
          ∃ y, w'.registers.laneAt T dest.bank (dest.laneOf (sub + n)) = some y ∧
            field 16 y k = Binary16.quieted (field 16 x k)) ∧
        ∀ bank lane x, (taken → bank = dest.bank → ∀ n ∈ dest.writtenLanes mask,
            lane ≠ dest.laneOf (sub + n)) →
          w.registers.laneAt S bank lane = some x → w'.registers.laneAt T bank lane = some x := by
  constructor
  · intro i h source dest aligned resolves lowered l hl S hS T
    obtain ⟨s', a, ⟨x, hx, hstores⟩, -, -, hT⟩ := ready.exists_run (F := .alters)
      (fun _ _ good => ⟨good, separate⟩) (fun _ _ _ r => r.steps)
      (fun _ _ => h.emits ctx raw aligned resolves) lowered hl hS
    have hbefore := State.shows_upTo w.listing S
    have hwritten (n : Nat) : n ∈ i.dest.writtenLanes i.destMask ↔ n < 2 := by
      rw [show i.dest.writtenLanes i.destMask = List.range 2 by
        rw [Operand.writtenLanes, h.destMask, h.dest.storage]; rfl, List.mem_range]
    refine ⟨fun n hn => ?_, fun bank lane y hother hy => ?_⟩
    · obtain ⟨y, hy, hfields⟩ := hstores.halves h.dest.storage ((hwritten n).2 hn)
      refine ⟨x n, y, ?_, ?_, fun k hk => ?_⟩
      · rw [hbefore.laneAt ready.registers]
        exact hx n hn
      · rw [hT.laneAt a.good'.registers]
        exact hy
      · have hmem : n * 2 + k ∈ Mask.components i.destMask := by
          rw [h.destMask, show Mask.components 0b1111 = List.range 4 from rfl, List.mem_range]
          omega
        have hfield := hfields k hk
        rw [if_pos hmem, Instruction.MovesHalves.getD_components x hn hk,
          Binary16.ofBinary32_toBinary32] at hfield
        exact hfield
    · rw [hbefore.laneAt ready.registers] at hy
      rw [hT.laneAt a.good'.registers]
      exact hstores.kept (fun _ hbank n hn => hother hbank n ((hwritten n).1 hn)) hy
  · intro dest v mask sub condition h offered tested stored l hl S hS T taken
    obtain ⟨s', a, hstores, -, -, hT⟩ := ready.exists_run (F := .alters)
      (fun _ _ good => ⟨good, separate⟩) (fun _ _ _ r => r.steps)
      (fun _ s => emits_store_value ctx h.register mask sub (offered.holds s) (tested.permits s))
      stored hl hS
    have hbefore := State.shows_upTo w.listing S
    have htaken : decide (∀ c ∈ condition, ((S.upTo w.listing).lanes c).get 0 ≠ 0#32) = true ↔
        taken := by
      rw [decide_eq_true_iff]
      refine forall₂_congr fun c hc => ?_
      rw [hbefore.values c (tested c hc).1]
    rw [ctx.halfEncoding_raw raw] at hstores
    refine ⟨fun ht n hn k hk hnot x hx => ?_, fun bank lane x hother hx => ?_⟩
    · rw [htaken.2 ht] at hstores
      obtain ⟨y, hy, hfields⟩ := hstores.halves h.storage hn
      rw [hbefore.laneAt ready.registers] at hx
      refine ⟨y, ?_, ?_⟩
      · rw [hT.laneAt a.good'.registers]
        exact hy
      · have := hfields k hk
        rw [if_neg hnot] at this
        exact this x hx
    · rw [hbefore.laneAt ready.registers] at hx
      rw [hT.laneAt a.good'.registers]
      exact hstores.kept (fun ht => hother (htaken.1 ht)) hx

/-- A host that keeps the bits of halves. -/
def rawContext : Context := { features := { rawHalves := true } }

/-- Four halves from the first two attribute lanes to the second and the third. -/
def moveHalves : Instruction :=
  { opcode := .vmov
    dest := { bank := .primaryAttribute, num := 1, element := .f16, slot := 3 }
    src1 := { bank := .primaryAttribute, num := 0, element := .f16, slot := 1 } }

theorem movesHalves_moveHalves : moveHalves.MovesHalves where
  opcode := rfl
  single _ := nofun
  predicate := rfl
  once := rfl
  source := ⟨rfl, by decide, rfl⟩
  slot := rfl
  dest := ⟨rfl, by decide, rfl⟩
  swizzle := rfl
  absolute := rfl
  negative := rfl
  sourceMask := rfl
  destMask := rfl

theorem raw_halves_come_back_quiet_moved :
    ∃ w', lower rawContext moveHalves twoAttributes = .ok () w' ∧
      ∀ S : State, S.Loaded (.ofListing w'.listing) →
        let T := S.runSince (.ofListing w'.listing) twoAttributes.listing w'.listing
        ∃ x y, twoAttributes.registers.laneAt S .primaryAttribute 0 = some x ∧
          w'.registers.laneAt T .primaryAttribute 1 = some y ∧
          field 16 y 1 = Binary16.quieted (field 16 x 1) := by
  obtain ⟨_, w', lowered, -⟩ := Emit.exists_of_passes (lower rawContext moveHalves) twoAttributes
    (fun _ _ => true) (by decide +kernel)
  refine ⟨w', lowered, fun S hS => ?_⟩
  have resolves (n : Nat) (hn : n < 2) : twoAttributes.Resolves .primaryAttribute 0 (0 + n) := by
    obtain rfl | rfl : n = 0 ∨ n = 1 := by omega
    · exact ⟨_, _, rfl⟩
    · exact ⟨_, _, rfl⟩
  obtain ⟨hlanes, -⟩ := (raw_halves_come_back_quiet rawContext twoAttributes w' rfl
    ready_twoAttributes fresh_twoAttributes.separate).1 moveHalves movesHalves_moveHalves
      aligned_twoAttributes resolves lowered _ ⟨[], by simp⟩ S hS
  obtain ⟨x, y, hx, hy, hfields⟩ := hlanes 0 (by decide)
  exact ⟨x, y, hx, hy, hfields 1 (by decide)⟩

end Microcode
