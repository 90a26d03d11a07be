import Microcode.Proofs.TypedLowering

/-!
The sources of packs from floats.

A register holds one component of such a source, so a wide pack divides the components that it writes
between two sources.  `wide_pack_sources` says when the two supply all of them: when the second
follows the first, when there is nothing to divide, and for two neighbouring channels or all four.
In every other case one component is missing at least, and a channel gets that of its neighbour.
-/

namespace Microcode

/-! ## The words of packs -/

theorem decode_pack {word : Word} {secondary : Bool} {i : Instruction}
    (h : decode word secondary = .ok i) (hpack : i.opcode.isPack = true) :
    Decode.pack ⟨word, Family.vpck.layout⟩ secondary = .ok i := by
  obtain ⟨family, -, hfamily⟩ := exists_family_of_decode h
  obtain rfl := (Decode.ofFamily_follows rfl hfamily).pack hpack
  exact hfamily

/-! ## Division between two sources -/

/-- The second source continues the first after half of the components. -/
def Operation.Contiguous (o : Operation) : Prop :=
  o.src1.bank = o.src2.bank ∧ o.src1.num + (Mask.count o.destMask + 1) / 2 = o.src2.num

/-- Packs whose sources supply a component for every channel that they write. -/
def Operation.SuppliesAll (o : Operation) : Prop :=
  o.Contiguous ∨ o.src2.bank = .immediate ∨ Mask.count o.destMask ≤ 1 ∨
    o.destMask ∈ [0b0011, 0b0110, 0b1100, 0b1111]

instance (o : Operation) : Decidable o.SuppliesAll := by
  unfold Operation.SuppliesAll Operation.Contiguous
  infer_instance

namespace Decode

/-- Number of components that the two halves of a mask select, each from its own source. -/
def dividedCount (destMask : Mask) : Nat :=
  let firstCount := (Mask.count destMask + 1) / 2
  let start := firstComponent destMask
  let shifted := destMask >>> start
  let firstLoad : Mask := match firstCount with
    | 0 => 0
    | 1 => 0b1
    | _ => 0b11
  let secondLoad : Mask := match Mask.count destMask - firstCount with
    | 1 => 0b10
    | _ => 0b1100
  Mask.count ((shifted &&& firstLoad) <<< start) +
    Mask.count (((shifted &&& secondLoad) >>> firstCount) <<< start)

theorem dividedCount_le : ∀ destMask < 16, dividedCount destMask ≤ Mask.count destMask := by decide

theorem dividedCount_pos : ∀ destMask < 16, 1 < Mask.count destMask → 0 < dividedCount destMask := by
  decide

theorem dividedCount_eq_iff : ∀ destMask < 16, 1 < Mask.count destMask →
    (dividedCount destMask = Mask.count destMask ↔ destMask ∈ [0b0011, 0b0110, 0b1100, 0b1111]) := by
  decide

theorem splitSources_masks (destMask : Mask) (first : Operand) {second second' : Operand}
    (hbank : second.bank = second'.bank) (hnum : second.num = second'.num) :
    (splitSources destMask first second).firstMask = (splitSources destMask first second').firstMask ∧
      (splitSources destMask first second).secondMask =
        (splitSources destMask first second').secondMask := by
  simp only [splitSources, hbank, hnum]
  split <;> exact ⟨rfl, rfl⟩

/-- A wide pack either reads all of its components from the first source, or divides them. -/
theorem splitSources_cases (destMask : Mask) (first second : Operand) :
    let split := splitSources destMask first second
    let follows := first.bank = second.bank ∧ first.num + (Mask.count destMask + 1) / 2 = second.num
    (follows ∨ second.bank = .immediate ∨ Mask.count destMask ≤ 1) ∧
        split.firstMask = destMask ∧ split.secondMask = 0 ∨
      ¬ follows ∧ second.bank ≠ .immediate ∧ 1 < Mask.count destMask ∧
        Mask.count split.firstMask + Mask.count split.secondMask = dividedCount destMask := by
  intro split follows
  have hsplit : split = splitSources destMask first second := rfl
  rw [splitSources] at hsplit
  split at hsplit
  · rename_i hdivided
    simp only [Bool.and_eq_true, Bool.not_eq_true', Bool.and_eq_false_iff, decide_eq_false_iff_not,
      decide_eq_true_eq, ne_eq] at hdivided
    obtain ⟨⟨hapart, hsecond⟩, hbank⟩ := hdivided
    refine .inr ⟨fun h => ?_, hbank, by omega, by rw [hsplit]; rfl⟩
    rcases hapart with hne | hne
    · exact hne h.1
    · exact hne h.2
  · rename_i hwhole
    refine .inl ⟨?_, by rw [hsplit], by rw [hsplit]⟩
    by_contra hno
    simp only [not_or, Nat.not_le] at hno
    obtain ⟨hapart, hbank, hmany⟩ := hno
    refine hwhole ?_
    simp only [Bool.and_eq_true, Bool.not_eq_true', Bool.and_eq_false_iff, decide_eq_false_iff_not,
      decide_eq_true_eq, ne_eq]
    exact ⟨⟨not_and_or.1 hapart, by omega⟩, hbank⟩

theorem pack_wide {f : Fields} {secondary : Bool} {i : Instruction} {dest : Element}
    (hf : f.layout = Family.vpck.layout) (h : pack f secondary = .ok i)
    (hopcode : i.opcode = .vpck dest .f32) :
    i.destMask < 16 ∧ ∃ scale secondMask, i.detail = .pack scale secondMask ∧
      let split := splitSources i.destMask i.src1 i.src2
      split.firstMask = i.sourceMask ∧ split.secondMask = secondMask := by
  have hmask := Family.get_lt hf 'm' rfl
  rw [pack] at h
  split at h
  · cases h
  · by_cases hwide : packElement (f.get 'f') = .f32
    · simp only [if_pos hwide] at h
      obtain rfl := checked_eq_ok h
      refine ⟨hmask, f.flag 'h', _, rfl, ?_⟩
      dsimp only
      exact splitSources_masks _ _ rfl rfl
    · simp only [if_neg hwide] at h
      obtain rfl := checked_eq_ok h
      exact absurd (Opcode.vpck.inj hopcode).2 hwide

end Decode

/-- Number of components that the two sources of a pack supply. -/
def Operation.supplied (o : Operation) (secondMask : Mask) : Nat :=
  Mask.count o.sourceMask + Mask.count secondMask

/-- The two sources of a pack supply at most one component for each channel, and one for every
channel exactly in the cases listed. -/
theorem supplied_of_split {o : Operation} {secondMask : Mask} (hmask : o.destMask < 16)
    (hfirst : (Decode.splitSources o.destMask o.src1 o.src2).firstMask = o.sourceMask)
    (hsecond : (Decode.splitSources o.destMask o.src1 o.src2).secondMask = secondMask) :
    (o.supplied secondMask = 0 → Mask.count o.destMask = 0) ∧
      o.supplied secondMask ≤ Mask.count o.destMask ∧
      (o.supplied secondMask = Mask.count o.destMask ↔ o.SuppliesAll) := by
  rw [Operation.supplied, ← hfirst, ← hsecond]
  rcases Decode.splitSources_cases o.destMask o.src1 o.src2 with
    ⟨hwhole, hall, hnone⟩ | ⟨hapart, hbank, hmany, hcount⟩
  · rw [hall, hnone, show Mask.count 0 = 0 by decide, Nat.add_zero]
    refine ⟨fun h => h, Nat.le_refl _, fun _ => ?_, fun _ => rfl⟩
    rcases hwhole with hfollows | hbank | hfew
    · exact .inl hfollows
    · exact .inr (.inl hbank)
    · exact .inr (.inr (.inl hfew))
  · have hpos := Decode.dividedCount_pos o.destMask hmask hmany
    rw [hcount, Decode.dividedCount_eq_iff o.destMask hmask hmany]
    refine ⟨fun h => by omega, Decode.dividedCount_le o.destMask hmask,
      fun hlisted => .inr (.inr (.inr hlisted)), ?_⟩
    rintro (hfollows | himmediate | hfew | hlisted)
    · exact absurd hfollows hapart
    · exact absurd himmediate hbank
    · omega
    · exact hlisted

/-! ## Components and channels -/

/-- Position in a value of the component that a channel gets. -/
def componentIndex (count channel rank : Nat) : Nat :=
  match count with
  | 1 => 0
  | 4 => channel
  | count => min rank (count - 1)

theorem componentFor_eq_getD (xs : List Lane) (channel rank : Nat) :
    componentFor xs channel rank = xs.getD (componentIndex xs.length channel rank) 0#32 := by
  unfold componentFor componentIndex
  generalize xs.length = count
  match count with
  | 0 | 1 | 2 | 3 | 4 | _ + 5 => rfl

/-- The positions that the channels of a mask read in a value with a number of components. -/
def Mask.positions (mask : Mask) (count : Nat) : List Nat :=
  (Mask.components mask).map fun channel => componentIndex count channel (mask.rank channel)

theorem Mask.positions_nodup_iff : ∀ mask < 16, ∀ count ≤ Mask.count mask,
    (count = 0 → Mask.count mask = 0) →
      (∀ position ∈ mask.positions count, position < count) ∧
        ((mask.positions count).Nodup ↔ count = Mask.count mask) := by
  decide

/-- Different components reach different channels exactly when there is one for every channel. -/
theorem Mask.components_nodup_iff {mask : Mask} (hmask : mask < 16) {xs : List Lane} (hxs : xs.Nodup)
    (hle : xs.length ≤ Mask.count mask) (hzero : xs.length = 0 → Mask.count mask = 0) :
    ((Mask.components mask).map fun channel => componentFor xs channel (mask.rank channel)).Nodup ↔
      xs.length = Mask.count mask := by
  obtain ⟨hbound, hiff⟩ := Mask.positions_nodup_iff mask hmask xs.length hle hzero
  have hmap : (Mask.components mask).map (fun channel => componentFor xs channel (mask.rank channel)) =
      (mask.positions xs.length).map fun position => xs.getD position 0#32 := by
    simp only [Mask.positions, List.map_map, Function.comp_def, componentFor_eq_getD]
  have hinj : ∀ p ∈ mask.positions xs.length, ∀ q ∈ mask.positions xs.length,
      xs.getD p 0#32 = xs.getD q 0#32 → p = q := by
    intro p hp q hq heq
    rw [List.getD_eq_getElem _ _ (hbound p hp), List.getD_eq_getElem _ _ (hbound q hq)] at heq
    exact (List.Nodup.getElem_inj_iff hxs).1 heq
  rw [hmap, ← hiff]
  exact ⟨List.Nodup.of_map _, fun h => h.map_on hinj⟩

theorem countOf_packComponents {ctx : Context} {i : Instruction} {dest source : Element}
    {scale : Bool} {secondMask : Mask} (regular : i.Regular) (hopcode : i.opcode = .vpck dest source)
    (hdetail : i.detail = .pack scale secondMask) {advances : Quad Int} {w w' : Workspace} {v : Value}
    (hw : w.Sound) (h : Lowering.packComponents ctx i.toOperation
      (Lowering.packSource dest source i.destMask i.src1) secondMask advances w = .ok v w') :
    w'.listing.countOf v = i.supplied secondMask := by
  obtain ⟨h1, h2⟩ : i.src1.Reads source.scalar ∧ (secondMask ≠ 0 →
      i.src2.Reads source.scalar ∧ Mask.count i.sourceMask + Mask.count secondMask ≤ 4) := by
    unfold Instruction.Regular at regular
    simp only [hdetail, hopcode] at regular
    exact ⟨regular.1, regular.2 scale secondMask rfl⟩
  have hsource : (Lowering.packSource dest source i.destMask i.src1).Reads source.scalar :=
    reads_packSource h1
  have checks := (checks_packComponents ctx (o := i.toOperation) hsource h2 advances hw).2
  rw [h] at checks
  exact checks.2.2.countOf

/-- Every pack from floats takes at most one component for each channel that it writes from its two
sources, and stores a different one to every channel exactly when `SuppliesAll` holds. -/
theorem wide_pack_sources {word : Word} {secondary : Bool} {i : Instruction} {dest : Element}
    (decoded : decode word secondary = .ok i) (wide : i.opcode = .vpck dest .f32) :
    ∃ scale secondMask, i.detail = .pack scale secondMask ∧
      i.supplied secondMask ≤ Mask.count i.destMask ∧
      (i.supplied secondMask = Mask.count i.destMask ↔ i.SuppliesAll) ∧
      (∀ (ctx : Context) (advances : Quad Int) (w w' : Workspace) (v : Value), w.Sound →
        Lowering.packComponents ctx i.toOperation (Lowering.packSource dest .f32 i.destMask i.src1)
          secondMask advances w = .ok v w' →
        w'.listing.countOf v = i.supplied secondMask) ∧
      ∀ components : List Lane, components.length = i.supplied secondMask → components.Nodup →
        (((Mask.components i.destMask).map fun channel =>
          componentFor components channel (i.destMask.rank channel)).Nodup ↔ i.SuppliesAll) := by
  obtain ⟨hmask, scale, secondMask, hdetail, hfirst, hsecond⟩ :=
    Decode.pack_wide rfl (decode_pack decoded (by rw [wide]; rfl)) wide
  obtain ⟨hzero, hle, hiff⟩ := supplied_of_split hmask hfirst hsecond
  refine ⟨scale, secondMask, hdetail, hle, hiff, ?_, ?_⟩
  · intro ctx advances w w' v hw h
    exact countOf_packComponents (decode_regular decoded) wide hdetail hw h
  · intro components hlength hdistinct
    rw [← hlength] at hzero hle hiff
    exact (Mask.components_nodup_iff hmask hdistinct hle hzero).trans hiff

/-- Three channels from two registers apart miss a component; four channels get all of theirs. -/
theorem wide_pack_sources_three :
    (∃ i scale secondMask, decode 0x40000d9c00198208 false = .ok i ∧ i.opcode = .vpck .f32 .f32 ∧
      i.destMask = 0b0111 ∧ i.detail = .pack scale secondMask ∧ i.supplied secondMask < 3) ∧
    ∃ i scale secondMask, decode 0x40000dbc00198208 false = .ok i ∧ i.opcode = .vpck .f32 .f32 ∧
      i.destMask = 0b1111 ∧ i.detail = .pack scale secondMask ∧ i.supplied secondMask = 4 := by
  have h : (match decode 0x40000d9c00198208 false with
      | .ok i => decide (i.opcode = .vpck .f32 .f32 ∧ i.destMask = 0b0111 ∧ ¬ i.SuppliesAll)
      | .error _ => false) = true := by decide +kernel
  have h' : (match decode 0x40000dbc00198208 false with
      | .ok i => decide (i.opcode = .vpck .f32 .f32 ∧ i.destMask = 0b1111 ∧ i.SuppliesAll)
      | .error _ => false) = true := by decide +kernel
  constructor
  · split at h
    · rename_i i decoded
      obtain ⟨hopcode, hmask, hmisses⟩ := of_decide_eq_true h
      obtain ⟨scale, secondMask, hdetail, hle, hiff, -⟩ := wide_pack_sources decoded hopcode
      have hne := mt hiff.1 hmisses
      rw [hmask, show Mask.count 0b0111 = 3 by decide] at hle hne
      exact ⟨i, scale, secondMask, decoded, hopcode, hmask, hdetail, by omega⟩
    · exact absurd h Bool.false_ne_true
  · split at h'
    · rename_i i decoded
      obtain ⟨hopcode, hmask, hall⟩ := of_decide_eq_true h'
      obtain ⟨scale, secondMask, hdetail, -, hiff, -⟩ := wide_pack_sources decoded hopcode
      have heq := hiff.2 hall
      rw [hmask, show Mask.count 0b1111 = 4 by decide] at heq
      exact ⟨i, scale, secondMask, decoded, hopcode, hmask, hdetail, heq⟩
    · exact absurd h' Bool.false_ne_true

end Microcode
