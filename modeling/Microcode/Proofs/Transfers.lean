import Microcode.Proofs.LaneAccess
import Microcode.Proofs.Predication

/-!
Transfers between registers and memory.

Words go one by one, at addresses that wrap, through lanes that may have to be shadowed first.  A store
changes the memory only, by the words at the lanes; a load sets the lanes only, to the words it fetches.
Words of one transfer never overlap, so a load reads back what a store at the same address wrote.
-/

namespace Microcode

open Machine Emit Access Lowering List

variable (ctx : Context) (m : Memory) {bank : Bank} {taken : Bool} {k : Nat} {o : Operation}
  {condition : Option Value} {scalar : Scalar}

/-! ## Words in memory -/

namespace Machine.Memory

theorem bytes_setBytes (space space' : MemorySpace) (bytes : Array (BitVec 8)) :
    (m.setBytes space bytes).bytes space' = if space' = space then bytes else m.bytes space' := by
  cases space <;> cases space' <;> rfl

theorem getD_append_zeros (bytes : Array (BitVec 8)) (count n : Nat) :
    (bytes ++ Array.replicate count 0#8).getD n 0#8 = bytes.getD n 0#8 := by
  rw [Array.getD_eq_getD_getElem?, Array.getD_eq_getD_getElem?, Array.getElem?_append]
  by_cases hn : n < bytes.size
  · rw [if_pos hn]
  · rw [if_neg hn, Array.getElem?_eq_none (Nat.le_of_not_lt hn), Array.getElem?_replicate]
    split <;> rfl

theorem getD_setIfInBounds (bytes : Array (BitVec 8)) {i : Nat} (hi : i < bytes.size) (b : BitVec 8)
    (n : Nat) : (bytes.setIfInBounds i b).getD n 0#8 = if i = n then b else bytes.getD n 0#8 := by
  rw [Array.getD_eq_getD_getElem?, Array.getD_eq_getD_getElem?, Array.getElem?_setIfInBounds,
    if_pos hi]
  split <;> rfl

theorem size_store (space : MemorySpace) (offset : Nat) (x : Lane) :
    ((m.store space offset x).bytes space).size = max (m.bytes space).size (offset + 4) := by
  rw [store, bytes_setBytes, if_pos rfl]
  simp only [range_succ, range_zero, nil_append, foldl_append, foldl_cons,
    foldl_nil, Array.size_setIfInBounds, Array.size_append, Array.size_replicate]
  omega

/-- A written word has its own bytes.  All others are as before, with zeros where the memory grew. -/
theorem getD_store (space : MemorySpace) (offset : Nat) (x : Lane) (n : Nat) :
    ((m.store space offset x).bytes space).getD n 0#8 =
      if offset ≤ n ∧ n < offset + 4 then x.extractLsb' (8 * (n - offset)) 8
      else (m.bytes space).getD n 0#8 := by
  rw [store, bytes_setBytes, if_pos rfl]
  simp only [range_succ, range_zero, nil_append, foldl_append, foldl_cons,
    foldl_nil]
  iterate 4 rw [getD_setIfInBounds _ (by simp; omega)]
  rw [getD_append_zeros]
  by_cases hin : offset ≤ n ∧ n < offset + 4
  · rw [if_pos hin]
    obtain ⟨j, rfl⟩ := Nat.exists_eq_add_of_le hin.1
    obtain rfl | rfl | rfl | rfl : j = 0 ∨ j = 1 ∨ j = 2 ∨ j = 3 := by omega
    all_goals simp
  · rw [if_neg hin, if_neg (by omega), if_neg (by omega), if_neg (by omega), if_neg (by omega)]

theorem append_extractLsb' (x : Lane) : x.extractLsb' 24 8 ++ x.extractLsb' 16 8 ++
    x.extractLsb' 8 8 ++ x.extractLsb' 0 8 = x := by
  rw [BitVec.extractLsb'_append_extractLsb'_eq_extractLsb' (by rfl),
    BitVec.extractLsb'_append_extractLsb'_eq_extractLsb' (by rfl),
    BitVec.extractLsb'_append_extractLsb'_eq_extractLsb' (by rfl)]
  exact BitVec.extractLsb'_eq_self

theorem fetch_of_le {m : Memory} {space : MemorySpace} {offset : Nat}
    (h : offset + 4 ≤ (m.bytes space).size) :
    m.fetch space offset = (m.bytes space).getD (offset + 3) 0#8 ++
      (m.bytes space).getD (offset + 2) 0#8 ++ (m.bytes space).getD (offset + 1) 0#8 ++
      (m.bytes space).getD offset 0#8 := if_pos h

theorem fetch_store (space : MemorySpace) (offset : Nat) (x : Lane) :
    (m.store space offset x).fetch space offset = x := by
  rw [fetch_of_le (by rw [size_store]; omega)]
  rw [getD_store, if_pos (by omega), getD_store, if_pos (by omega), getD_store, if_pos (by omega),
    getD_store, if_pos (by omega), Nat.add_sub_cancel_left, Nat.add_sub_cancel_left,
    Nat.add_sub_cancel_left, Nat.sub_self]
  exact append_extractLsb' x

theorem fetch_congr {m m' : Memory} {space : MemorySpace} {offset : Nat}
    (hsize : offset + 4 ≤ (m.bytes space).size) (hsize' : offset + 4 ≤ (m'.bytes space).size)
    (h : ∀ n, offset ≤ n → n < offset + 4 →
      (m'.bytes space).getD n 0#8 = (m.bytes space).getD n 0#8) :
    m'.fetch space offset = m.fetch space offset := by
  rw [fetch_of_le hsize, fetch_of_le hsize', h _ (by omega) (by omega), h _ (by omega) (by omega),
    h _ (by omega) (by omega), h _ (by omega) (by omega)]

/-- The offset of a word of a transfer: addresses wrap. -/
def wordOffset (address : Lane) (k : Nat) : Nat := (address + BitVec.ofNat 32 (k * 4)).toNat

/-- Two words of a transfer do not overlap, even where the address wraps between them. -/
theorem wordOffset_apart (address : Lane) {j : Nat} (hj : j * 4 < 0x100000000)
    (hk : k * 4 < 0x100000000) (hne : j ≠ k) :
    wordOffset address j + 4 ≤ wordOffset address k ∨
      wordOffset address k + 4 ≤ wordOffset address j := by
  have haddress := address.isLt
  rw [wordOffset, wordOffset, BitVec.toNat_add, BitVec.toNat_add, BitVec.toNat_ofNat,
    BitVec.toNat_ofNat]
  omega

/-- The memory after words were stored one by one. -/
def storeWords (m : Memory) (space : MemorySpace) (address : Lane) (word : Nat → Lane)
    (ks : List Nat) : Memory :=
  ks.foldl (fun m k => m.store space (wordOffset address k) (word k)) m

variable {space : MemorySpace} {address : Lane} {word : Nat → Lane}

theorem bytes_storeWords_of_ne (ks : List Nat) {space' : MemorySpace} (h : space' ≠ space) :
    (m.storeWords space address word ks).bytes space' = m.bytes space' := by
  induction ks generalizing m with
  | nil => rfl
  | cons k rest ih =>
    refine (ih _).trans ?_
    show (m.setBytes space _).bytes space' = _
    rw [bytes_setBytes, if_neg h]

theorem le_size_storeWords (ks : List Nat) :
    (m.bytes space).size ≤ ((m.storeWords space address word ks).bytes space).size := by
  induction ks generalizing m with
  | nil => exact Nat.le_refl _
  | cons k rest ih =>
    refine Nat.le_trans ?_ (ih _)
    rw [size_store]
    exact Nat.le_max_left _ _

/-- Bytes outside the words stay, and zeros are added where the memory grows. -/
theorem getD_storeWords (ks : List Nat) {n : Nat}
    (h : ∀ k ∈ ks, ¬ (wordOffset address k ≤ n ∧ n < wordOffset address k + 4)) :
    ((m.storeWords space address word ks).bytes space).getD n 0#8 = (m.bytes space).getD n 0#8 := by
  induction ks generalizing m with
  | nil => rfl
  | cons k rest ih =>
    refine (ih _ fun j hj => h j (.tail _ hj)).trans ?_
    rw [getD_store, if_neg (h k mem_cons_self)]

theorem fetch_storeWords {ks : List Nat} (hdistinct : ks.Nodup)
    (hsmall : ∀ k ∈ ks, k * 4 < 0x100000000) (hk : k ∈ ks) :
    (m.storeWords space address word ks).fetch space (wordOffset address k) = word k := by
  induction ks generalizing m with
  | nil => cases hk
  | cons j rest ih =>
    obtain ⟨hj, hdistinct⟩ := nodup_cons.1 hdistinct
    have hrest := fun i hi => hsmall i (.tail _ hi)
    rcases mem_cons.1 hk with rfl | hk
    · -- The words after this one leave its bytes alone.
      have hsize : wordOffset address k + 4 ≤
          ((m.store space (wordOffset address k) (word k)).bytes space).size := by
        rw [size_store]
        exact Nat.le_max_right _ _
      refine (fetch_congr hsize (Nat.le_trans hsize (le_size_storeWords _ rest)) fun n hn hn' =>
        getD_storeWords _ rest fun i hi => ?_).trans (fetch_store _ _ _ _)
      have := wordOffset_apart address (hsmall k mem_cons_self) (hrest i hi)
        fun h => hj (h ▸ hi)
      omega
    · exact ih _ hdistinct hrest hk

end Machine.Memory

variable {start : Nat → Nat → Lanes} {w w' : Workspace} {s s' : State}

/-! ## Code that changes the memory -/

/-- The memory may change, but no lane and no predicate does. -/
structure Deposits (start : Nat → Nat → Lanes) (w : Workspace) (s : State) (w' : Workspace)
    (s' : State) : Prop where
  good : Good w s
  good' : Good w' s'
  steps : Steps start w.listing s w'.listing s'
  separate : w.registers.Separate → w'.registers.Separate
  lanes : SameLanes w s w' s'
  predicateAt : ∀ {slot x}, slot < 4 → w.registers.predicateAt s slot = some x →
    w'.registers.predicateAt s' slot = some x

def Frame.deposits (start : Nat → Nat → Lanes) : Frame where
  Admits := Good
  Rel := Deposits start
  refl h := ⟨h, h, .refl, fun h => h, fun _ _ => rfl, fun _ h => h⟩
  trans h h' := ⟨h.good, h'.good', h.steps.trans h'.steps, fun hs => h'.separate (h.separate hs),
    h.lanes.trans h'.lanes, fun hslot hx => h'.predicateAt hslot (h.predicateAt hslot hx)⟩
  admits h := h.good'

section

variable {α : Type} {x : Emit α} {Q : α → Workspace → State → Prop} {E : Error → Workspace → Prop}

theorem Emits.deposits
    (h : Emits (.keeps start) x w s (fun a w' s' => SameLanes w s w' s' ∧ Q a w' s') E) :
    Emits (.deposits start) x w s (fun a w' s' => s'.memory = s.memory ∧ Q a w' s') E := by
  refine Emits.of_run (fun good a w' hok => ?_) fun good e w' herror => h.of_error good herror
  obtain ⟨s', k, hlanes, hQ⟩ := h.of_ok good hok
  exact ⟨s', ⟨k.good, k.good', k.steps, k.separate, hlanes,
    fun hslot hx => k.predicateAt hslot hx⟩, k.memory, hQ⟩

end

theorem Computes.emits {x : Emit Value} {lanes : List Lane} (h : Computes start x w s scalar lanes)
    {E : Error → Workspace → Prop} :
    Emits (.keeps start) x w s
      (fun v w' s' => SameLanes w s w' s' ∧ Holds w' s' v scalar lanes) E :=
  ((h E).rel.gives fun _ _ _ _ hv => ⟨Quiet.sameLanes hv.1, hv.2⟩).keeps

theorem Holds.deposits {v : Value} {lanes : List Lane} (h : Holds w s v scalar lanes)
    (d : Deposits start w s w' s') : Holds w' s' v scalar lanes :=
  h.steps d.good.live d.steps

theorem emits_storeMemory (space : MemorySpace) {offset v : Value} {scalar' : Scalar} {a x : Lane}
    (ha : Holds w s offset scalar [a]) (hv : Holds w s v scalar' [x])
    {E : Error → Workspace → Prop} :
    Emits (.deposits start) (storeMemory space offset v) w s
      (fun _ _ s' => s'.memory = s.memory.store space a.toNat x) E := by
  intro good
  have step : Step start w.listing s (w.listing.push (.storeMemory space offset v)) _ :=
    .storeMemory space offset v ha.defined hv.defined
  rw [ha.lane_single, hv.lane_single] at step
  have live : Live { w with listing := w.listing.push (.storeMemory space offset v) } _ :=
    good.live.steps (.one step)
  exact ⟨_, ⟨good, ⟨live, good.registers.mono step.extension⟩, .one step, fun h => h,
    fun _ _ => rfl, fun _ h => h⟩, rfl⟩

theorem computes_fetchMemory (space : MemorySpace) {offset : Value} {a : Lane}
    (ha : Holds w s offset scalar [a]) :
    Computes start (fetchMemory space offset) w s .f32 [s.memory.fetch space a.toNat] := by
  refine computes_define ⟨by simpa [Op.values] using ha.defined, by simp [Op.place?]⟩ (by simp)
    (by simp) (fun _ => rfl) fun i hi => ?_
  have h0 : i = 0 := by simpa using hi
  subst h0
  show (State.single (s.memory.fetch space
    (s.lane (.ofShapes w.listing.shapes) offset 0).toNat)).get 0 = _
  rw [ha.lane_single]
  rfl

/-! ## Addresses -/

/-- An operand that holds a part of an address. -/
structure Operand.Index (op : Operand) : Prop where
  plain : op.Plain
  scalar : op.storage.scalar = .i32
  bank : op.bank ≠ .predicate

/-- Where the operands of a transfer count from: an immediate counts elements, a register has a bias. -/
def Operation.start? (ctx : Context) (o : Operation) (size : Nat) (r : RegisterFile) (s : State) :
    Option Lane :=
  if o.src1.bank = .immediate then some (BitVec.ofNat 32 (o.src1.num * size))
  else (o.src1.word? ctx r s 0).map (· - 0x10000#32)

/-- Only global memory is addressed from a base. -/
def Operation.base? (ctx : Context) (o : Operation) (space : MemorySpace) (r : RegisterFile)
    (s : State) : Option Lane :=
  if space = .global then o.src0.word? ctx r s 0 else some 0#32

/-- The address of a transfer.  A header of four bytes is skipped unless it is expanded. -/
def Operation.address? (ctx : Context) (o : Operation) (space : MemorySpace) (size : Nat)
    (expanded : Bool) (r : RegisterFile) (s : State) : Option Lane := do
  let start ← o.start? ctx size r s
  let index ← o.src2.word? ctx r s 0
  let base ← o.base? ctx space r s
  return base + (start + index) + if expanded then 0#32 else 4#32

theorem SameLanes.address? (h : SameLanes w s w' s') (ctx : Context) (o : Operation)
    (space : MemorySpace) (size : Nat) (expanded : Bool) :
    o.address? ctx space size expanded w'.registers s' =
      o.address? ctx space size expanded w.registers s := by
  simp only [Operation.address?, Operation.start?, Operation.base?, h.word?]

theorem emits_load_index {op : Operand} (h : op.Index) :
    Emits (.keeps start) (Access.load ctx op 0b0001 0) w s
      (fun v w' s' => SameLanes w s w' s' ∧ ∃ x, op.word? ctx w.registers s 0 = some x ∧
        Holds w' s' v .i32 [x]) (fun _ _ => True) := by
  rw [← h.scalar]
  exact emits_load_word ctx h.plain h.bank 0

/-- The part of an address that is scaled or biased. -/
def addressStart (ctx : Context) (o : Operation) (size : Nat) : Emit Value :=
  if o.src1.bank = .immediate then do
    constant (.i32 (BitVec.ofNat 32 (← word (o.src1.num * size))))
  else do
    let register ← Access.load ctx o.src1 0b0001 0
    binary .sub register (← constant (.i32 0x10000#32))

/-- Global memory is addressed from a base. -/
def addressFrom (ctx : Context) (o : Operation) (space : MemorySpace) (sum : Value) : Emit Value :=
  if space = .global then do binary .add (← Access.load ctx o.src0 0b0001 0) sum else pure sum

/-- The header is skipped. -/
def pastHeader (expanded : Bool) (sum : Value) : Emit Value :=
  if expanded then pure sum else do binary .add sum (← constant (.i32 4#32))

theorem address_eq (o : Operation) (space : MemorySpace) (size : Nat) (expanded : Bool) :
    address ctx o space size expanded = (do
      let first ← addressStart ctx o size
      let index ← Access.load ctx o.src2 0b0001 0
      let sum ← binary .add first index
      let sum ← addressFrom ctx o space sum
      let sum ← pastHeader expanded sum
      convert .bitcast sum .u32) := by
  unfold address addressStart addressFrom pastHeader
  by_cases himmediate : o.src1.bank = .immediate <;> by_cases hglobal : space = .global <;>
    cases expanded <;> simp only [himmediate, hglobal, if_true, if_false, bind_assoc, pure_bind,
      Bool.false_eq_true]

theorem emits_addressStart (h : o.src1.Index) (size : Nat) :
    Emits (.keeps start) (addressStart ctx o size) w s
      (fun v w' s' => SameLanes w s w' s' ∧ ∃ x, o.start? ctx size w.registers s = some x ∧
        Holds w' s' v .i32 [x]) (fun _ _ => True) := by
  unfold Operation.start? addressStart
  by_cases himmediate : o.src1.bank = .immediate
  · simp only [if_pos himmediate]
    refine Emits.word (fun _ => trivial) fun _ => ?_
    exact (computes_constant _).emits.gives fun v w' s' _ hv => ⟨hv.1, _, rfl, hv.2⟩
  · simp only [if_neg himmediate]
    refine (emits_load_index ctx h).bind fun v w1 s1 k1 hv => ?_
    obtain ⟨hsame, x, hx, hv⟩ := hv
    refine ((computes_constant (.i32 0x10000#32)).bind fun bias w2 s2 q2 hbias =>
      computes_binary .sub (hv.quiet q2) hbias rfl).emits.gives fun u w' s' _ hu => ?_
    exact ⟨hsame.trans hu.1, _, by rw [hx]; rfl, hu.2⟩

theorem emits_addressFrom (h : o.src0.Index) (space : MemorySpace) {sum : Value} {x : Lane}
    (hsum : Holds w s sum .i32 [x]) :
    Emits (.keeps start) (addressFrom ctx o space sum) w s
      (fun v w' s' => SameLanes w s w' s' ∧ ∃ base, o.base? ctx space w.registers s = some base ∧
        Holds w' s' v .i32 [base + x]) (fun _ _ => True) := by
  unfold addressFrom Operation.base?
  by_cases hglobal : space = .global
  · simp only [if_pos hglobal]
    refine (emits_load_index ctx h).bind fun v w1 s1 k1 hv => ?_
    obtain ⟨same, base, hbase, hv⟩ := hv
    refine (computes_binary .add hv (hsum.advances k1.toAdvances) rfl).emits.gives
      fun u w' s' _ hu => ?_
    exact ⟨same.trans hu.1, base, hbase, hu.2⟩
  · simp only [if_neg hglobal]
    refine .pure ⟨fun _ _ => rfl, _, rfl, ?_⟩
    rwa [BitVec.zero_add]

theorem computes_pastHeader (expanded : Bool) {sum : Value} {x : Lane}
    (hsum : Holds w s sum .i32 [x]) :
    Computes start (pastHeader expanded sum) w s .i32 [x + if expanded then 0#32 else 4#32] := by
  unfold pastHeader
  cases expanded with
  | true => exact .pure (by simpa using hsum)
  | false =>
    refine (computes_constant _).bind fun four w1 s1 q1 hfour => ?_
    exact computes_binary .add (hsum.quiet q1) hfour rfl

theorem emits_address (h0 : o.src0.Index) (h1 : o.src1.Index) (h2 : o.src2.Index)
    (space : MemorySpace) (size : Nat) (expanded : Bool) :
    Emits (.keeps start) (address ctx o space size expanded) w s
      (fun v w' s' => SameLanes w s w' s' ∧
        ∃ a, o.address? ctx space size expanded w.registers s = some a ∧ Holds w' s' v .u32 [a])
      (fun _ _ => True) := by
  rw [address_eq]
  refine (emits_addressStart ctx h1 size).bind fun first w1 s1 k1 hfirst => ?_
  obtain ⟨same1, x, hx, hfirst⟩ := hfirst
  refine (emits_load_index ctx h2).bind fun index w2 s2 k2 hindex => ?_
  obtain ⟨same2, y, hy, hindex⟩ := hindex
  rw [same1.word?] at hy
  refine (computes_binary .add (hfirst.advances k2.toAdvances) hindex rfl).emits.bind
    fun sum w3 s3 k3 hsum => ?_
  obtain ⟨same3, hsum⟩ := hsum
  have same3 := (same1.trans same2).trans same3
  refine (emits_addressFrom ctx h0 space hsum).bind fun based w4 s4 k4 hbased => ?_
  obtain ⟨same4, z, hz, hbased⟩ := hbased
  rw [Operation.base?, same3.word?, ← Operation.base?] at hz
  refine ((computes_pastHeader expanded hbased).bind fun sum w5 s5 _ hsum =>
    computes_bitcast .u32 hsum).emits.gives fun v w' s' _ hv => ?_
  refine ⟨(same3.trans same4).trans hv.1, _, ?_, hv.2⟩
  rw [Operation.address?, hx, hy, hz]
  rfl

/-! ## Words and lanes -/

/-- The lane `k` registers after an operand. -/
def Operand.laneAfter (op : Operand) (k : Nat) : Nat := (nextLane op k).laneOf 0

/-- The lanes of a bank, if consecutive ones from an operand become words. -/
def Operand.wordsAfter (dest : Operand) (word : Nat → Lane) (ks : List Nat) (lane : Nat) :
    Option Lane :=
  (ks.find? fun k => dest.laneAfter k = lane).map word

theorem Operand.storage_f32 {op : Operand} (h : op.element = .f32) : op.storage = .f32 := by
  rw [Operand.storage, h]
  split <;> rfl

theorem Operand.laneAfter_eq (op : Operand) (k : Nat) :
    op.laneAfter k = if op.bank = .internal then 4 * (op.num + k) else op.num + k := by
  rw [laneAfter, laneOf, laneNumber, Int.add_zero]
  by_cases h : op.bank = .internal
  · rw [if_pos h, if_pos (show (nextLane op k).bank = .internal from h)]
    rfl
  · rw [if_neg h, if_neg (show ¬ (nextLane op k).bank = .internal from h)]
    rfl

theorem Operand.laneAfter_inj (op : Operand) {j : Nat} (h : op.laneAfter j = op.laneAfter k) :
    j = k := by
  rw [laneAfter_eq, laneAfter_eq] at h
  split at h <;> omega

theorem Operand.wordsAfter_laneAfter (dest : Operand) (word : Nat → Lane) {ks : List Nat}
    (hk : k ∈ ks) : dest.wordsAfter word ks (dest.laneAfter k) = some (word k) := by
  rw [wordsAfter]
  cases hfind : ks.find? fun j => decide (dest.laneAfter j = dest.laneAfter k) with
  | none => exact absurd (decide_eq_true rfl) (find?_eq_none.1 hfind k hk)
  | some j =>
    have hj : dest.laneAfter j = dest.laneAfter k := by simpa using find?_some hfind
    rw [dest.laneAfter_inj hj]
    rfl

theorem Operand.wordsAfter_singleton (dest : Operand) (word : Nat → Lane) (k lane : Nat) :
    dest.wordsAfter word [k] lane = if lane = dest.laneAfter k then some (word k) else none := by
  by_cases hlane : lane = dest.laneAfter k
  · rw [if_pos hlane, hlane, dest.wordsAfter_laneAfter word (mem_singleton_self k)]
  · rw [if_neg hlane, wordsAfter, find?_cons, decide_eq_false fun h => hlane h.symm]
    rfl

theorem Operand.wordsAfter_cons (dest : Operand) (word : Nat → Lane) (k : Nat) (ks : List Nat)
    (lane : Nat) : dest.wordsAfter word (k :: ks) lane =
      (dest.wordsAfter word ks lane).or (dest.wordsAfter word [k] lane) := by
  rw [wordsAfter_singleton]
  by_cases hlane : lane = dest.laneAfter k
  · rw [if_pos hlane, hlane, dest.wordsAfter_laneAfter word mem_cons_self]
    -- Lanes differ for different words, so this is the same word again.
    by_cases hk : k ∈ ks
    · rw [dest.wordsAfter_laneAfter word hk]
      rfl
    · have hnone : ks.find? (fun j => dest.laneAfter j = dest.laneAfter k) = none :=
        find?_eq_none.2 fun j hj h => hk (dest.laneAfter_inj (of_decide_eq_true h) ▸ hj)
      rw [wordsAfter, hnone]
      rfl
  · rw [if_neg hlane, Option.or_none, wordsAfter, find?_cons, decide_eq_false fun h => hlane h.symm]
    rfl

/-- Later writes win. -/
theorem Writes.trans {w1 : Workspace} {s1 : State} {news news' : Nat → Option Lane}
    (h : Writes w s w1 s1 bank news) (h' : Writes w1 s1 w' s' bank news')
    (a : Advances start w1 s1 w' s') :
    Writes w s w' s' bank fun lane => (news' lane).or (news lane) where
  written {lane x} hx := by
    cases hlane : news' lane with
    | some y =>
      rw [hlane] at hx
      exact h'.written (hlane.trans hx)
    | none =>
      rw [hlane] at hx
      exact h'.kept (fun _ => hlane) (h.written hx)
  held hb lane x hx := by
    cases hlane : news' lane with
    | some y => exact h'.held hb hlane
    | none =>
      rw [hlane] at hx
      obtain ⟨found, hfound⟩ := Option.isSome_iff_exists.1 (h.held hb hx)
      rw [a.held? hfound]
      rfl
  kept hnone hx := h'.kept (fun hb => (Option.or_eq_none_iff.1 (hnone hb)).1)
    (h.kept (fun hb => (Option.or_eq_none_iff.1 (hnone hb)).2) hx)
  shown hnone := (h'.shown fun hb => (Option.or_eq_none_iff.1 (hnone hb)).1).trans
    (h.shown fun hb => (Option.or_eq_none_iff.1 (hnone hb)).2)

theorem RegisterFile.BacksAt.advances {number : Int} (h : w.registers.BacksAt bank number)
    (a : Advances start w s w' s') : w'.registers.BacksAt bank number := by
  refine ⟨h.1, ?_⟩
  have hsome := h.2
  rw [resolved?, Option.isSome_or, Bool.or_eq_true] at hsome ⊢
  rcases hsome with hheld | hbound
  · obtain ⟨found, hfound⟩ := Option.isSome_iff_exists.1 hheld
    exact .inl (by rw [a.held? hfound]; rfl)
  · exact .inr (by rw [a.bound?]; exact hbound)

/-- Words were brought to the lanes from an operand on, which have storage now. -/
structure Brings (w : Workspace) (s : State) (w' : Workspace) (s' : State) (dest : Operand)
    (taken : Bool) (word : Nat → Lane) (ks : List Nat) : Prop where
  backs : ∀ k ∈ ks, w'.registers.BacksAt dest.bank (laneNumber dest.bank (dest.num + k) 0)
  writes : Writes w s w' s' dest.bank fun lane =>
    if taken = true then dest.wordsAfter word ks lane else none

section

variable {dest : Operand} {word : Nat → Lane} {ks : List Nat}

theorem Brings.nil : Brings w s w s dest taken word [] where
  backs := nofun
  writes := by
    have hnews : (fun lane => if taken = true then dest.wordsAfter word [] lane else none) =
        fun _ => none := by
      funext lane
      exact ite_self none
    rw [hnews]
    exact ⟨nofun, fun _ _ _ => nofun, fun _ h => h, fun _ => rfl⟩

theorem Brings.cons {w1 : Workspace} {s1 : State} (h : Brings w s w1 s1 dest taken word [k])
    (h' : Brings w1 s1 w' s' dest taken word ks) (a : Advances start w1 s1 w' s') :
    Brings w s w' s' dest taken word (k :: ks) where
  backs j hj := by
    rcases mem_cons.1 hj with rfl | hj
    · exact (h.backs j (mem_singleton_self j)).advances a
    · exact h'.backs j hj
  writes := by
    have hwrites := h.writes.trans h'.writes a
    cases taken with
    | false => exact hwrites
    | true =>
      simp only [if_true] at hwrites ⊢
      simpa only [← dest.wordsAfter_cons] using hwrites

theorem Brings.after_keeps {w1 : Workspace} {s1 : State} (h : Brings w1 s1 w' s' dest taken word ks)
    (k : Keeps start w s w1 s1) : Brings w s w' s' dest taken word ks :=
  ⟨h.backs, h.writes.after_keeps k⟩

theorem emits_bringWords {P : Nat → Prop} {E : Nat → Error → Workspace → Prop}
    {body : Nat → Emit Unit} (ks : List Nat)
    (hbody : ∀ k ∈ ks, ∀ w' s', Alters start w s w' s' → Emits (.alters start) (body k) w' s'
      (fun _ w'' s'' => P k ∧ Brings w' s' w'' s'' dest taken word [k]) (E k)) :
    Emits (.alters start) (ks.forM body) w s
      (fun _ w' s' => (∀ k ∈ ks, P k) ∧ Brings w s w' s' dest taken word ks)
      fun e w' => ∃ k ∈ ks, E k e w' := by
  induction ks generalizing w s with
  | nil => exact .pure ⟨nofun, .nil⟩
  | cons k rest ih =>
    intro admits
    refine Emits.bind ((hbody k mem_cons_self w s (Frame.refl _ admits)).fails
      fun e w' he => ⟨k, mem_cons_self, he⟩)
      (fun _ w1 s1 a1 h₁ => ?_) admits
    refine ((ih fun j hj w' s' a => hbody j (.tail _ hj) w' s'
      (Frame.trans _ a1 a)).rel).mono (fun _ w2 s2 _ h₂ => ?_)
      fun e w' ⟨j, hj, he⟩ => ⟨j, (.tail _ hj), he⟩
    obtain ⟨a2, hrest, hbrings⟩ := h₂
    exact ⟨forall_mem_cons.2 ⟨h₁.1, hrest⟩, h₁.2.cons hbrings (Alters.toAdvances a2)⟩

end

/-! ## Transfers -/

section

variable {dest : Operand} {space : MemorySpace} {base : Value} {a : Lane}

/-- Words between memory and the lanes from an operand on. -/
def transferWords (ctx : Context) (store : Bool) (space : MemorySpace) (base : Value) (dest : Operand)
    (condition : Option Value) (ks : List Nat) : Emit Unit :=
  ks.forM fun k => do
    transferWord ctx store space base (nextLane dest k) k condition
    discard <| word (dest.num + k + 1)

theorem emits_depositWord (hdest : dest.Plain) (hbank : dest.bank.isRegister = true)
    (hbase : Holds w s base .u32 [a]) (k : Nat) :
    Emits (.deposits start) (do
        transferWord ctx true space base (nextLane dest k) k none
        discard <| word (dest.num + k + 1)) w s
      (fun _ _ s' => k * 4 < 0x100000000 ∧ ∃ x,
        w.registers.laneAt s dest.bank (dest.laneAfter k) = some x ∧
        s'.memory = s.memory.store space (Memory.wordOffset a k) x) fun _ _ => True := by
  rw [transferWord]
  simp only [if_true, bind_assoc]
  refine Emits.word (fun _ => trivial) fun hk => ?_
  refine (computes_constant (.u32 (BitVec.ofNat 32 (k * 4)))).emits.deposits.bind
    fun step w1 s1 d1 hstep => ?_
  refine (computes_binary .add (hbase.deposits d1) hstep.2 rfl).emits.deposits.bind
    fun location w2 s2 d2 hlocation => ?_
  have hplain : (nextLane dest k).Plain := ⟨hdest.swizzle, hdest.absolute, hdest.negative, hdest.whole⟩
  refine (emits_load_lane ctx hplain hbank 0).deposits.bind fun v w3 s3 d3 hv => ?_
  obtain ⟨hmemory, x, hx, hv⟩ := hv
  refine (emits_storeMemory space (hlocation.2.deposits d3) hv).bind fun _ w4 s4 _ h => ?_
  refine Emits.word (fun _ => trivial) fun _ => .pure ⟨hk, x, ?_, ?_⟩
  · rw [← hx, Deposits.lanes d2, Deposits.lanes d1]
    rfl
  · rw [h, hmemory, hlocation.1, hstep.1]
    rfl

/-- The words of a store go to memory as the lanes hold them. -/
theorem emits_depositWords (hdest : dest.Plain) (hbank : dest.bank.isRegister = true)
    (ks : List Nat) (hbase : Holds w s base .u32 [a]) :
    Emits (.deposits start) (transferWords ctx true space base dest none ks) w s
      (fun _ _ s' => (∀ k ∈ ks, k * 4 < 0x100000000 ∧
          (w.registers.laneAt s dest.bank (dest.laneAfter k)).isSome = true) ∧
        s'.memory = s.memory.storeWords space a
          (fun k => w.registers.shown s dest.bank (dest.laneAfter k)) ks) fun _ _ => True := by
  induction ks generalizing w s with
  | nil => exact .pure ⟨nofun, rfl⟩
  | cons k rest ih =>
    refine (emits_depositWord ctx hdest hbank hbase k).bind fun _ w1 s1 d1 h₁ => ?_
    obtain ⟨hk, x, hx, hmemory⟩ := h₁
    refine (ih (hbase.deposits d1)).gives fun _ w2 s2 _ h₂ => ?_
    have hshown : ∀ lane, w1.registers.shown s1 dest.bank lane = w.registers.shown s dest.bank lane :=
      fun lane => congrArg (·.getD 0#32) (Deposits.lanes d1 _ _)
    refine ⟨fun j hj => ?_, ?_⟩
    · rcases mem_cons.1 hj with rfl | hj
      · exact ⟨hk, by rw [hx]; rfl⟩
      · rw [← Deposits.lanes d1]
        exact h₂.1 j hj
    · simp only [hshown] at h₂
      rw [h₂.2, hmemory]
      show _ = (s.memory.store space _ (w.registers.shown s dest.bank (dest.laneAfter k))).storeWords ..
      rw [RegisterFile.shown, hx]
      rfl

/-- Why a word cannot be brought to its lane. -/
def Unreachable (r : RegisterFile) (dest : Operand) (k : Nat) : Prop :=
  0x100000000 ≤ k * 4 ∨ 0x100000000 ≤ dest.num + k + 1 ∨
    ¬ r.Reaches dest.bank (laneNumber dest.bank (dest.num + k) 0) true

/-- A lane that a word cannot be brought to later cannot be reached now. -/
theorem Unreachable.before (h : Unreachable w'.registers dest k) (a : Advances start w s w' s') :
    Unreachable w.registers dest k :=
  h.imp_right (Or.imp_right fun h hr => h (a.reaches hr))

variable (hdest : dest.element = .f32) (hbank : dest.bank.isRegister = true)

include hdest hbank

theorem emits_writeLane (hc : Permits w s condition taken) (word : Nat → Lane) (k : Nat) {v : Value}
    (hv : Holds w s v .f32 [word k]) :
    Emits (.alters start) (do
        Access.store ctx (nextLane dest k) v 0b0001 0 condition
        discard <| Emit.word (dest.num + k + 1)) w s
      (fun _ w' s' => Brings w s w' s' dest taken word [k])
      fun _ _ => Unreachable w.registers dest k := by
  have hstorage : (nextLane dest k).storage = .f32 := Operand.storage_f32 hdest
  refine ((emits_store_lane ctx (show (nextLane dest k).bank.isRegister = true from hbank)
    (by rw [hstorage]; rfl) 0 (by rw [hstorage]; exact hv) hc).fails
    fun _ _ he => ?_).bind fun _ w1 s1 a1 h₁ => ?_
  · obtain ⟨n, hn, he⟩ := he
    obtain rfl := mem_singleton.1 hn
    exact .inr (.inr (he.resolve_left (by decide)))
  · refine Emits.word (fun hlarge => .inr (.inl hlarge)) fun _ => .pure ⟨?_, ?_⟩
    · intro j hj
      rw [mem_singleton.1 hj]
      exact h₁.1
    · simp only [dest.wordsAfter_singleton, ← ite_and]
      exact h₁.2

theorem emits_fetchWord (hc : Permits w s condition taken) (hbase : Holds w s base .u32 [a])
    (k : Nat) :
    Emits (.alters start) (do
        transferWord ctx false space base (nextLane dest k) k condition
        discard <| word (dest.num + k + 1)) w s
      (fun _ w' s' => Brings w s w' s' dest taken
        (fun k => s.memory.fetch space (Memory.wordOffset a k)) [k])
      fun _ _ => Unreachable w.registers dest k := by
  rw [transferWord]
  simp only [Bool.false_eq_true, if_false, bind_assoc]
  refine Emits.word .inl fun hk => ?_
  refine (computes_constant (.u32 (BitVec.ofNat 32 (k * 4))) _).keeps.alters.bind
    fun step w1 s1 _ hstep => ?_
  obtain ⟨k1, hstep⟩ := hstep
  refine (computes_binary .add (hbase.advances k1.toAdvances) hstep rfl _).keeps.alters.bind
    fun location w2 s2 _ hlocation => ?_
  obtain ⟨k2, hlocation⟩ := hlocation
  have hmemory : s2.memory = s.memory := k2.memory.trans k1.memory
  refine (computes_fetchMemory space hlocation _).keeps.alters.bind fun v w3 s3 _ hv => ?_
  obtain ⟨k3, hv⟩ := hv
  rw [hmemory] at hv
  have keeps := (k1.trans k2).trans k3
  exact (emits_writeLane ctx hdest hbank (hc.steps keeps.good.live keeps.steps) _ k hv).mono
    (fun _ w4 s4 _ h => h.after_keeps keeps) fun _ _ he => he.before keeps.toAdvances

/-- The words of a load come from memory as it is before it. -/
theorem emits_fetchWords (hc : Permits w s condition taken) (hbase : Holds w s base .u32 [a])
    (ks : List Nat) :
    Emits (.alters start) (transferWords ctx false space base dest condition ks) w s
      (fun _ w' s' => Brings w s w' s' dest taken
        (fun k => s.memory.fetch space (Memory.wordOffset a k)) ks)
      fun _ _ => ∃ k ∈ ks, Unreachable w.registers dest k := by
  refine (emits_bringWords (P := fun _ => True)
    (E := fun k _ _ => Unreachable w.registers dest k) ks fun k _ w' s' alters => ?_).gives
    fun _ _ _ _ h => h.2
  rw [← alters.memory]
  exact (emits_fetchWord ctx hdest hbank (hc.steps alters.good.live alters.steps)
    (hbase.advances alters.toAdvances) k).mono (fun _ _ _ _ h => ⟨trivial, h⟩)
    fun _ _ he => he.before alters.toAdvances

end

section

variable {i : Instruction} {element : Element} {count : Nat} {expanded : Bool}

/-- The data operand of a transfer. -/
def Instruction.data (i : Instruction) : Operand := { i.dest with element := .f32 }

theorem Instruction.bank_data (i : Instruction) : i.data.bank = i.dest.bank := rfl

theorem Instruction.laneAfter_data (i : Instruction) (k : Nat) :
    i.data.laneAfter k = i.dest.laneAfter k := rfl

theorem Instruction.wordsAfter_data (i : Instruction) (word : Nat → Lane) (ks : List Nat) :
    i.data.wordsAfter word ks = i.dest.wordsAfter word ks := rfl

theorem transfer_load (hdetail : i.detail = .memory element count expanded)
    (hopcode : i.opcode = .ldr) (hspace : memorySpace ctx.shader.aliases i.src0 ≠ .literal) :
    transfer ctx i = (do
      let size ← word (element.size * count)
      let condition ← Access.condition i.predicate
      let base ← address ctx i.toOperation (memorySpace ctx.shader.aliases i.src0) element.size expanded
      transferWords ctx false (memorySpace ctx.shader.aliases i.src0) base i.data condition
        (List.range ((size + 3) / 4))) := by
  rw [transfer, hdetail]
  simp only [hopcode, reduceCtorEq, decide_false, hspace, Bool.false_and, Bool.false_eq_true, if_false,
    pure_bind]
  rfl

theorem transfer_store (hdetail : i.detail = .memory element count expanded)
    (hopcode : i.opcode = .str) (hpredicate : i.predicate = .none) :
    transfer ctx i = (do
      let size ← word (element.size * count)
      let base ← address ctx i.toOperation (memorySpace ctx.shader.aliases i.src0) element.size expanded
      transferWords ctx true (memorySpace ctx.shader.aliases i.src0) base i.data none
        (List.range ((size + 3) / 4))) := by
  have hcondition : Access.condition i.predicate = pure none := by
    rw [hpredicate]
    rfl
  rw [transfer, hdetail]
  simp only [hopcode, decide_true, hcondition, Bool.not_true, Bool.and_false, Bool.false_eq_true,
    if_false, pure_bind, Option.isSome_none]
  rfl

/-- What the decoder makes of a transfer. -/
structure Instruction.OfTransfer (i : Instruction) : Prop where
  data : i.data.Plain
  bank : i.dest.bank.isRegister = true
  src0 : i.src0.Index
  src1 : i.src1.Index
  src2 : i.src2.Index
  detail : ∃ element count expanded, i.detail = .memory element count expanded

theorem RegisterField.index_operand (regs : RegisterField) (num slot : Nat)
    (hbank : (regs.operand bank num slot).bank ≠ .predicate) :
    ({ regs.operand bank num slot with element := .s32 } : Operand).Index := by
  have hstorage : ({ regs.operand bank num slot with element := .s32 } : Operand).storage = .s32 := by
    rw [Operand.storage]
    split <;> rfl
  exact ⟨⟨rfl, rfl, rfl, by rw [hstorage]; rfl⟩, by rw [hstorage]; rfl, hbank⟩

theorem Decode.memory_eq_ok {f : Fields} {secondary : Bool} (h : Decode.memory f secondary = .ok i) :
    i.OfTransfer := by
  have hbank : (if secondary then Bank.secondaryAttribute
      else if f.flag 't' then .primaryAttribute else .temporary).isRegister = true := by
    split
    · rfl
    · split <;> rfl
  let regs : RegisterField := ⟨false, 7, secondary⟩
  rw [Decode.memory] at h
  split at h
  case h_3 => exact absurd h throw_bind_ne_ok
  all_goals
    simp only [pure_bind] at h
    split at h
    case h_4 => exact absurd h throw_bind_ne_ok
    all_goals
      obtain rfl := checked_eq_ok h
      exact ⟨⟨rfl, rfl, rfl, by rw [Operand.storage_f32 rfl]; rfl⟩, hbank,
        regs.index_operand _ 0 (regs.bank_src0 (f.get 'w') (f.get 'h') (f.flag 'r')),
        regs.index_operand _ 1 (regs.bank_source (f.get 'x') (f.get 'q') (f.flag 'b') 1),
        regs.index_operand _ 2 (regs.bank_source (f.get 'z') (f.get 'u') (f.flag 'a') 2), _, _, _, rfl⟩

theorem ofTransfer_of_decode {word : Word} {secondary : Bool}
    (family : Family.ofWord? word = some .vldst) (decoded : decode word secondary = .ok i) :
    i.OfTransfer := by
  obtain ⟨family', hfamily, hdecode⟩ := exists_family_of_decode decoded
  obtain rfl := Option.some.inj (hfamily.symm.trans family)
  exact Decode.memory_eq_ok hdecode

theorem lower_transfer (hdetail : i.detail = .memory element count expanded)
    (hopcode : i.opcode = .ldr ∨ i.opcode = .str) : lower ctx i = transfer ctx i := by
  rw [lower, hdetail]
  rcases hopcode with h | h <;> rw [h]

/-- The number of words that a transfer moves. -/
def wordCount (element : Element) (count : Nat) : Nat := (element.size * count + 3) / 4

theorem emits_transfer_store (h : i.OfTransfer)
    (hdetail : i.detail = .memory element count expanded) (hopcode : i.opcode = .str)
    (hpredicate : i.predicate = .none) :
    Emits (.deposits start) (lower ctx i) w s
      (fun _ _ s' => ∃ a, i.address? ctx (memorySpace ctx.shader.aliases i.src0) element.size expanded
          w.registers s = some a ∧
        (∀ k < wordCount element count, k * 4 < 0x100000000 ∧
          (w.registers.laneAt s i.dest.bank (i.dest.laneAfter k)).isSome = true) ∧
        s'.memory = s.memory.storeWords (memorySpace ctx.shader.aliases i.src0) a
          (fun k => w.registers.shown s i.dest.bank (i.dest.laneAfter k))
          (List.range (wordCount element count))) fun _ _ => True := by
  rw [lower_transfer ctx hdetail (.inr hopcode), transfer_store ctx hdetail hopcode hpredicate]
  refine Emits.word (fun _ => trivial) fun _ => ?_
  refine (emits_address ctx h.src0 h.src1 h.src2 _ _ _).deposits.bind fun base w1 s1 d1 hbase => ?_
  obtain ⟨hmemory, a, ha, hbase⟩ := hbase
  refine (emits_depositWords ctx h.data h.bank _ hbase).gives fun _ w2 s2 _ hwords => ?_
  have hlanes := Deposits.lanes d1
  refine ⟨a, ha, fun k hk => ?_, ?_⟩
  · rw [← hlanes]
    exact hwords.1 k (mem_range.2 hk)
  · have hshown (k : Nat) : w1.registers.shown s1 i.data.bank (i.data.laneAfter k) =
        w.registers.shown s i.dest.bank (i.dest.laneAfter k) :=
      congrArg (·.getD 0#32) (hlanes i.dest.bank (i.dest.laneAfter k))
    simp only [hshown] at hwords
    rw [hwords.2, hmemory, wordCount]

theorem emits_transfer_load (h : i.OfTransfer) (hdetail : i.detail = .memory element count expanded)
    (hopcode : i.opcode = .ldr) (hpredicate : i.predicate = .none)
    (hspace : memorySpace ctx.shader.aliases i.src0 ≠ .literal) :
    Emits (.alters start) (lower ctx i) w s
      (fun _ w' s' => ∃ a, i.address? ctx (memorySpace ctx.shader.aliases i.src0) element.size expanded
          w.registers s = some a ∧
        Writes w s w' s' i.dest.bank (i.dest.wordsAfter (fun k =>
          s.memory.fetch (memorySpace ctx.shader.aliases i.src0) (Memory.wordOffset a k))
            (List.range (wordCount element count)))) fun _ _ => True := by
  have hcondition : Access.condition i.predicate = pure none := by
    rw [hpredicate]
    rfl
  rw [lower_transfer ctx hdetail (.inl hopcode), transfer_load ctx hdetail hopcode hspace]
  simp only [hcondition, pure_bind]
  refine Emits.word (fun _ => trivial) fun _ => ?_
  refine (emits_address ctx h.src0 h.src1 h.src2 _ _ _).alters.bind fun base w1 s1 _ hbase => ?_
  obtain ⟨k1, -, a, ha, hbase⟩ := hbase
  have hpermits : Permits w1 s1 none true := rfl
  have hdata : i.data.element = .f32 := rfl
  refine (emits_fetchWords ctx hdata h.bank hpermits hbase _).mono
    (fun _ w2 s2 _ hwords => ⟨a, ha, ?_⟩) fun _ _ _ => trivial
  have hwrites := hwords.writes.after_keeps k1
  simp only [if_true, k1.memory, i.bank_data, i.wordsAfter_data] at hwrites
  rw [wordCount]
  exact hwrites

end

/-! ## Transfers on a machine -/

theorem SameLanes.machine {S T : State} (h : SameLanes w (S.upTo w.listing) w' s')
    (good : Good w (S.upTo w.listing)) (good' : Good w' s') (hT : T.Shows S.held w'.listing s') :
    SameLanes w S w' T := by
  intro bank lane
  rw [hT.laneAt good'.registers, h, (State.shows_upTo w.listing S).laneAt good.registers]

/-- A transfer of two attribute lanes, at an address that the last two of three hold. -/
def transferAttributes (opcode : Opcode) (num : Nat) : Instruction :=
  { opcode := opcode
    dest := { bank := .primaryAttribute, num := num, slot := 3 }
    src0 := { bank := .primaryAttribute, num := 2, element := .s32, slot := 0 }
    src1 := { bank := .immediate, num := 3, element := .s32, slot := 1 }
    src2 := { bank := .primaryAttribute, num := 1, element := .s32, slot := 2 }
    destMask := 0b0001
    detail := .memory .f32 2 false }

end Microcode
