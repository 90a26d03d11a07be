import Microcode.Proofs.Backing
import Microcode.Proofs.Transfers

/-!
Literals that are folded.

A load from the literal buffer at a fixed place is done while compiling.  It leaves the same lanes as a
load that fetches the words from a memory with the same bytes, and it fails where a word is not in the
buffer.
-/

namespace Microcode

open Machine Emit Access Lowering List RegisterFile Access

variable (ctx : Context) {size : Nat} {p : Predicate} {shader : Shader}

variable {start : Nat → Nat → Lanes} {w w' : Workspace} {s : State} {i : Instruction}
  {element : Element} {count : Nat} {expanded : Bool}

/-! ## Fixed places -/

/-- The place that immediates fix. -/
def Operation.fixedAddress (o : Operation) (size : Nat) (expanded : Bool) : Nat :=
  o.src1.num * size + o.src2.num + if expanded then 0 else 4

theorem Emit.word_of_lt {n : Nat} (h : n < 0x100000000) : word n = pure n := if_pos h

theorem fixedOffset_of_immediate {o : Operation} (h1 : o.src1.bank = .immediate)
    (h2 : o.src2.bank = .immediate) (h : o.fixedAddress size expanded < 0x100000000) :
    fixedOffset o size expanded = pure (some (o.fixedAddress size expanded)) := by
  rw [Operation.fixedAddress] at h
  rw [fixedOffset, h1, h2]
  simp only [decide_true, Bool.and_self, if_true]
  rw [Emit.word_of_lt (by omega), pure_bind, Emit.word_of_lt (by omega), pure_bind,
    Emit.word_of_lt h]
  rfl

theorem computes_address_fixed {o : Operation} (h1 : o.src1.bank = .immediate)
    (h2 : o.src2.bank = .immediate) (hindex : o.src2.Index) {space : MemorySpace}
    (hspace : space ≠ .global) (h : o.fixedAddress size expanded < 0x100000000) :
    Computes start (address ctx o space size expanded) w s .u32
      [BitVec.ofNat 32 (o.fixedAddress size expanded)] := by
  rw [Operation.fixedAddress] at h ⊢
  have hscaled : addressStart ctx o size =
      constant (.i32 (BitVec.ofNat 32 (o.src1.num * size))) := by
    rw [addressStart, if_pos h1, Emit.word_of_lt (by omega), pure_bind]
  have hfill : (immediateFill o.src2).lane = BitVec.ofNat 32 o.src2.num := by
    rw [immediateFill, ← o.src2.storage_scalar, hindex.scalar]
    rfl
  rw [address_eq, hscaled]
  refine (computes_constant _).bind fun first w1 s1 _ hfirst => ?_
  have hload : Computes start (load ctx o.src2 0b0001 0) w1 s1 _ _ :=
    computes_load_immediate ctx h2 (by decide) 0
  rw [hindex.plain.immediate, hindex.scalar, hfill] at hload
  refine hload.bind fun index w2 s2 q2 hvalue => ?_
  refine (computes_binary .add (hfirst.quiet q2) hvalue rfl).bind fun sum w3 s3 _ hsum => ?_
  rw [addressFrom, if_neg hspace, pure_bind]
  refine ((computes_pastHeader expanded hsum).bind fun sum w4 s4 _ hsum =>
    computes_bitcast .u32 hsum).of_eq ?_
  show [BitVec.ofNat 32 (o.src1.num * size) + BitVec.ofNat 32 o.src2.num +
    if expanded = true then 0#32 else 4#32] = _
  rw [BitVec.ofNat_add, BitVec.ofNat_add]
  cases expanded <;> rfl

theorem wordOffset_ofNat {first k : Nat} (h : first + k * 4 < 0x100000000) :
    Memory.wordOffset (BitVec.ofNat 32 first) k = first + k * 4 := by
  rw [Memory.wordOffset, ← BitVec.ofNat_add, BitVec.toNat_ofNat]
  exact Nat.mod_eq_of_lt h

/-! ## Folded loads -/

/-- A word of the literal buffer. -/
def Shader.literalWord (shader : Shader) (offset : Nat) : Lane :=
  ({ scratch := shader.literalBuffer } : Memory).fetch .scratch offset

theorem Shader.literal_of_le {offset : Nat} (h : offset + 4 ≤ shader.literalBuffer.size) :
    shader.literal offset = .ok (shader.literalWord offset) := by
  have hfetch : shader.literalWord offset = _ := Memory.fetch_of_le h
  rw [Shader.literal, if_pos h, hfetch]
  rfl

theorem Shader.literal_of_lt {offset : Nat} (h : shader.literalBuffer.size < offset + 4) :
    shader.literal offset = .error (.metadata (.literalOffset offset)) :=
  if_neg (Nat.not_le.2 h)

theorem fetch_eq_literalWord {m : Memory} (h : m.scratch = shader.literalBuffer) (offset : Nat) :
    m.fetch .scratch offset = shader.literalWord offset := by
  have hbytes : m.bytes .scratch = ({ scratch := shader.literalBuffer } : Memory).bytes .scratch := h
  rw [Shader.literalWord, Memory.fetch, Memory.fetch, hbytes]

/-- What stands in the way of a folded word. -/
def Unfoldable (ctx : Context) (r : RegisterFile) (dest : Operand) (first k : Nat) (e : Error) :
    Prop :=
  0x100000000 ≤ first + k * 4 ∨ Unreachable r dest k ∨
    (∃ fault, e = .metadata fault) ∧ ctx.shader.literalBuffer.size < first + k * 4 + 4

theorem emits_foldLiterals {dest : Operand} (hdest : dest.element = .f32)
    (hbank : dest.bank.isRegister = true) {condition : Option Value} {taken : Bool}
    (hc : Permits w s condition taken) (first words : Nat) :
    Emits (.alters start) (foldLiterals ctx dest first words condition) w s
      (fun _ w' s' => (∀ k ∈ range words, first + k * 4 + 4 ≤ ctx.shader.literalBuffer.size) ∧
        Brings w s w' s' dest taken (fun k => ctx.shader.literalWord (first + k * 4))
          (range words))
      fun e _ => ∃ k ∈ range words, Unfoldable ctx w.registers dest first k e := by
  refine emits_bringWords (E := fun k e _ => Unfoldable ctx w.registers dest first k e) _
    fun k _ w1 s1 alters => ?_
  refine Emits.word .inl fun _ => ?_
  by_cases hin : first + k * 4 + 4 ≤ ctx.shader.literalBuffer.size
  · simp only [Shader.literal_of_le hin]
    refine (computes_constant (.f32 (ctx.shader.literalWord (first + k * 4))) _).keeps.alters.bind
      fun v w2 s2 _ hv => ?_
    obtain ⟨k2, hv⟩ := hv
    have hc1 := hc.steps alters.good.live alters.steps
    refine (emits_writeLane ctx hdest hbank (hc1.steps k2.good.live k2.steps)
      (fun k => ctx.shader.literalWord (first + k * 4)) k hv).mono
      (fun _ w3 s3 _ h => ⟨hin, h.after_keeps k2⟩) fun _ _ he => ?_
    exact .inr (.inl ((he.before k2.toAdvances).before alters.toAdvances))
  · simp only [Shader.literal_of_lt (Nat.not_le.1 hin)]
    exact fun _ => .inr (.inr ⟨⟨_, rfl⟩, Nat.not_le.1 hin⟩)

theorem transfer_fold (hdetail : i.detail = .memory element count expanded)
    (hopcode : i.opcode = .ldr) (hspace : memorySpace ctx.shader.aliases i.src0 = .literal)
    (h1 : i.src1.bank = .immediate) (h2 : i.src2.bank = .immediate)
    (h : i.fixedAddress element.size expanded < 0x100000000) :
    transfer ctx i = (do
      let size ← word (element.size * count)
      let condition ← condition i.predicate
      foldLiterals ctx i.data (i.fixedAddress element.size expanded) ((size + 3) / 4) condition) := by
  rw [transfer, hdetail]
  simp only [hopcode, reduceCtorEq, decide_false, decide_true, hspace, Bool.false_and, Bool.not_false,
    Bool.and_self, Bool.false_eq_true, if_false, if_true, fixedOffset_of_immediate h1 h2 h, pure_bind]
  rfl

/-! ## Conditions on a machine -/

/-- Code that does not fail. -/
abbrev Footprint.total : Footprint := .free fun _ => False

theorem Footprint.Leads.exists_ok {α : Type} {x : Emit α} {w : Workspace}
    {Q : α → Workspace → Prop} (h : Footprint.total.Leads x w Q) : ∃ a w', x w = .ok a w' ∧ Q a w' := by
  obtain ⟨a, w', hx, -, hQ⟩ := Emit.Ends.exists_ok h
  exact ⟨a, w', hx, hQ⟩

theorem leads_predicatePlace_ok {slot : Nat} (hslot : slot < 4) :
    Footprint.total.Leads (predicatePlace slot) w fun _ _ => True := by
  have hrange : ¬ (decide ((slot : Int) < 0) || decide ((4 : Int) ≤ slot)) = true := by
    simp only [Bool.or_eq_true, decide_eq_true_eq, not_or]
    omega
  unfold predicatePlace
  rw [if_neg hrange]
  apply Footprint.Leads.getRegisters
  split
  · exact .pure trivial
  · exact ⟨trivial, trivial⟩

/-- Only a test that differs from lane to lane has no condition. -/
theorem exists_condition (h : p ≠ .perLane) (w : Workspace) :
    ∃ c w', condition p w = .ok c w' := by
  have leads : Footprint.total.Leads (condition p) w fun _ _ => True := by
    unfold condition
    split
    case h_1 slot negated hp =>
      apply (leads_predicatePlace_ok (p.slot_lt hp)).bind
      intro place w1 _ _
      cases negated with
      | false => exact ⟨trivial, trivial⟩
      | true => exact ⟨trivial, trivial⟩
    case h_2 =>
      rw [if_neg h]
      exact .pure trivial
  obtain ⟨c, w', hok, -⟩ := leads.exists_ok
  exact ⟨c, w', hok⟩

/-- On a machine the condition of an instruction tells whether its predicate holds at the start. -/
theorem exists_permits {c : Option Value} {S : State} (good : Good w (S.upTo w.listing))
    (h : condition p w = .ok c w') :
    ∃ s' taken, Keeps S.held w (S.upTo w.listing) w' s' ∧ Permits w' s' c taken ∧
      ∀ r : RegisterFile, (∀ slot place, slot < 4 → w'.registers.predicates.get slot = some place →
        r.predicates.get slot = some place) → (taken = true ↔ p.Holds r S) := by
  cases hp : p.register? with
  | none =>
    have hpure : c = none ∧ w' = w := by
      unfold condition at h
      rw [hp] at h
      by_cases hlane : p = .perLane
      · rw [if_pos hlane] at h
        cases h
      · rw [if_neg hlane] at h
        cases h
        exact ⟨rfl, rfl⟩
    obtain ⟨rfl, rfl⟩ := hpure
    refine ⟨_, true, .refl good, rfl, fun r _ => ⟨fun _ slot negated hslot => ?_, fun _ => rfl⟩⟩
    exact absurd (hp.symm.trans hslot) nofun
  | some test =>
    obtain ⟨slot, negated⟩ := test
    obtain ⟨v, place, s', rfl, guards⟩ := @exists_guards S.held _ _ _ _ _ _ good hp _ h
    have hslot := p.slot_lt hp
    refine ⟨s', decide ((s'.lanes v).x ≠ 0#32), guards.keeps, ⟨(s'.lanes v).x, ?_, rfl⟩, fun r hr => ?_⟩
    · refine ⟨guards.defined, guards.shape, by simp, by simp, fun j hj => ?_⟩
      obtain rfl : j = 0 := by simpa using hj
      rfl
    · rw [decide_eq_true_eq, guards.holds, p.holds_iff hp (hr slot place hslot guards.get),
        guards.read_predicate hslot guards.get]

/-! ## Folded and fetched words -/

theorem Writes.shown_eq {s' : State} {bank : Bank} {news : Nat → Option Lane}
    (h : Writes w s w' s' bank news) (bank' : Bank) (lane : Nat) :
    w'.registers.shown s' bank' lane = if bank' = bank then
      (news lane).getD (w.registers.shown s bank' lane) else w.registers.shown s bank' lane := by
  by_cases hbank : bank' = bank
  · rw [if_pos hbank]
    subst hbank
    cases hnews : news lane with
    | none => exact h.shown fun _ => hnews
    | some x =>
      rw [RegisterFile.shown, h.written hnews]
      rfl
  · rw [if_neg hbank]
    exact h.shown fun heq => absurd heq hbank

/-- The code of a load past its condition, on a machine: if the predicate holds the lanes show the
words, and nothing else changes. -/
theorem exists_loaded (dest : Operand) (word : Memory → Nat → Lane) {c : Option Value}
    {x : Emit Unit} {wc : Workspace} {words : Nat} {E : Error → Workspace → Prop} {l : Listing}
    {S : State} (ready : w.Ready) (separate : w.registers.Separate)
    (hcondition : condition p w = .ok c wc)
    (spec : ∀ start s sc taken, Advances start w s wc sc → Permits wc sc c taken →
      Emits (.alters start) x wc sc
        (fun _ w' s' => Brings wc sc w' s' dest taken (word sc.memory) (range words)) E)
    (ok : x wc = .ok () w') (before : w.listing.entries.toList <+: w'.listing.entries.toList)
    (hl : w'.listing.entries.toList <+: l.entries.toList) (hS : S.Loaded (.ofListing l)) :
    ∃ taken, (taken = true ↔ p.Holds w'.registers S) ∧
      (∀ k < words, (w'.registers.laneAt (S.runSince (.ofListing l) w.listing w'.listing) dest.bank
        (dest.laneAfter k)).isSome = true) ∧
      ∀ bank lane, w'.registers.shown (S.runSince (.ofListing l) w.listing w'.listing) bank lane =
        if bank = dest.bank then (if taken = true then
          dest.wordsAfter (word S.memory) (range words) lane else none).getD
            (w.registers.shown S bank lane) else w.registers.shown S bank lane := by
  have hin := Program.within_ofListing (before.trans hl)
  obtain ⟨sc, taken, keeps, permits, holds⟩ := exists_permits (ready.good hS hin) hcondition
  obtain ⟨s', alters, brings⟩ :=
    (spec S.held _ sc taken keeps.toAdvances permits).of_ok
      ⟨keeps.good', keeps.separate separate⟩ ok
  obtain ⟨-, -, shows⟩ := (keeps.steps.trans alters.steps).runSince ready.consistent hS
    (Program.within_ofListing hl) hin
  have hlaneAt := shows.laneAt alters.good'.registers
  refine ⟨taken, holds _ fun slot place hslot => alters.predicates hslot, fun k hk => ?_,
    fun bank lane => ?_⟩
  · obtain ⟨found, hfound⟩ := Option.isSome_iff_exists.1 (brings.backs k (mem_range.2 hk)).2
    have hfound : w'.registers.resolved? dest.bank (dest.laneAfter k) = some found := hfound
    rw [hlaneAt, laneAt, hfound]
    rfl
  · have hshown := (brings.writes.after_keeps keeps).shown_eq bank lane
    have hmemory : sc.memory = S.memory := keeps.memory
    rw [hmemory, shown, ← hlaneAt, ← shown] at hshown
    rw [hshown, shown, shown,
      (State.shows_upTo w.listing S).laneAt ready.registers]

theorem Operand.wordsAfter_congr (dest : Operand) {f g : Nat → Lane} {ks : List Nat}
    (h : ∀ k ∈ ks, f k = g k) : dest.wordsAfter f ks = dest.wordsAfter g ks := by
  funext lane
  rw [wordsAfter, wordsAfter]
  cases hfind : ks.find? fun k => decide (dest.laneAfter k = lane) with
  | none => rfl
  | some k => exact congrArg some (h k (mem_of_find?_eq_some hfind))

theorem emits_fixedLoad (h1 : i.src1.bank = .immediate) (h2 : i.src2.bank = .immediate)
    (hindex : i.src2.Index) (hbank : i.dest.bank.isRegister = true) {c : Option Value}
    {taken : Bool} (hc : Permits w s c taken) {words : Nat}
    (h : i.fixedAddress size expanded + words * 4 < 0x100000000) :
    Emits (.alters start) (address ctx i.toOperation .scratch size expanded >>= fun base =>
        transferWords ctx false .scratch base i.data c (range words)) w s
      (fun _ w' s' => Brings w s w' s' i.data taken
        (fun k => s.memory.fetch .scratch (i.fixedAddress size expanded + k * 4)) (range words))
      fun _ _ => ∃ k ∈ range words, Unreachable w.registers i.data k := by
  have hspace : MemorySpace.scratch ≠ .global := nofun
  have hfirst : i.fixedAddress size expanded < 0x100000000 := by omega
  have haddress : Computes start (address ctx i.toOperation .scratch size expanded) w s .u32 _ :=
    computes_address_fixed ctx h1 h2 hindex hspace hfirst
  refine (haddress _).keeps.alters.bind fun base w1 s1 _ hbase => ?_
  obtain ⟨k1, hbase⟩ := hbase
  have hdata : i.data.element = .f32 := rfl
  refine (emits_fetchWords ctx hdata hbank (hc.steps k1.good.live k1.steps) hbase _).mono
    (fun _ w2 s2 _ hwords => ⟨hwords.backs, ?_⟩)
    fun _ _ ⟨k, hk, he⟩ => ⟨k, hk, he.before k1.toAdvances⟩
  have hoffsets : ∀ k ∈ range words,
      s.memory.fetch .scratch
          (Memory.wordOffset (BitVec.ofNat 32 (i.fixedAddress size expanded)) k) =
        s.memory.fetch .scratch (i.fixedAddress size expanded + k * 4) := by
    intro k hk
    have := mem_range.1 hk
    rw [wordOffset_ofNat (by omega)]
  have hwrites := hwords.writes.after_keeps k1
  simp only [k1.memory] at hwrites
  simpa only [← i.data.wordsAfter_congr hoffsets] using hwrites

theorem RegisterFile.laneAt_eq_shown {r : RegisterFile} {bank : Bank} {lane : Nat}
    (h : (r.laneAt s bank lane).isSome = true) : r.laneAt s bank lane = some (r.shown s bank lane) := by
  obtain ⟨x, hx⟩ := Option.isSome_iff_exists.1 h
  rw [shown, hx]
  rfl

/-- A load of words at a place that immediates fix, to lanes that can be reached from the workspace.
Nothing overflows, and the condition is one for all lanes. -/
structure Instruction.LoadsFixed (i : Instruction) (element : Element) (count : Nat) (expanded : Bool)
    (w : Workspace) : Prop where
  load : i.opcode = .ldr
  detail : i.detail = .memory element count expanded
  src1 : i.src1.bank = .immediate
  src2 : i.src2.bank = .immediate
  index : i.src2.Index
  test : i.predicate ≠ .perLane
  register : i.dest.bank.isRegister = true
  reaches : ∀ k < wordCount element count,
    w.registers.Reaches i.dest.bank (laneNumber i.dest.bank (i.dest.num + k) 0) true
  size : element.size * count < 0x100000000
  number : i.dest.num + wordCount element count < 0x100000000
  offset : i.fixedAddress element.size expanded + wordCount element count * 4 < 0x100000000

namespace Instruction.LoadsFixed

variable {c : Option Value} {wc : Workspace} {sc : State} {taken : Bool}
  (h : i.LoadsFixed element count expanded w) (ctx : Context)

include h

theorem lower_folded (hspace : memorySpace ctx.shader.aliases i.src0 = .literal)
    (hcondition : condition i.predicate w = .ok c wc) :
    lower ctx i w = foldLiterals ctx i.data (i.fixedAddress element.size expanded)
      (wordCount element count) c wc := by
  have hfirst : i.fixedAddress element.size expanded < 0x100000000 := by
    have := h.offset
    omega
  rw [lower_transfer ctx h.detail (.inl h.load),
    transfer_fold ctx h.detail h.load hspace h.src1 h.src2 hfirst, Emit.word_of_lt h.size, pure_bind]
  show EStateM.bind _ _ w = _
  rw [EStateM.bind, hcondition]
  rfl

theorem lower_fetched (hspace : memorySpace ctx.shader.aliases i.src0 = .scratch)
    (hcondition : condition i.predicate w = .ok c wc) :
    lower ctx i w = (address ctx i.toOperation .scratch element.size expanded >>= fun base =>
      transferWords ctx false .scratch base i.data c (range (wordCount element count))) wc := by
  have hne : memorySpace ctx.shader.aliases i.src0 ≠ .literal := by
    rw [hspace]
    exact nofun
  rw [lower_transfer ctx h.detail (.inl h.load), transfer_load ctx h.detail h.load hne,
    Emit.word_of_lt h.size, pure_bind, hspace]
  show EStateM.bind _ _ w = _
  rw [EStateM.bind, hcondition]
  rfl

theorem reachable (a : Advances start w s wc sc) {k : Nat}
    (hk : k ∈ range (wordCount element count)) : ¬ Unreachable wc.registers i.data k := by
  intro hnot
  have hk := mem_range.1 hk
  have hnum : i.data.num = i.dest.num := rfl
  have hnumber := h.number
  have hoffset := h.offset
  rcases hnot.before a with hlarge | hlarge | hnot
  · omega
  · omega
  · exact hnot (h.reaches k hk)

/-- A folded load fails only where a word is not in the buffer. -/
theorem emits_folded (a : Advances start w s wc sc) (hc : Permits wc sc c taken) :
    Emits (.alters start) (foldLiterals ctx i.data (i.fixedAddress element.size expanded)
        (wordCount element count) c) wc sc
      (fun _ w' s' => (∀ k ∈ range (wordCount element count),
          i.fixedAddress element.size expanded + k * 4 + 4 ≤ ctx.shader.literalBuffer.size) ∧
        Brings wc sc w' s' i.data taken
          (fun k => ctx.shader.literalWord (i.fixedAddress element.size expanded + k * 4))
          (range (wordCount element count)))
      fun e _ => (∃ fault, e = .metadata fault) ∧ ∃ k < wordCount element count,
        ctx.shader.literalBuffer.size < i.fixedAddress element.size expanded + k * 4 + 4 := by
  have hdata : i.data.element = .f32 := rfl
  refine (emits_foldLiterals ctx hdata h.register hc _ _).fails fun e _ he => ?_
  obtain ⟨k, hk, hwhy⟩ := he
  have hk' := mem_range.1 hk
  have hoffset := h.offset
  rcases hwhy with hlarge | hnot | ⟨hfault, hout⟩
  · omega
  · exact absurd hnot (h.reachable a hk)
  · exact ⟨hfault, k, hk', hout⟩

theorem emits_fetched (a : Advances start w s wc sc) (hc : Permits wc sc c taken) :
    Emits (.alters start) (address ctx i.toOperation .scratch element.size expanded >>= fun base =>
        transferWords ctx false .scratch base i.data c (range (wordCount element count))) wc sc
      (fun _ w' s' => Brings wc sc w' s' i.data taken
        (fun k => sc.memory.fetch .scratch (i.fixedAddress element.size expanded + k * 4))
        (range (wordCount element count)))
      fun _ _ => False :=
  (emits_fixedLoad ctx h.src1 h.src2 h.index h.register hc h.offset).fails
    fun _ _ ⟨_, hk, hnot⟩ => h.reachable a hk hnot

/-- Past its condition, the code of a load starts where the workspace is good. -/
theorem exists_past_condition (ready : w.Ready) (separate : w.registers.Separate) :
    ∃ c wc start s sc taken, condition i.predicate w = .ok c wc ∧
      Advances start w s wc sc ∧ Permits wc sc c taken ∧ (Frame.alters start).Admits wc sc := by
  obtain ⟨c, wc, hcondition⟩ := exists_condition h.test w
  have good := ready.good (State.loaded_initial w.listing) (.refl _)
  obtain ⟨sc, taken, keeps, permits, -⟩ := exists_permits good hcondition
  exact ⟨c, wc, _, _, sc, taken, hcondition, keeps.toAdvances, permits, keeps.good',
    keeps.separate separate⟩

theorem fails_iff (hspace : memorySpace ctx.shader.aliases i.src0 = .literal) (ready : w.Ready)
    (separate : w.registers.Separate) :
    (∃ fault w', lower ctx i w = .error (.metadata fault) w') ↔ ∃ k < wordCount element count,
      ctx.shader.literalBuffer.size < i.fixedAddress element.size expanded + k * 4 + 4 := by
  obtain ⟨c, wc, start, s, sc, taken, hcondition, a, permits, admits⟩ :=
    h.exists_past_condition ready separate
  have spec := h.emits_folded ctx a permits
  rw [h.lower_folded ctx hspace hcondition]
  constructor
  · rintro ⟨fault, w', herror⟩
    exact (spec.of_error admits herror).2
  · rintro ⟨k, hk, hout⟩
    cases hrun : foldLiterals ctx i.data (i.fixedAddress element.size expanded)
        (wordCount element count) c wc with
    | ok u w' =>
      obtain ⟨s', -, hin, -⟩ := spec.of_ok admits hrun
      exact absurd (hin k (mem_range.2 hk)) (Nat.not_le.2 hout)
    | error e w' =>
      obtain ⟨⟨fault, rfl⟩, -⟩ := spec.of_error admits hrun
      exact ⟨fault, w', rfl⟩

theorem exists_folded (hspace : memorySpace ctx.shader.aliases i.src0 = .literal) (ready : w.Ready)
    (separate : w.registers.Separate) (hin : ∀ k < wordCount element count,
      i.fixedAddress element.size expanded + k * 4 + 4 ≤ ctx.shader.literalBuffer.size) :
    ∃ w', lower ctx i w = .ok () w' := by
  obtain ⟨c, wc, start, s, sc, taken, hcondition, a, permits, admits⟩ :=
    h.exists_past_condition ready separate
  have spec := h.emits_folded ctx a permits
  rw [h.lower_folded ctx hspace hcondition]
  obtain ⟨_, w', _, hok, -⟩ := (spec.fails fun _ _ ⟨_, k, hk, hout⟩ =>
    absurd (hin k hk) (Nat.not_le.2 hout)).exists_ok admits
  exact ⟨w', hok⟩

theorem exists_fetched (hspace : memorySpace ctx.shader.aliases i.src0 = .scratch) (ready : w.Ready)
    (separate : w.registers.Separate) : ∃ w', lower ctx i w = .ok () w' := by
  obtain ⟨c, wc, start, s, sc, taken, hcondition, a, permits, admits⟩ :=
    h.exists_past_condition ready separate
  rw [h.lower_fetched ctx hspace hcondition]
  obtain ⟨_, w', _, hok, -⟩ := (h.emits_fetched ctx a permits).exists_ok admits
  exact ⟨w', hok⟩

end Instruction.LoadsFixed

/-- A shader that names the third secondary attribute as the base of its literals. -/
def foldingContext (bytes : Array (BitVec 8)) : Context :=
  { shader := { literalBuffer := bytes, aliases := { literal? := some 3 } } }

/-- One that names it as the base of scratch memory. -/
def fetchingContext : Context := { shader := { aliases := { scratch? := some 3 } } }

/-- Bytes that count. -/
def countingBytes (n : Nat) : Array (BitVec 8) := ⟨(range n).map (BitVec.ofNat 8)⟩

/-- A load of two attribute lanes from the eighth byte on. -/
def loadAttributes (predicate : Predicate) : Instruction :=
  { opcode := .ldr
    dest := { bank := .primaryAttribute, num := 1, slot := 3 }
    src0 := { bank := .secondaryAttribute, num := 3, element := .s32, slot := 0 }
    src1 := { bank := .immediate, num := 1, element := .s32, slot := 1 }
    src2 := { bank := .immediate, num := 0, element := .s32, slot := 2 }
    destMask := 0b0001
    predicate := predicate
    detail := .memory .f32 2 false }

end Microcode
