import Microcode.Access.Load
import Microcode.Proofs.Resolution

/-!
Gathering of consecutive lanes.

Lanes are read piece by piece: a piece is the rest of the register that holds its first lane.  After
the first piece, what lies past the end of the bank reads as zeros.  Where registers stay within
aligned groups of four lanes, the pieces give what the lanes hold one by one.
-/

namespace Microcode

open Machine Emit Access List RegisterFile

variable {lanes : List Lane} {segments : List Segment} {count : Nat}

variable {start : Nat → Nat → Lanes} {w w' : Workspace} {s s' : State} {bank : Bank}

/-! ## Pieces -/

namespace RegisterFile

/-- The lanes that are read at once from the lane with this number on: the rest of its register, or
of its group where nothing backs a secondary attribute. -/
def pieceAt (r : RegisterFile) (s : State) (bank : Bank) (number : Int) : Option (List Lane) :=
  if number < 0 ∨ 0x100000000 ≤ number then none
  else
    match r.resolved? bank number.toNat with
    | some found =>
      some ((List.range' found.offset (found.register.lanes - found.offset)).map
        (s.read found.register.place).get)
    | none =>
      if bank = .secondaryAttribute then
        some ((List.range' number.toNat (4 - number.toNat % 4)).map (r.boundLane s bank))
      else none

/-- The lanes that are read from the lane with this number on, in at most `fuel` pieces. -/
def lanesFrom (r : RegisterFile) (s : State) (bank : Bank) :
    (fuel : Nat) → (number : Int) → (count : Nat) → List Lane
  | 0, _, _ => []
  | fuel + 1, number, count =>
    if count = 0 then []
    else
      match r.pieceAt s bank number with
      | some piece =>
        let take := min piece.length count
        piece.take take ++ r.lanesFrom s bank fuel (number + take) (count - take)
      | none => List.replicate count 0#32

theorem lanesFrom_zero (r : RegisterFile) (s : State) (bank : Bank) (fuel : Nat) (number : Int) :
    r.lanesFrom s bank fuel number 0 = [] := by
  cases fuel with
  | zero => rfl
  | succ fuel => rw [lanesFrom, if_pos rfl]

section

variable {l : Listing} {r : RegisterFile} {number : Int}

theorem pieceAt_of_resolved? (s : State) {found : Resolved} (hin : 0 ≤ number ∧ number < 0x100000000)
    (h : r.resolved? bank number.toNat = some found) : r.pieceAt s bank number =
      some ((List.range' found.offset (found.register.lanes - found.offset)).map
        (s.read found.register.place).get) := by
  rw [pieceAt, if_neg (by omega), h]

theorem lanesFrom_of_piece {piece : List Lane} (hp : r.pieceAt s bank number = some piece)
    (hcount : count ≠ 0) (fuel : Nat) : r.lanesFrom s bank (fuel + 1) number count =
      piece.take (min piece.length count) ++ r.lanesFrom s bank fuel
        (number + (min piece.length count : Nat)) (count - min piece.length count) := by
  rw [lanesFrom, if_neg hcount, hp]

theorem WellFormed.piece_pos (h : r.WellFormed l) {piece : List Lane}
    (hp : r.pieceAt s bank number = some piece) : 0 < piece.length := by
  rw [pieceAt] at hp
  split at hp
  · cases hp
  cases hr : r.resolved? bank number.toNat with
  | some found =>
    rw [hr, Option.some.injEq] at hp
    subst hp
    have := h.resolved?_covers hr
    simp only [length_map, length_range']
    omega
  | none =>
    rw [hr] at hp
    simp only at hp
    split at hp
    · rw [Option.some.injEq] at hp
      subst hp
      simp only [length_map, length_range']
      omega
    · cases hp

theorem WellFormed.lanesFrom_succ (h : r.WellFormed l) {fuel : Nat} (hfuel : count ≤ fuel) :
    r.lanesFrom s bank (fuel + 1) number count = r.lanesFrom s bank fuel number count := by
  induction fuel generalizing number count with
  | zero => rw [Nat.le_zero.1 hfuel, lanesFrom_zero, lanesFrom_zero]
  | succ fuel ih =>
    by_cases hzero : count = 0
    · rw [hzero, lanesFrom_zero, lanesFrom_zero]
    cases hp : r.pieceAt s bank number with
    | none =>
      rw [lanesFrom, lanesFrom, hp]
    | some piece =>
      have := h.piece_pos hp
      rw [lanesFrom_of_piece hp hzero, lanesFrom_of_piece hp hzero, ih (by omega)]

/-- A walk may stop within a piece and go on with the rest of the piece. -/
theorem WellFormed.lanesFrom_split (h : r.WellFormed l) {piece : List Lane} {k : Nat}
    (hp : r.pieceAt s bank number = some piece)
    (hnext : r.pieceAt s bank (number + k) = some (piece.drop k)) (hk : k < piece.length)
    (hpos : 0 < k) (hcount : k ≤ count) {fuel : Nat} (hfuel : count ≤ fuel + 1) :
    r.lanesFrom s bank (fuel + 1) number count =
      piece.take k ++ r.lanesFrom s bank fuel (number + k) (count - k) := by
  have htake : min piece.length count = k + min (piece.length - k) (count - k) := by omega
  have hsucc : r.lanesFrom s bank (fuel + 1) (number + k) (count - k) =
      r.lanesFrom s bank fuel (number + k) (count - k) := h.lanesFrom_succ (by omega)
  rw [← hsucc, lanesFrom_of_piece hp (by omega)]
  by_cases hmore : count - k = 0
  · rw [hmore, lanesFrom_zero, append_nil, htake, hmore, Nat.min_zero, Nat.add_zero, hmore,
      lanesFrom_zero, append_nil]
  rw [lanesFrom_of_piece hnext hmore]
  simp only [length_drop, htake, take_add, append_assoc, Int.natCast_add, Int.add_assoc,
    Nat.sub_add_eq]

end

end RegisterFile

namespace RegisterFile.WellFormed

variable {l : Listing} {r r' : RegisterFile}

/-- A piece does not change while its lanes are found where they were. -/
theorem pieceAt_congr (hr : r.WellFormed l) (tables : r'.tables = r.tables)
    (reads : ∀ {place}, l.Declares place → s'.read place = s.read place) {number : Int}
    (h : r'.resolved? bank number.toNat = r.resolved? bank number.toNat) :
    r'.pieceAt s' bank number = r.pieceAt s bank number := by
  rw [pieceAt, pieceAt, h]
  cases hres : r.resolved? bank number.toNat with
  | some found => simp only [reads (hr.resolved?_covers hres).2.2.place.declared]
  | none => simp only [hr.boundLane_congr tables reads]

theorem lanesFrom_congr (hr : r.WellFormed l) (tables : r'.tables = r.tables)
    (reads : ∀ {place}, l.Declares place → s'.read place = s.read place) (fuel : Nat)
    {number : Int} (h : ∀ lane, number.toNat ≤ lane → r'.resolved? bank lane = r.resolved? bank lane)
    (count : Nat) :
    r'.lanesFrom s' bank fuel number count = r.lanesFrom s bank fuel number count := by
  induction fuel generalizing number count with
  | zero => rfl
  | succ fuel ih =>
    rw [lanesFrom, lanesFrom, hr.pieceAt_congr tables reads (h _ (Nat.le_refl _))]
    by_cases hcount : count = 0
    · rw [if_pos hcount, if_pos hcount]
    rw [if_neg hcount, if_neg hcount]
    cases r.pieceAt s bank number with
    | none => rfl
    | some piece =>
      simp only
      rw [ih fun lane hlane => h lane (by omega)]

end RegisterFile.WellFormed

/-- The lanes from a resolved lane to the end of its register are its piece. -/
theorem Finds.pieceAt {number : Int} {found : Resolved} (k : Keeps start w s w' s')
    (h : Finds w bank number false found w') :
    w.registers.pieceAt s bank number =
      some ((List.range' found.offset (found.register.lanes - found.offset)).map
        (s'.read found.register.place).get) := by
  have hin : ¬ (number < 0 ∨ 0x100000000 ≤ number) := by
    have := h.reached.1
    have := h.reached.2.1
    omega
  rcases h.added with hsame | ⟨hb, hnone, hwhy, place, hadd⟩
  · have hres : w.registers.resolved? bank number.toNat = some found := hsame ▸ h.resolved
    have hdecl := (k.good.registers.resolved?_covers hres).2.2.place.declared
    rw [RegisterFile.pieceAt, if_neg hin, hres, k.read hdecl]
  · obtain ⟨hsec, hres⟩ := hwhy.resolve_left (by simp)
    have hfound : found = ⟨⟨place, 4, number.toNat / 4 * 4⟩,
        number.toNat - number.toNat / 4 * 4⟩ := by
      have hres' := h.resolved
      rw [hadd, resolved?, held?_addShadow hb, Option.some_or,
        Option.some.injEq] at hres'
      exact hres'.symm
    -- The new shadow holds what its group held, lane by lane.
    have hlane : ∀ i, i < 4 → (s'.read place).get i =
        w.registers.boundLane s bank (number.toNat / 4 * 4 + i) := by
      intro i hi
      have hgroup : (number.toNat / 4 * 4 + i) / 4 * 4 = number.toNat / 4 * 4 := by omega
      have hold : w.registers.laneAt s bank (number.toNat / 4 * 4 + i) =
          some (w.registers.boundLane s bank (number.toNat / 4 * 4 + i)) := by
        have hnone' : w.registers.held? bank (number.toNat / 4 * 4 + i) = none := by
          rw [held?, if_pos hb, hgroup, hnone]
          rfl
        rw [laneAt, resolved?, hnone', Option.none_or,
          boundLane]
        cases w.registers.bound? bank (number.toNat / 4 * 4 + i) with
        | none => rw [if_pos hsec]; rfl
        | some _ => rfl
      have hnew := k.lanes hold
      have hheld' := held?_addShadow (r := w.registers) hb
        (number.toNat / 4 * 4 + i) place
      rw [hgroup] at hheld'
      rw [hadd, laneAt, resolved?, hheld', Option.some_or,
        Option.some.injEq] at hnew
      simpa [Resolved.content] using hnew
    rw [RegisterFile.pieceAt, if_neg hin, hres, hfound]
    simp only [if_pos hsec, Option.some.injEq]
    refine ext_getElem (by simp; omega) fun i hi _ => ?_
    have hi' : i < 4 - number.toNat % 4 := by simpa using hi
    simp only [getElem_map, getElem_range', Nat.one_mul]
    rw [hlane _ (by omega)]
    congr 1
    omega

/-! ## What loads leave alone -/

/-- Where all lanes are as they were. -/
def SameLanes (w : Workspace) (s : State) (w' : Workspace) (s' : State) : Prop :=
  ∀ bank lane, w'.registers.laneAt s' bank lane = w.registers.laneAt s bank lane

theorem SameLanes.trans {w'' : Workspace} {s'' : State} (h : SameLanes w s w' s')
    (h' : SameLanes w' s' w'' s'') : SameLanes w s w'' s'' :=
  fun bank lane => (h' bank lane).trans (h bank lane)

theorem Quiet.sameLanes (q : Quiet start w s w' s') : SameLanes w s w' s' := q.laneAt

theorem RegisterFile.isSome_laneAt_secondary (r : RegisterFile) (s : State) (lane : Nat) :
    (r.laneAt s .secondaryAttribute lane).isSome = true := by
  rw [laneAt]
  cases r.resolved? .secondaryAttribute lane <;> rfl

/-- Reading adds storage to secondary attributes only, all of which can be read anyway. -/
theorem Finds.sameLanes {number : Int} {found : Resolved} (k : Keeps start w s w' s')
    (h : Finds w bank number false found w') : SameLanes w s w' s' := by
  intro bank' lane
  by_cases hsec : bank' = .secondaryAttribute
  · subst hsec
    obtain ⟨x, hx⟩ := Option.isSome_iff_exists.1 (w.registers.isSome_laneAt_secondary s lane)
    rw [k.lanes hx, hx]
  have hfound : w'.registers.resolved? bank' lane = w.registers.resolved? bank' lane := by
    rcases h.added with hsame | ⟨-, -, hwhy, place, hadd⟩
    · rw [hsame]
    · obtain ⟨rfl, -⟩ := hwhy.resolve_left (by simp)
      rw [resolved?, resolved?, k.bound?, hadd,
        held?_addShadow_of_ne fun he => hsec he.1]
  rw [laneAt, laneAt, hfound]
  cases hres : w.registers.resolved? bank' lane with
  | none => rfl
  | some found =>
    have hvalid := (k.good.registers.resolved?_covers hres).2.2
    simp only [Resolved.content, k.read hvalid.place.declared]

/-! ## Gathering -/

/-- The outcome of a computation may be asked for.  After a failure that leaves the workspace as it
was, the computation goes on from there; any other failure has to end it. -/
theorem Emits.attempt {α β : Type} {F : Frame} {x : Emit α} {f : Except Error α → Emit β}
    {P : α → Workspace → State → Prop} {Q : β → Workspace → State → Prop}
    {E E' : Error → Workspace → Prop} (hx : Emits F x w s P E')
    (hok : ∀ a w' s', F.Rel w s w' s' → P a w' s' → Emits F (f (.ok a)) w' s' Q E)
    (herror : ∀ e w', E' e w' → (w' = w ∧ Emits F (f (.error e)) w s Q E) ∨
      ∃ e' w'', f (.error e) w' = .error e' w'' ∧ E e' w'') :
    Emits F (Emit.attempt x >>= f) w s Q E := by
  intro hw
  have hrun : (Emit.attempt x).Ends w (fun r w' => (f r).Ends w' (fun b w'' =>
      ∃ s'', F.Rel w s w'' s'' ∧ Q b w'' s'') E) fun _ _ => False := by
    refine Emit.Ends.attempt (hx hw) ?_ fun e w' he => ?_
    · rintro a w' ⟨s', hrel, hP⟩
      refine Emit.Ends.mono (hok a w' s' hrel hP (F.admits hrel)) ?_ fun _ _ h => h
      rintro b w'' ⟨s'', hrel', hQ⟩
      exact ⟨s'', F.trans hrel hrel', hQ⟩
    · rcases herror e w' he with ⟨rfl, hf⟩ | ⟨e', w'', hf, he⟩
      · exact hf hw
      · rw [Emit.Ends, hf]
        exact he
  exact hrun.bind (fun _ _ h => h) fun _ _ h => h.elim

/-- Consecutive segments and the lanes they give: every segment but the last one reaches the end of
its value. -/
inductive Covers (w : Workspace) (s : State) : List Segment → List Lane → Prop
  | nil : Covers w s [] []
  | cons {segment : Segment} {xs ys : List Lane} {rest : List Segment}
      (value : Holds w s segment.value .f32 xs) (pos : 0 < segment.take)
      (inside : segment.start + segment.take ≤ xs.length)
      (full : rest ≠ [] → segment.start + segment.take = xs.length) (more : Covers w s rest ys) :
    Covers w s (segment :: rest) ((xs.drop segment.start).take segment.take ++ ys)

theorem Covers.eq_nil (h : Covers w s segments []) : segments = [] := by
  generalize hlanes : ([] : List Lane) = lanes at h
  cases h with
  | nil => rfl
  | @cons segment xs ys rest value pos inside full more =>
    have := congrArg List.length hlanes
    simp only [length_nil, length_append, length_take, length_drop] at this
    omega

/-- Why lanes cannot be gathered.  A lane that does not resolve stands in the way only if it is the
first one or if register arithmetic leaves its range there. -/
inductive Blocked (r : RegisterFile) (bank : Bank) (num : Nat) (sub : Int) (count : Nat)
    (opening : Prop) : Prop
  | range (j : Nat) (hj : j < count) (h : ¬ (-0x80000000 ≤ sub + j ∧ sub + j < 0x80000000))
  | first (h : opening) (unreached : ¬ r.Reaches bank (laneNumber bank num sub) false)
  | overflow (j : Nat) (hj : j < count)
      (unreached : ¬ r.Reaches bank (laneNumber bank num (sub + j)) false)
      (h : ¬ (r.EndsAt bank (laneNumber bank num (sub + j)).toNat ∧
        r.Seedable bank ((laneNumber bank num (sub + j)).toNat / 4 * 4)))

theorem Blocked.earlier {num take : Nat} {sub : Int} {opening : Prop}
    (h : Blocked w'.registers bank num (sub + take) (count - take) False)
    (k : Keeps start w s w' s') : Blocked w.registers bank num sub count opening := by
  have hsub : ∀ j : Nat, sub + take + j = sub + (take + j : Nat) := by omega
  cases h with
  | range j hj h =>
    rw [hsub] at h
    exact .range (take + j) (by omega) h
  | first h _ => exact h.elim
  | overflow j hj unreached h =>
    rw [hsub] at unreached h
    rw [k.endsAt, Seedable] at h
    simp only [k.endsAt] at h
    exact .overflow (take + j) (by omega) (fun hr => unreached (k.reaches hr)) h

/-- A walk makes no shadow but in the group where it stands. -/
theorem Finds.held?_of_ne {number : Int} {found : Resolved} (h : Finds w bank number false found w')
    {lane : Nat} (hlane : lane / 4 * 4 ≠ number.toNat / 4 * 4) :
    w'.registers.held? bank lane = w.registers.held? bank lane := by
  rcases h.added with hsame | ⟨-, -, -, place, hadd⟩
  · rw [hsame]
  · rw [hadd, held?_addShadow_of_ne fun he => hlane he.2]

/-- What is read past a piece does not depend on how the piece was found. -/
theorem Finds.lanesFrom_after {number : Int} {found : Resolved} (k : Keeps start w s w' s')
    (h : Finds w bank number false found w') (fuel : Nat) {take : Nat}
    (htake : take = min (found.register.lanes - found.offset) count) :
    w'.registers.lanesFrom s' bank fuel (number + take) (count - take) =
      w.registers.lanesFrom s bank fuel (number + take) (count - take) := by
  have hnonneg := h.reached.1
  by_cases hmore : count - take = 0
  · rw [hmore, lanesFrom_zero, lanesFrom_zero]
  refine k.good.registers.lanesFrom_congr k.tables k.read fuel (fun lane hlane => ?_) _
  rcases h.added with hsame | ⟨hb, -, -, place, hadd⟩
  · rw [hsame]
  have hfound := h.resolved
  rw [hadd, resolved?, held?_addShadow hb, Option.some_or,
    Option.some.injEq] at hfound
  rw [← hfound] at htake
  simp only at htake
  rw [resolved?, resolved?, h.held?_of_ne (by omega), k.bound?]

/-- The lanes that were read can be read again, although the walk may since have made the shadow of
the group that it started in. -/
theorem Finds.lanesFrom_again {number : Int} {found : Resolved} {w1 : Workspace} {s1 : State}
    (h : Finds w bank number false found w1) (k1 : Keeps start w s w1 s1)
    (k2 : Keeps start w1 s1 w' s') {fuel take : Nat} (hfuel : count ≤ fuel + 1)
    (htake : take = min (found.register.lanes - found.offset) count)
    (hpast : (number.toNat / 4 * 4 + 4 : Nat) ≤ number + take →
      w'.registers.held? bank number.toNat = w1.registers.held? bank number.toNat)
    (hrest : w'.registers.lanesFrom s' bank fuel (number + take) (count - take) =
      w.registers.lanesFrom s bank fuel (number + take) (count - take)) :
    w'.registers.lanesFrom s' bank (fuel + 1) number count =
      w.registers.lanesFrom s bank (fuel + 1) number count := by
  have hin : 0 ≤ number ∧ number < 0x100000000 := ⟨h.reached.1, h.reached.2.1⟩
  by_cases hzero : count = 0
  · rw [hzero, lanesFrom_zero, lanesFrom_zero]
  have hcov := k1.good'.registers.resolved?_covers h.resolved
  rw [lanesFrom_of_piece (h.pieceAt k1) hzero]
  simp only [length_map, length_range', ← htake, ← hrest]
  by_cases hheld : w'.registers.held? bank number.toNat = w1.registers.held? bank number.toNat
  · have hsame : w'.registers.resolved? bank number.toNat = some found := by
      rw [← h.resolved, resolved?, resolved?, hheld, k2.bound?]
    rw [lanesFrom_of_piece (pieceAt_of_resolved? s' hin hsame) hzero,
      k2.read hcov.2.2.place.declared]
    simp only [length_map, length_range', ← htake]
  -- The lane was found in its binding, and the walk went on within the group, which has a shadow now.
  have hgroup := mt hpast hheld
  have hnone : w1.registers.held? bank number.toNat = none := by
    cases hold : w1.registers.held? bank number.toNat with
    | none => rfl
    | some held => exact absurd ((k2.held? hold).trans hold.symm) hheld
  obtain ⟨shadow, hshadow⟩ := Option.ne_none_iff_exists'.1 fun hn => hheld (hn.trans hnone.symm)
  obtain ⟨hgiven, hoffset, -, hlanes⟩ := k2.good'.registers.held?_eq_some hshadow
  have hwrap := k2.good'.registers.numbered hgiven
  have hfound (j : Nat) (hj : shadow.offset + j < 4) :
      w'.registers.resolved? bank (number + j).toNat = some ⟨shadow.register, shadow.offset + j⟩ := by
    rw [show (number + j).toNat = number.toNat + j by omega]
    refine k2.good'.registers.resolved?_run ?_ (by omega) fun hn => ?_
    · rw [resolved?, hshadow, Option.some_or]
    · exact absurd (hshadow.symm.trans hn) (Option.some_ne_none _)
  have hpiece (j : Nat) (hj : shadow.offset + j < 4) :=
    pieceAt_of_resolved? s' (by omega) (hfound j hj)
  have hfirst := hpiece 0 (by omega)
  rw [Int.natCast_zero, Int.add_zero, Nat.add_zero] at hfirst
  rw [k2.good'.registers.lanesFrom_split (k := take) hfirst ?_ (by simp; omega) (by omega) (by omega)
    hfuel]
  · congr 1
    refine ext_getElem (by simp; omega) fun j hj _ => ?_
    have hjtake : j < take := by
      simp only [length_take] at hj
      omega
    have hold : w1.registers.laneAt s1 bank (number.toNat + j) =
        some ((s1.read found.register.place).get (found.offset + j)) := by
      rw [laneAt, k1.good'.registers.resolved?_run h.resolved (by omega) fun hn =>
        held?_group (by omega) hn]
      rfl
    have hnew := k2.lanes hold
    rw [show number.toNat + j = (number + j).toNat by omega, laneAt,
      hfound j (by omega), Option.some.injEq] at hnew
    simpa [Resolved.content] using hnew
  · rw [hpiece take (by omega), ← map_drop, drop_range', Nat.mul_one, Nat.sub_add_eq]

/-- All lanes are as they were, those that were read can be read again, and no group that lies before
them got a shadow. -/
structure Rereads (w : Workspace) (s : State) (w' : Workspace) (s' : State) (bank : Bank)
    (fuel : Nat) (number : Int) (count : Nat) : Prop where
  lanes : SameLanes w s w' s'
  again : w'.registers.lanesFrom s' bank fuel number count =
    w.registers.lanesFrom s bank fuel number count
  past : ∀ lane : Nat, (lane / 4 * 4 + 4 : Nat) ≤ number →
    w'.registers.held? bank lane = w.registers.held? bank lane

theorem Quiet.rereads (q : Quiet start w s w' s') (h : Good w s) (fuel : Nat) (number : Int)
    (count : Nat) : Rereads w s w' s' bank fuel number count where
  lanes := q.laneAt
  again := h.registers.lanesFrom_congr (by rw [q.registers]) (fun _ => q.read _) fuel
    (fun _ _ => by rw [q.registers]) count
  past _ _ := by rw [q.registers]

theorem emits_gatherFrom (num : Nat) (first : Int) (fuel got remaining : Nat)
    (hfuel : remaining ≤ fuel) (hwidth : remaining ≤ 4) :
    Emits (.keeps start) (gatherFrom bank num first fuel got remaining) w s
      (fun segments w' s' => Covers w' s' segments (w.registers.lanesFrom s bank fuel
          (laneNumber bank num (first + got)) remaining) ∧
        (got = 0 → 0 < remaining → w.registers.Reaches bank (laneNumber bank num first) false) ∧
        Rereads w s w' s' bank fuel (laneNumber bank num (first + got)) remaining)
      (fun _ _ => Blocked w.registers bank num (first + got) remaining (got = 0)) := by
  induction fuel generalizing w s got remaining with
  | zero => exact .pure ⟨.nil, fun _ h => absurd h (by omega), fun _ _ => rfl, rfl, fun _ _ => rfl⟩
  | succ fuel ih =>
    by_cases hzero : remaining = 0
    · rw [gatherFrom, if_pos hzero, hzero, lanesFrom_zero]
      exact .pure ⟨.nil, fun _ h => absurd h (by omega), fun _ _ => rfl, rfl, fun _ _ => rfl⟩
    rw [gatherFrom, if_neg hzero]
    refine Emits.offset (fun h => .range 0 (by omega) (by simpa using h)) fun _ => ?_
    refine Emits.attempt (emits_resolve num (first + got) false) ?_ ?_
    · intro found w1 s1 k1 h1
      have hcov := k1.good'.registers.resolved?_covers h1.resolved
      obtain ⟨take, htake⟩ : ∃ n, n = min (found.register.lanes - found.offset) remaining :=
        ⟨_, rfl⟩
      have hlanes := lanesFrom_of_piece (h1.pieceAt k1) hzero fuel
      simp only [length_map, length_range', ← htake] at hlanes ⊢
      refine (computes_load hcov.2.2.place.declared hcov.2.2.place.shape hcov.2.2.pos
        hcov.2.2.width _).rel.keeps.bind fun v w2 s2 k2 h2 => ?_
      obtain ⟨q2, hv⟩ := h2
      have k := k1.trans k2
      refine ((ih (got + take) (remaining - take) (by omega) (by omega)).fails
        fun e w' he => ?_).bind fun segments w3 s3 k3 h3 => ?_
      · have he' : Blocked w2.registers bank num (first + got + take) (remaining - take) False := by
          have hpos : (got + take = 0) = False := by
            refine propext ⟨fun h => ?_, False.elim⟩
            omega
          rw [← hpos, show first + got + take = first + (got + take : Nat) by omega]
          exact he
        exact he'.earlier k
      have hnumber : laneNumber bank num (first + (got + take : Nat)) =
          laneNumber bank num (first + got) + take := by
        rw [show first + (got + take : Nat) = first + got + take by omega, laneNumber_add]
      obtain ⟨hcovers, -, hrereads⟩ := h3
      rw [hnumber] at hcovers hrereads
      have hrest : w2.registers.lanesFrom s2 bank fuel (laneNumber bank num (first + got) + take)
          (remaining - take) = w.registers.lanesFrom s bank fuel
            (laneNumber bank num (first + got) + take) (remaining - take) :=
        (q2.rereads k2.good ..).again.trans (h1.lanesFrom_after k1 fuel htake)
      refine .pure ⟨?_, fun hgot _ => ?_, ((h1.sameLanes k1).trans q2.sameLanes).trans hrereads.lanes,
        ?_, fun lane hlane => ?_⟩
      · have hdrop : (List.range' found.offset (found.register.lanes - found.offset)).map
            (s1.read found.register.place).get = ((List.range found.register.lanes).map
              (s1.read found.register.place).get).drop found.offset := by
          rw [← map_drop, range_eq_range', drop_range', Nat.mul_one, Nat.zero_add]
        rw [hlanes, ← hrest, hdrop]
        refine .cons (hv.advances k3.toAdvances) (by simp only; omega) (by simp; omega)
          (fun hne => ?_) hcovers
        have hmore : remaining - take ≠ 0 := fun h => hne (by
          rw [h, lanesFrom_zero] at hcovers
          exact hcovers.eq_nil)
        simp only [length_map, length_range]
        omega
      · have := h1.reached
        rwa [hgot, Int.natCast_zero, Int.add_zero] at this
      · refine h1.lanesFrom_again k1 (k2.trans k3) hfuel htake (fun h => ?_)
          (hrereads.again.trans hrest)
        rw [hrereads.past _ h, q2.registers]
      · rw [hrereads.past lane (by omega), q2.registers]
        exact h1.held?_of_ne (by omega)
    · intro e w1 he
      by_cases hstop : got = 0 ∨ e = .overflow
      · refine .inr ⟨e, w1, ?_, ?_⟩
        · simp only [Bool.or_eq_true, decide_eq_true_eq, if_pos hstop]
          rfl
        · by_cases hgot : got = 0
          · exact .first hgot he.unreached
          · have := he.overflow (hstop.resolve_left hgot)
            exact .overflow 0 (by omega) (by simpa using he.unreached) (by simpa using this)
      · obtain ⟨hsame, hwhy⟩ := he.unbacked fun h => hstop (.inr h)
        refine .inl ⟨hsame, ?_⟩
        simp only [Bool.or_eq_true, decide_eq_true_eq, if_neg hstop]
        have hpiece : w.registers.pieceAt s bank (laneNumber bank num (first + got)) = none := by
          rw [pieceAt]
          rcases hwhy with h | h | ⟨hnone, hbank⟩
          · rw [if_pos (.inl h)]
          · rw [if_pos (.inr h)]
          · rw [hnone]
            simp only [if_neg hbank, ite_self]
        rw [lanesFrom, if_neg hzero, hpiece]
        refine (computes_splatConstant (.f32 0#32) (by omega) hwidth _).rel.keeps.bind
          fun v w2 s2 k2 h2 => ?_
        obtain ⟨q2, hv⟩ := h2
        refine .pure ⟨?_, fun h => absurd (.inl h) hstop, q2.rereads k2.good ..⟩
        have hcov : Covers w2 s2 [⟨v, 0, remaining⟩] _ :=
          .cons hv (by simp only; omega) (by simp) (fun h => absurd rfl h) .nil
        simpa [Constant.lane] using hcov

theorem emits_gather (num : Nat) (first : Int) (hpos : 0 < count) (hwidth : count ≤ 4) :
    Emits (.keeps start) (gather bank num first count) w s
      (fun segments w' s' => Covers w' s' segments
          (w.registers.lanesFrom s bank count (laneNumber bank num first) count) ∧
        w.registers.Reaches bank (laneNumber bank num first) false ∧
        Rereads w s w' s' bank count (laneNumber bank num first) count)
      (fun _ _ => Blocked w.registers bank num first count True) := by
  rw [gather]
  refine (emits_gatherFrom num first count 0 count (Nat.le_refl _) hwidth).mono
    (fun segments w' s' _ h => ?_) fun e w' h => ?_
  · rw [Int.natCast_zero, Int.add_zero] at h
    exact ⟨h.1, h.2.1 rfl hpos, h.2.2⟩
  · rw [Int.natCast_zero, Int.add_zero, eq_self] at h
    exact h

/-! ## Registers within groups -/

namespace RegisterFile

variable {l : Listing} {r : RegisterFile} {number : Int}

/-- No shadow covers the rest of a register from a lane on that has none. -/
def Unbroken (r : RegisterFile) (bank : Bank) : Prop :=
  ∀ lane found, r.bound? bank lane = some found → r.held? bank lane = none →
    ∀ j, found.offset + j < found.register.lanes → r.held? bank (lane + j) = none

theorem Aligned.unbroken (h : r.Aligned bank) : r.Unbroken bank := by
  intro lane found hb hnone j hj
  have hcov := bound?_covers hb
  have := h _ _ hb
  exact held?_group (by omega) hnone

theorem WellFormed.laneAt_piece (h : r.WellFormed l) {piece : List Lane}
    (hp : r.pieceAt s bank number = some piece) {j : Nat} (ha : 0 < j → r.Unbroken bank)
    (hj : j < piece.length) :
    r.laneAt s bank (number.toNat + j) = some (piece.getD j 0#32) := by
  rw [pieceAt] at hp
  by_cases hin : number < 0 ∨ 0x100000000 ≤ number
  · rw [if_pos hin] at hp
    cases hp
  rw [if_neg hin] at hp
  cases hr : r.resolved? bank number.toNat with
  | some found =>
    rw [hr, Option.some.injEq] at hp
    subst hp
    simp only [length_map, length_range'] at hj
    have hcov := h.resolved?_covers hr
    have hnext : r.resolved? bank (number.toNat + j) =
        some ⟨found.register, found.offset + j⟩ := by
      refine h.resolved?_run hr (by omega) fun hnone => ?_
      rcases h.resolved?_cases hr with ⟨hheld, -⟩ | ⟨-, hb, -⟩
      · rw [hheld] at hnone
        cases hnone
      · rcases Nat.eq_zero_or_pos j with rfl | hpos
        · exact hnone
        · exact ha hpos _ _ hb hnone j (by omega)
    rw [laneAt, hnext, getD_eq_getElem _ _ (by simpa using hj)]
    simp [Resolved.content]
  | none =>
    rw [hr] at hp
    simp only at hp
    by_cases hsec : bank = .secondaryAttribute
    · rw [if_pos hsec, Option.some.injEq] at hp
      subst hp
      simp only [length_map, length_range'] at hj
      have hnone := held?_group (b := number.toNat + j) (by omega) (Option.or_eq_none_iff.1 hr).1
      rw [laneAt, resolved?, hnone, Option.none_or, getD_eq_getElem _ _ (by simpa using hj),
        getElem_map, getElem_range', Nat.one_mul, boundLane, if_pos hsec]
      cases r.bound? bank (number.toNat + j) <;> rfl
    · rw [if_neg hsec] at hp
      cases hp

theorem WellFormed.length_lanesFrom (h : r.WellFormed l) {fuel : Nat} (hfuel : count ≤ fuel) :
    (r.lanesFrom s bank fuel number count).length = count := by
  induction fuel generalizing number count with
  | zero => rw [lanesFrom, length_nil]; omega
  | succ fuel ih =>
    rw [lanesFrom]
    by_cases hzero : count = 0
    · rw [if_pos hzero, hzero, length_nil]
    rw [if_neg hzero]
    cases hp : r.pieceAt s bank number with
    | none => exact length_replicate
    | some piece =>
      have := h.piece_pos hp
      simp only [length_append, length_take]
      rw [ih (by omega)]
      omega

theorem isSome_pieceAt (hin : 0 ≤ number ∧ number < 0x100000000)
    (h : (r.laneAt s bank number.toNat).isSome = true) :
    (r.pieceAt s bank number).isSome = true := by
  rw [pieceAt, if_neg (by omega)]
  rw [laneAt] at h
  cases hr : r.resolved? bank number.toNat with
  | some found => rfl
  | none =>
    rw [hr] at h
    simp only at h ⊢
    split at h
    · rw [if_pos ‹_›]
      rfl
    · cases h

/-- Up to the first lane that nothing backs, what is gathered is what the lanes hold. -/
theorem WellFormed.getD_lanesFrom (h : r.WellFormed l) {fuel : Nat} (hfuel : count ≤ fuel) {j : Nat}
    (ha : 0 < j → r.Unbroken bank) (hj : j < count)
    (hbacked : ∀ i : Nat, i ≤ j → (0 ≤ number + i ∧ number + i < 0x100000000) ∧
      (r.laneAt s bank (number + i).toNat).isSome = true) :
    r.laneAt s bank (number + j).toNat = some ((r.lanesFrom s bank fuel number count).getD j 0#32) := by
  induction fuel generalizing number count j with
  | zero => omega
  | succ fuel ih =>
    have hfirst := hbacked 0 (Nat.zero_le _)
    rw [Int.natCast_zero, Int.add_zero] at hfirst
    obtain ⟨piece, hp⟩ := Option.isSome_iff_exists.1 (isSome_pieceAt hfirst.1 hfirst.2)
    have hpos := h.piece_pos hp
    rw [lanesFrom, if_neg (by omega), hp]
    simp only
    obtain ⟨take, htake⟩ : ∃ n, n = min piece.length count := ⟨_, rfl⟩
    rw [← htake]
    have hlen : (piece.take take).length = take := by rw [length_take]; omega
    by_cases hin : j < take
    · rw [getD_append _ _ _ _ (by omega), show (number + j).toNat = number.toNat + j by omega,
        h.laneAt_piece hp ha (by omega), getD_eq_getElem _ _ (by omega),
        getD_eq_getElem _ _ (by omega), getElem_take]
    · rw [getD_append_right _ _ _ _ (by omega), hlen]
      have hrest : r.laneAt s bank (number + take + (j - take : Nat)).toNat = some
          ((r.lanesFrom s bank fuel (number + take) (count - take)).getD (j - take) 0#32) := by
        refine ih (by omega) (fun _ => ha (by omega)) (by omega) fun i hi => ?_
        have := hbacked (take + i) (by omega)
        rwa [show number + (take + i : Nat) = number + take + i by omega] at this
      rwa [show number + take + (j - take : Nat) = number + j by omega] at hrest

end RegisterFile

/-! ## Segments as values -/

theorem Covers.quiet (h : Covers w s segments lanes) (q : Quiet start w s w' s') :
    Covers w' s' segments lanes := by
  induction h with
  | nil => exact .nil
  | cons value pos inside full _ ih => exact .cons (value.quiet q) pos inside full ih

theorem computes_compact_one {segment : Segment} {xs : List Lane}
    (hv : Holds w s segment.value .f32 xs) (hpos : 0 < segment.take)
    (hin : segment.start + segment.take ≤ xs.length) :
    Computes start segment.compact w s .f32 ((xs.drop segment.start).take segment.take) := by
  intro E
  rw [Segment.compact]
  refine Emits.countOf ?_
  rw [hv.countOf]
  by_cases hall : segment.start = 0 ∧ segment.take = xs.length
  · rw [if_pos (by simpa using hall), hall.1, hall.2, drop_zero, take_length]
    exact .pure hv
  rw [if_neg (by simpa using hall)]
  by_cases hone : segment.take = 1
  · rw [if_pos hone, hone, take_one, head?_drop, getElem?_eq_getElem (by omega), Option.toList_some,
      ← getD_eq_getElem xs 0#32]
    exact computes_extract hv (by omega) E
  · rw [if_neg hone]
    exact computes_slice hv hpos hin E

theorem emits_compacts (h : Covers w s segments lanes) {E : Error → Workspace → Prop} :
    Emits (.quiet start) (segments.mapM Segment.compact) w s
      (fun vs w' s' => ∃ parts, List.Forall₂ (fun v ys => Holds w' s' v .f32 ys) vs parts ∧
        parts.flatten = lanes) E := by
  induction segments generalizing w s lanes with
  | nil =>
    cases h
    exact .pure ⟨[], .nil, rfl⟩
  | cons segment rest ih =>
    cases h with
    | cons value pos inside full more =>
      rw [mapM_cons]
      refine (computes_compact_one value pos inside E).bind fun v w1 s1 q1 hv => ?_
      refine (ih (more.quiet q1)).bind fun vs w2 s2 q2 h2 => .pure ?_
      obtain ⟨parts, hparts, hflat⟩ := h2
      exact ⟨_, .cons (hv.quiet q2) hparts, by rw [flatten_cons, hflat]⟩

theorem computes_compact (h : Covers w s segments lanes) (hpos : 0 < lanes.length)
    (hwidth : lanes.length ≤ 4) : Computes start (compact segments) w s .f32 lanes := by
  intro E
  rw [compact]
  refine (emits_compacts h).bind fun vs w1 s1 q1 h1 => ?_
  obtain ⟨parts, hparts, rfl⟩ := h1
  refine computes_construct hparts (fun hnil => ?_) hwidth E
  rw [hnil, forall₂_nil_left_iff] at hparts
  rw [hparts] at hpos
  cases hpos

/-- Two values that follow each other have the gathered lanes from the given one on. -/
theorem emits_twoValues (h : Covers w s segments lanes) (hpos : 0 < lanes.length)
    (hwidth : lanes.length ≤ 4) {E : Error → Workspace → Prop} :
    Emits (.quiet start) (twoValues segments) w s
      (fun p w' s' => ∃ xs ys, Holds w' s' p.1 .f32 xs ∧ Holds w' s' p.2.1 .f32 ys ∧
        ((xs ++ ys).drop p.2.2).take lanes.length = lanes) E := by
  have joined : Emits (.quiet start) (compact segments >>= fun v => pure (v, v, 0)) w s
      (fun p w' s' => ∃ xs ys, Holds w' s' p.1 .f32 xs ∧ Holds w' s' p.2.1 .f32 ys ∧
        ((xs ++ ys).drop p.2.2).take lanes.length = lanes) E :=
    (computes_compact h hpos hwidth E).bind fun v w1 s1 _ hv =>
      .pure ⟨lanes, lanes, hv, hv, by rw [drop_zero, take_left]⟩
  match segments, h, joined with
  | [], h, joined => exact joined
  | [only], h, _ =>
    obtain _ | ⟨value, pos, inside, -, more⟩ := h
    cases more
    refine .pure ⟨_, _, value, value, ?_⟩
    simp only [append_nil, length_take, length_drop]
    rw [drop_append_of_le_length (by omega),
      take_append_of_le_length (by rw [length_drop]; omega)]
    congr 1
    omega
  | [a, b], h, joined =>
    rw [twoValues]
    by_cases hb : b.start = 0
    · rw [if_pos hb]
      cases h with
      | @cons _ xs _ _ value pos inside full more =>
        cases more with
        | @cons _ ys _ _ value' pos' inside' _ more' =>
          cases more'
          have hfull := full (by simp)
          have hdrop : (xs.drop a.start).take a.take = xs.drop a.start :=
            take_of_length_le (by rw [length_drop]; omega)
          refine .pure ⟨xs, ys, value, value', ?_⟩
          simp only [hb, drop_zero, append_nil, hdrop, length_append]
          rw [drop_append_of_le_length (by omega), take_length_add_append,
            length_take]
          congr 2
          omega
    · rw [if_neg hb]
      exact joined
  | _ :: _ :: _ :: _, h, joined => exact joined

end Microcode
