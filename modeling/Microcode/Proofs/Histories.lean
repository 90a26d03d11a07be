import Microcode.Proofs.TypedResolution

/-!
The register files of a run.

A workspace keeps every register file it has had.  Each of them is orderly: a group has at most one
shadow, and every shadow and every predicate register has a variable of its own.  From one to the
next a shadow may be added and none is ever replaced; the entry before a shadow is added is the
store that seeds it, and nothing touches the variable earlier.
-/

namespace Microcode

open List RegisterFile

variable {bank : Bank} {binding : Binding} {base group slot : Nat} {place : Place}

/-- Whether an entry reads or writes a variable. -/
def Entry.touches : Entry → Nat → Bool
  | .define _ (.load place), x => place.variableIndex = x
  | .store place _, x => place.variableIndex = x
  | _, _ => false

/-- Storage whose contents are given to a shader. -/
def Storage.isGiven : Storage → Bool
  | .input _ | .builtinInput _ | .uniformArray _ _ => true
  | .hidden | .output _ | .builtinOutput _ => false

theorem Quad.get_set_of_none {α : Type} {q : Quad (Option α)} {i j : Nat} {a : Option α} {b : α}
    (hi : q.get i = none) (hj : q.get j = some b) : (q.set i a).get j = some b := by
  rcases Quad.index_cases i with rfl | rfl | rfl | ⟨k, rfl⟩ <;>
    rcases Quad.index_cases j with rfl | rfl | rfl | ⟨k', rfl⟩ <;> simp_all [Quad.set, Quad.get]

/-! ## Variables of a register file -/

/-- Every bank. -/
def Bank.any (_ : Bank) : Prop := True

namespace RegisterFile

/-- A variable that is bound to a bank of `B`, is the shadow of a group in a bank of `S`, or is a
predicate register. -/
inductive Uses (r : RegisterFile) (B S : Bank → Prop) (x : Nat) : Prop
  | bound {bank : Bank} {e : Nat × Binding} (allowed : B bank) (mem : e ∈ (r.tables bank).entries)
    (here : e.2.place.variableIndex = x)
  | shadow {s : (Bank × Nat) × Register} (allowed : S s.1.1) (mem : s ∈ r.shadows)
    (here : s.2.place.variableIndex = x)
  | predicate {slot : Nat} {place : Place} (get : r.predicates.get slot = some place)
    (here : place.variableIndex = x)

/-- Variables that may be stored to: bindings of attributes are not written. -/
def Writes (r : RegisterFile) (B : Bank → Prop) (x : Nat) : Prop :=
  r.Uses (fun bank => B bank ∧ bank.isShadowed = false) B x

def predicateVariables (predicates : Quad (Option Place)) : List Nat :=
  predicates.toList.filterMap fun place? => place?.map Place.variableIndex

/-- Variables of shadows and predicate registers. -/
def owned (r : RegisterFile) : List Nat :=
  r.shadows.map (fun s => s.2.place.variableIndex) ++ predicateVariables r.predicates

/-- At most one shadow for a group, and a variable for each shadow and each predicate register that
nothing else has. -/
structure Orderly (r : RegisterFile) : Prop where
  keys : (r.shadows.map Prod.fst).Nodup
  groups : ∀ s ∈ r.shadows, s.1.1.isShadowed = true ∧ s.1.2 % 4 = 0 ∧
    s.2 = ⟨s.2.place, 4, s.1.2⟩
  distinct : r.owned.Nodup
  apart : ∀ bank, ∀ e ∈ (r.tables bank).entries, e.2.place.variableIndex ∉ r.owned

variable {r r' : RegisterFile} {B B' S S' : Bank → Prop} {x : Nat}

theorem Uses.mono (h : r.Uses B S x) (hB : ∀ bank, B bank → B' bank)
    (hS : ∀ bank, S bank → S' bank) : r.Uses B' S' x := by
  cases h with
  | bound allowed mem here => exact .bound (hB _ allowed) mem here
  | shadow allowed mem here => exact .shadow (hS _ allowed) mem here
  | predicate get here => exact .predicate get here

theorem Uses.any (h : r.Uses B S x) : r.Uses Bank.any Bank.any x :=
  h.mono (fun _ _ => trivial) fun _ _ => trivial

theorem Writes.any (h : r.Writes B x) : r.Writes Bank.any x :=
  h.mono (fun _ h => ⟨trivial, h.2⟩) fun _ _ => trivial

theorem Writes.uses (h : r.Writes B x) : r.Uses B B x := h.mono (fun _ h => h.1) fun _ h => h

theorem mem_predicateVariables {predicates : Quad (Option Place)} {x : Nat} :
    x ∈ predicateVariables predicates ↔
      ∃ slot place, predicates.get slot = some place ∧ place.variableIndex = x := by
  obtain ⟨a, b, c, d⟩ := predicates
  simp only [predicateVariables, Quad.toList, mem_filterMap, mem_cons, not_mem_nil,
    or_false, Option.map_eq_some_iff]
  constructor
  · rintro ⟨place?, rfl | rfl | rfl | rfl, place, rfl, hx⟩
    · exact ⟨0, place, rfl, hx⟩
    · exact ⟨1, place, rfl, hx⟩
    · exact ⟨2, place, rfl, hx⟩
    · exact ⟨3, place, rfl, hx⟩
  · rintro ⟨slot, place, hget, hx⟩
    match slot, hget with
    | 0, hget => exact ⟨a, .inl rfl, place, hget, hx⟩
    | 1, hget => exact ⟨b, .inr (.inl rfl), place, hget, hx⟩
    | 2, hget => exact ⟨c, .inr (.inr (.inl rfl)), place, hget, hx⟩
    | _ + 3, hget => exact ⟨d, .inr (.inr (.inr rfl)), place, hget, hx⟩

theorem predicateVariables_set {predicates : Quad (Option Place)}
    (hnone : predicates.get slot = none) (place : Place) :
    (predicateVariables (predicates.set slot (some place))).Perm
      (place.variableIndex :: predicateVariables predicates) := by
  have middle (before after : List (Option Place)) :
      ((before ++ some place :: after).filterMap fun p => p.map Place.variableIndex).Perm
        (place.variableIndex ::
          (before ++ none :: after).filterMap fun p => p.map Place.variableIndex) := by
    simp only [filterMap_append, filterMap_cons, Option.map_some, Option.map_none]
    exact perm_middle
  obtain ⟨a, b, c, d⟩ := predicates
  match slot, hnone with
  | 0, hnone =>
    obtain rfl : a = none := hnone
    exact middle [] [b, c, d]
  | 1, hnone =>
    obtain rfl : b = none := hnone
    exact middle [a] [c, d]
  | 2, hnone =>
    obtain rfl : c = none := hnone
    exact middle [a, b] [d]
  | _ + 3, hnone =>
    obtain rfl : d = none := hnone
    exact middle [a, b, c] []

theorem mem_owned : x ∈ r.owned ↔ r.Uses (fun _ => False) Bank.any x := by
  rw [owned, mem_append, mem_map, mem_predicateVariables]
  constructor
  · rintro (⟨s, hs, hx⟩ | ⟨slot, place, hget, hx⟩)
    · exact .shadow trivial hs hx
    · exact .predicate hget hx
  · intro h
    cases h with
    | bound allowed => exact absurd allowed id
    | shadow _ mem here => exact .inl ⟨_, mem, here⟩
    | predicate get here => exact .inr ⟨_, _, get, here⟩

theorem notMem_owned_of_notUses (h : ¬ r.Uses Bank.any Bank.any x) : x ∉ r.owned :=
  fun hx => h (mem_owned.1 hx).any

theorem shadow_of_shadow? {register : Register} (h : r.shadow? bank group = some register) :
    ((bank, group), register) ∈ r.shadows := by
  obtain ⟨before, after, hsplit, -⟩ := lookup_eq_some_iff.1 h
  rw [hsplit]
  simp

/-! ## Changes of a register file -/

theorem orderly_empty : ({} : RegisterFile).Orderly where
  keys := .nil
  groups _ h := nomatch h
  distinct := .nil
  apart _ _ h := nomatch h

theorem uses_bind (h : (r.bind bank base binding).Uses B S x) :
    B bank ∧ binding.place.variableIndex = x ∨ r.Uses B S x := by
  cases h with
  | bound allowed mem here =>
    rcases mem_bind mem with ⟨rfl, rfl⟩ | mem
    · exact .inl ⟨allowed, here⟩
    · exact .inr (.bound allowed mem here)
  | shadow allowed mem here => exact .inr (.shadow allowed mem here)
  | predicate get here => exact .inr (.predicate get here)

theorem Orderly.bind (h : r.Orderly)
    (hnew : ¬ r.Uses Bank.any Bank.any binding.place.variableIndex) :
    (r.bind bank base binding).Orderly where
  keys := h.keys
  groups := h.groups
  distinct := h.distinct
  apart b e he := by
    rcases mem_bind he with ⟨-, rfl⟩ | he
    · exact notMem_owned_of_notUses (r := r) hnew
    · exact h.apart b e he

theorem uses_addShadow (h : (r.addShadow bank group place).Uses B S x) :
    S bank ∧ place.variableIndex = x ∨ r.Uses B S x := by
  cases h with
  | bound allowed mem here => exact .inr (.bound allowed mem here)
  | shadow allowed mem here =>
    rcases mem_cons.1 mem with rfl | mem
    · exact .inl ⟨allowed, here⟩
    · exact .inr (.shadow allowed mem here)
  | predicate get here => exact .inr (.predicate get here)

theorem Orderly.addShadow (h : r.Orderly) (hbank : bank.isShadowed = true) (hgroup : group % 4 = 0)
    (hnone : r.shadow? bank group = none) (hnew : ¬ r.Uses Bank.any Bank.any place.variableIndex) :
    (r.addShadow bank group place).Orderly where
  keys := by
    apply nodup_cons.2
    refine ⟨fun hkey => ?_, h.keys⟩
    obtain ⟨s, hs, hfst⟩ := mem_map.1 hkey
    have habsent := lookup_eq_none_iff.1 hnone s hs
    rw [hfst] at habsent
    simp at habsent
  groups s hs := by
    rcases mem_cons.1 hs with rfl | hs
    · exact ⟨hbank, hgroup, rfl⟩
    · exact h.groups s hs
  distinct := nodup_cons.2 ⟨notMem_owned_of_notUses hnew, h.distinct⟩
  apart b e he := by
    intro hmem
    rcases mem_cons.1 hmem with hx | hmem
    · exact hnew (.bound trivial he hx)
    · exact h.apart b e he hmem

/-- The register file with one more predicate register. -/
def setPredicate (r : RegisterFile) (slot : Nat) (place : Place) : RegisterFile :=
  { r with predicates := r.predicates.set slot (some place) }

theorem uses_setPredicate (h : (r.setPredicate slot place).Uses B S x) :
    place.variableIndex = x ∨ r.Uses B S x := by
  cases h with
  | bound allowed mem here => exact .inr (.bound allowed mem here)
  | shadow allowed mem here => exact .inr (.shadow allowed mem here)
  | @predicate slot' place' get here =>
    rcases Quad.get_set_or r.predicates slot slot' (some place) with hset | hset
    · have hplace : place = place' := Option.some.inj (hset.symm.trans get)
      exact .inl (hplace ▸ here)
    · exact .inr (.predicate (hset.symm.trans get) here)

theorem Orderly.setPredicate (h : r.Orderly) (hnone : r.predicates.get slot = none)
    (hnew : ¬ r.Uses Bank.any Bank.any place.variableIndex) :
    (r.setPredicate slot place).Orderly := by
  have howned : (r.setPredicate slot place).owned.Perm (place.variableIndex :: r.owned) :=
    ((predicateVariables_set hnone place).append_left _).trans perm_middle
  constructor
  · exact h.keys
  · exact h.groups
  · exact howned.nodup_iff.2 (nodup_cons.2 ⟨notMem_owned_of_notUses hnew, h.distinct⟩)
  · intro bank e he hmem
    rcases mem_cons.1 (howned.mem_iff.1 hmem) with hx | hmem
    · exact hnew (.bound trivial he hx)
    · exact h.apart bank e he hmem

end RegisterFile

/-! ## Histories -/

/-- The last register file of a history; the first one is empty. -/
def Moment.latest : List Moment → RegisterFile
  | [] => {}
  | m :: _ => m.registers

/-- The last of the first `n` entries stores to the place, and none before it touches its
variable. -/
def Listing.Seeds (l : Listing) (place : Place) (n : Nat) : Prop :=
  ∃ k v, n = k + 1 ∧ l.entries[k]? = some (.store place v) ∧
    ∀ i < k, ∀ e, l.entries[i]? = some e → e.touches place.variableIndex = false

/-- A history in which every register file is orderly and shadows are only added, each when it has
been seeded. -/
inductive Listing.Records (l : Listing) : List Moment → Prop
  | start : Records l []
  | change {m : Moment} {before : List Moment} (earlier : Records l before)
    (orderly : m.registers.Orderly) (inside : m.position ≤ l.entries.size)
    (shadows : m.registers.shadows = (Moment.latest before).shadows ∨
      ∃ key register, m.registers.shadows = (key, register) :: (Moment.latest before).shadows ∧
        l.Seeds register.place m.position) :
    Records l (m :: before)

/-- More entries leave the earlier ones where they are. -/
def Listing.Prolongs (l l' : Listing) : Prop :=
  ∃ added, l'.entries.toList = l.entries.toList ++ added

namespace Listing

variable {l l' : Listing} {history : List Moment}

theorem Prolongs.getElem? (h : l.Prolongs l') {i : Nat} (hi : i < l.entries.size) :
    l'.entries[i]? = l.entries[i]? := by
  obtain ⟨added, hadded⟩ := h
  rw [← Array.getElem?_toList, ← Array.getElem?_toList, hadded,
    getElem?_append_left (by simpa using hi)]

theorem Prolongs.size (h : l.Prolongs l') : l.entries.size ≤ l'.entries.size := by
  obtain ⟨added, hadded⟩ := h
  have := congrArg List.length hadded
  simp only [Array.length_toList, length_append] at this
  omega

theorem Prolongs.trans {l'' : Listing} (h : l.Prolongs l') (h' : l'.Prolongs l'') :
    l.Prolongs l'' := by
  obtain ⟨added, hadded⟩ := h
  obtain ⟨added', hadded'⟩ := h'
  exact ⟨added ++ added', by rw [hadded', hadded, append_assoc]⟩

theorem prolongs_add (l : Listing) (e : Entry) : l.Prolongs (l.add e) :=
  ⟨[e], by rw [entries_add, Array.toList_push]⟩

theorem Seeds.lt {n : Nat} (h : l.Seeds place n) : 0 < n ∧ n ≤ l.entries.size := by
  obtain ⟨k, v, rfl, hk, -⟩ := h
  have := (Array.getElem?_eq_some_iff.1 hk).1
  omega

theorem Seeds.mono {n : Nat} (h : l.Seeds place n) (hl : l.Prolongs l') : l'.Seeds place n := by
  have hlt := h.lt
  obtain ⟨k, v, rfl, hk, hbefore⟩ := h
  refine ⟨k, v, rfl, (hl.getElem? (by omega)).trans hk, fun i hi e he => ?_⟩
  exact hbefore i hi e ((hl.getElem? (by omega)).symm.trans he)

/-- A variable is seeded once: both entries are the first to touch it. -/
theorem Seeds.unique {place' : Place} {n n' : Nat} (h : l.Seeds place n) (h' : l.Seeds place' n')
    (hx : place.variableIndex = place'.variableIndex) : n = n' := by
  obtain ⟨k, v, rfl, hk, hbefore⟩ := h
  obtain ⟨k', v', rfl, hk', hbefore'⟩ := h'
  rcases Nat.lt_trichotomy k k' with hlt | heq | hlt
  · have := hbefore' k hlt _ hk
    simp [Entry.touches, hx] at this
  · rw [heq]
  · have := hbefore k' hlt _ hk'
    simp [Entry.touches, hx] at this

theorem Records.mono (h : l.Records history) (hl : l.Prolongs l') : l'.Records history := by
  induction h with
  | start => exact .start
  | change _ orderly inside shadows ih =>
    apply Records.change ih orderly (Nat.le_trans inside hl.size)
    rcases shadows with hsame | ⟨key, register, hnew, hseeds⟩
    · exact .inl hsame
    · exact .inr ⟨key, register, hnew, hseeds.mono hl⟩

theorem Records.latest (h : l.Records history) : (Moment.latest history).Orderly := by
  cases h with
  | start => exact orderly_empty
  | change _ orderly => exact orderly

theorem Records.orderly (h : l.Records history) : ∀ m ∈ history, m.registers.Orderly := by
  induction h with
  | start => exact fun m hm => nomatch hm
  | change _ orderly _ _ ih =>
    intro m hm
    rcases mem_cons.1 hm with rfl | hm
    · exact orderly
    · exact ih m hm

/-- The shadows of an earlier moment are the first shadows of the latest one. -/
theorem Records.suffix_latest (h : l.Records history) :
    ∀ m ∈ history, m.registers.shadows <:+ (Moment.latest history).shadows := by
  induction h with
  | start => exact fun m hm => nomatch hm
  | @change m before _ _ _ shadows ih =>
    have hstep : (Moment.latest before).shadows <:+ m.registers.shadows := by
      rcases shadows with hsame | ⟨key, register, hnew, -⟩
      · exact ⟨[], hsame.symm⟩
      · exact ⟨[(key, register)], hnew.symm⟩
    intro m' hm'
    rcases mem_cons.1 hm' with rfl | hm'
    · exact suffix_rfl
    · exact (ih m' hm').trans hstep

theorem Records.pairwise (h : l.Records history) :
    history.Pairwise fun later earlier => earlier.registers.shadows <:+ later.registers.shadows := by
  induction h with
  | start => exact .nil
  | @change m before earlier orderly inside shadows ih =>
    apply pairwise_cons.2
    refine ⟨fun m' hm' => ?_, ih⟩
    exact (Records.change earlier orderly inside shadows).suffix_latest m'
      (.tail _ hm')

end Listing

/-- The entry `n` of the run seeded a shadow with the variable: the register file that follows it is
the first one with that shadow. -/
def Moment.Seeded (history : List Moment) (x n : Nat) : Prop :=
  ∃ m before, m :: before <:+ history ∧ m.position = n + 1 ∧
    ∃ key register, m.registers.shadows = (key, register) :: (Moment.latest before).shadows ∧
      register.place.variableIndex = x

namespace Listing.Records

variable {l : Listing} {history : List Moment} {x n : Nat}

/-- What seeded a shadow stores to its variable, and nothing touches the variable before. -/
theorem seeds (h : l.Records history) (hseeded : Moment.Seeded history x n) :
    ∃ place : Place, place.variableIndex = x ∧ l.Seeds place (n + 1) := by
  obtain ⟨m, before, hsuffix, hposition, key, register, hnew, hx⟩ := hseeded
  induction h with
  | start => exact absurd (suffix_nil.1 hsuffix) (by simp)
  | @change m' before' earlier _ _ shadows ih =>
    rcases suffix_cons_iff.1 hsuffix with heq | hsuffix
    · obtain ⟨rfl, rfl⟩ := List.cons.inj heq
      rcases shadows with hsame | ⟨key', register', hnew', hseeds⟩
      · rw [hsame] at hnew
        exact absurd (congrArg List.length hnew) (by simp)
      · obtain ⟨hhead, -⟩ := List.cons.inj (hnew'.symm.trans hnew)
        obtain ⟨-, rfl⟩ := Prod.mk.inj hhead
        exact ⟨register'.place, hx, hposition ▸ hseeds⟩
    · exact ih hsuffix

theorem exists_seeded (h : l.Records history) {s : (Bank × Nat) × Register}
    (hs : s ∈ (Moment.latest history).shadows) :
    ∃ n, Moment.Seeded history s.2.place.variableIndex n ∧ l.Seeds s.2.place (n + 1) := by
  induction h with
  | start => cases hs
  | @change m before earlier _ _ shadows ih =>
    have later (hs : s ∈ (Moment.latest before).shadows) :
        ∃ n, Moment.Seeded (m :: before) s.2.place.variableIndex n ∧ l.Seeds s.2.place (n + 1) := by
      obtain ⟨n, ⟨m', before', hsuffix, hrest⟩, hseeds⟩ := ih hs
      exact ⟨n, ⟨m', before', hsuffix.trans (suffix_cons m before), hrest⟩, hseeds⟩
    rcases shadows with hsame | ⟨key, register, hnew, hseeds⟩
    · exact later (hsame ▸ hs)
    · have hs : s ∈ m.registers.shadows := hs
      rw [hnew] at hs
      rcases mem_cons.1 hs with rfl | hs
      · have hposition : m.position = m.position - 1 + 1 := by
          have := hseeds.lt.1
          omega
        exact ⟨m.position - 1, ⟨m, before, suffix_rfl, hposition, key, register, hnew, rfl⟩,
          hposition ▸ hseeds⟩
      · exact later hs

theorem seeded_unique (h : l.Records history) {n' : Nat} (hseeded : Moment.Seeded history x n)
    (hseeded' : Moment.Seeded history x n') : n = n' := by
  obtain ⟨place, hx, hseeds⟩ := h.seeds hseeded
  obtain ⟨place', hx', hseeds'⟩ := h.seeds hseeded'
  have := hseeds.unique hseeds' (hx.trans hx'.symm)
  omega

end Listing.Records

/-! ## Workspaces -/

/-- The history leads to the register file, every variable is touched after its declaration, and
nothing is stored to what the shader is given. -/
structure Workspace.Kept (w : Workspace) : Prop where
  history : w.listing.Records w.history
  current : w.registers = Moment.latest w.history
  declared : ∀ x, w.registers.Uses Bank.any Bank.any x → x < w.listing.vars.size
  hidden : ∀ place, w.registers.Writes Bank.any place.variableIndex →
    (w.listing.variableAt place).storage = .hidden
  touched : ∀ e ∈ w.listing.entries, ∀ x, e.touches x = true → x < w.listing.vars.size
  stores : ∀ place v, Entry.store place v ∈ w.listing.entries →
    (w.listing.variableAt place).storage.isGiven = false

namespace Workspace

variable {w : Workspace}

theorem not_uses_empty {B S : Bank → Prop} {x : Nat} : ¬ ({} : RegisterFile).Uses B S x := by
  intro h
  cases h with
  | bound _ mem | shadow _ mem => exact absurd mem not_mem_nil
  | @predicate slot _ get =>
    rw [show ({} : RegisterFile).predicates = .replicate none from rfl, Quad.get_replicate] at get
    cases get

theorem kept_empty (t : Target) : Kept { listing := { target := t } } where
  history := .start
  current := rfl
  declared _ h := absurd h not_uses_empty
  hidden _ h := absurd h not_uses_empty
  touched _ h := nomatch h
  stores _ _ h := nomatch h

namespace Kept

theorem orderly (hw : w.Kept) : w.registers.Orderly := hw.current ▸ hw.history.latest

theorem notUses_of_le (hw : w.Kept) {x : Nat} (hx : w.listing.vars.size ≤ x) :
    ¬ w.registers.Uses Bank.any Bank.any x := fun h => by
  have := hw.declared x h
  omega

theorem notTouches_of_le (hw : w.Kept) {x : Nat} (hx : w.listing.vars.size ≤ x) {e : Entry}
    (he : e ∈ w.listing.entries) : e.touches x = false := by
  cases h : e.touches x with
  | false => rfl
  | true =>
    have := hw.touched e he x h
    omega

theorem add (hw : w.Kept) {e : Entry}
    (htouches : ∀ x, e.touches x = true → x < w.listing.vars.size)
    (hstore : ∀ place v, e = .store place v →
      (w.listing.variableAt place).storage.isGiven = false) :
    Kept { w with listing := w.listing.add e } := by
  have hextends := w.listing.extends_add e
  have hvars : w.listing.vars.size ≤ (w.listing.add e).vars.size := hextends.vars_size
  constructor
  · exact hw.history.mono (w.listing.prolongs_add e)
  · exact hw.current
  · intro x hx
    exact Nat.lt_of_lt_of_le (hw.declared x hx) hvars
  · intro place hplace
    have hdeclared : w.listing.Declares place := hw.declared _ hplace.uses.any
    exact (congrArg Variable.storage (hextends.variableAt hdeclared)).trans (hw.hidden place hplace)
  · intro e' he' x hx
    rw [Listing.entries_add] at he'
    rcases Array.mem_push.1 he' with hold | rfl
    · exact Nat.lt_of_lt_of_le (hw.touched e' hold x hx) hvars
    · exact Nat.lt_of_lt_of_le (htouches x hx) hvars
  · intro place v hmem
    rw [Listing.entries_add] at hmem
    have hdeclared : w.listing.Declares place := by
      rcases Array.mem_push.1 hmem with hold | hnew
      · exact hw.touched _ hold _ (by simp [Entry.touches])
      · exact htouches _ (by simp [← hnew, Entry.touches])
    rw [hextends.variableAt hdeclared]
    rcases Array.mem_push.1 hmem with hold | hnew
    · exact hw.stores place v hold
    · exact hstore place v hnew.symm

theorem setRegisters (hw : w.Kept) {r : RegisterFile} (horderly : r.Orderly)
    (hshadows : r.shadows = w.registers.shadows ∨ ∃ key register,
      r.shadows = (key, register) :: w.registers.shadows ∧
        w.listing.Seeds register.place w.listing.entries.size)
    (hdeclared : ∀ x, r.Uses Bank.any Bank.any x → x < w.listing.vars.size)
    (hhidden : ∀ place, r.Writes Bank.any place.variableIndex →
      (w.listing.variableAt place).storage = .hidden) : (w.setRegisters r).Kept where
  history := .change hw.history horderly (Nat.le_refl _) (hw.current ▸ hshadows)
  current := rfl
  declared := hdeclared
  hidden := hhidden
  touched := hw.touched
  stores := hw.stores

theorem bind (hw : w.Kept) (hnew : ¬ w.registers.Uses Bank.any Bank.any binding.place.variableIndex)
    (hdeclared : w.listing.Declares binding.place)
    (hhidden : bank.isShadowed = false → (w.listing.variableAt binding.place).storage = .hidden) :
    (w.setRegisters (w.registers.bind bank base binding)).Kept := by
  apply hw.setRegisters (hw.orderly.bind hnew) (.inl rfl)
  · intro x hx
    rcases uses_bind hx with ⟨-, rfl⟩ | hx
    · exact hdeclared
    · exact hw.declared x hx
  · intro place hplace
    rcases uses_bind hplace with ⟨hbank, hx⟩ | hplace
    · rw [Listing.variableAt, ← hx]
      exact hhidden hbank.2
    · exact hw.hidden place hplace

theorem addShadow (hw : w.Kept) (hbank : bank.isShadowed = true) (hgroup : group % 4 = 0)
    (hnone : w.registers.shadow? bank group = none)
    (hnew : ¬ w.registers.Uses Bank.any Bank.any place.variableIndex)
    (hhidden : (w.listing.variableAt place).storage = .hidden)
    (hseeds : w.listing.Seeds place w.listing.entries.size) :
    (w.setRegisters (w.registers.addShadow bank group place)).Kept := by
  apply hw.setRegisters (hw.orderly.addShadow hbank hgroup hnone hnew) (.inr ⟨_, _, rfl, hseeds⟩)
  · intro x hx
    rcases uses_addShadow hx with ⟨-, rfl⟩ | hx
    · obtain ⟨k, v, hk, hentry, -⟩ := hseeds
      exact hw.touched _ (Array.mem_of_getElem? hentry) _ (by simp [Entry.touches])
    · exact hw.declared x hx
  · intro place' hplace
    rcases uses_addShadow hplace with ⟨-, hx⟩ | hplace
    · rw [Listing.variableAt, ← hx]
      exact hhidden
    · exact hw.hidden place' hplace

theorem setPredicate (hw : w.Kept) (hnone : w.registers.predicates.get slot = none)
    (hnew : ¬ w.registers.Uses Bank.any Bank.any place.variableIndex)
    (hdeclared : w.listing.Declares place)
    (hhidden : (w.listing.variableAt place).storage = .hidden) :
    (w.setRegisters (w.registers.setPredicate slot place)).Kept := by
  apply hw.setRegisters (hw.orderly.setPredicate hnone hnew) (.inl rfl)
  · intro x hx
    rcases uses_setPredicate hx with rfl | hx
    · exact hdeclared
    · exact hw.declared x hx
  · intro place' hplace
    rcases uses_setPredicate hplace with hx | hplace
    · rw [Listing.variableAt, ← hx]
      exact hhidden
    · exact hw.hidden place' hplace

end Kept
end Workspace
end Microcode
