import Microcode.Proofs.FramedAccess
import Microcode.Proofs.Histories

/-!
Code that keeps to some banks.

What the front end emits for operands of some banks loads only from variables of these banks and
from predicate registers, stores only to such variables that may be written, and adds shadows to no
other bank.  It also keeps the history of the register file in order, so that both are proved in one
pass over the front end.
-/

namespace Microcode

open Emit List RegisterFile

variable (ctx : Context) {e : Entry} {place : Place}

/-- Keeps to the variables of some banks, and within one function. -/
def Entry.Confined (r : RegisterFile) (B : Bank → Prop) : Entry → Prop
  | .define _ (.load place) => r.Uses B B place.variableIndex
  | .store place _ => r.Writes B place.variableIndex
  | .beginFunction _ | .endFunction | .beginEntry | .call _ => False
  | _ => True

theorem Entry.Confined.of_neutral {r : RegisterFile} {B : Bank → Prop} (h : e.isNeutral = true) :
    e.Confined r B := by
  cases e with
  | define shape op =>
    cases op with
    | load place => cases h
    | _ => trivial
  | reuse | declare | element | storeMemory => trivial
  | store | beginFunction | endFunction | beginEntry | call => cases h

theorem Entry.Confined.uses {r : RegisterFile} {B : Bank → Prop} {x : Nat} (h : e.Confined r B)
    (hx : e.touches x = true) : r.Uses B B x := by
  cases e with
  | define shape op =>
    cases op with
    | load place =>
      have hplace : place.variableIndex = x := by simpa [touches] using hx
      exact hplace ▸ h
    | _ => exact absurd hx (by simp [touches])
  | store place v =>
    have hplace : place.variableIndex = x := by simpa [touches] using hx
    exact hplace ▸ Writes.uses h
  | _ => exact absurd hx (by simp [touches])

/-- The later register file has more shadows and predicate registers with variables from the `n`-th
on, and the shadows are in banks of `B`. -/
structure RegisterFile.Grows (B : Bank → Prop) (n : Nat) (r r' : RegisterFile) : Prop where
  tables : r'.tables = r.tables
  shadows : ∃ new, r'.shadows = new ++ r.shadows ∧
    ∀ s ∈ new, B s.1.1 ∧ n ≤ s.2.place.variableIndex
  predicates : ∀ slot place, r.predicates.get slot = some place →
    r'.predicates.get slot = some place
  newer : ∀ slot place, r'.predicates.get slot = some place →
    r.predicates.get slot = some place ∨ n ≤ place.variableIndex

namespace RegisterFile.Grows

variable {B S T : Bank → Prop} {m n x : Nat} {r r' r'' : RegisterFile}

theorem of_eq (h : r' = r) : Grows B n r r' := by
  subst h
  exact ⟨rfl, ⟨[], rfl, by simp⟩, fun _ _ h => h, fun _ _ h => .inl h⟩

theorem trans (h : Grows B m r r') (h' : Grows B n r' r'') (hmn : m ≤ n) : Grows B m r r'' := by
  obtain ⟨new, hnew, hbanks⟩ := h.shadows
  obtain ⟨new', hnew', hbanks'⟩ := h'.shadows
  constructor
  · exact h'.tables.trans h.tables
  · refine ⟨new' ++ new, by rw [hnew', hnew, append_assoc], fun s hs => ?_⟩
    rcases mem_append.1 hs with hs | hs
    · exact ⟨(hbanks' s hs).1, Nat.le_trans hmn (hbanks' s hs).2⟩
    · exact hbanks s hs
  · exact fun slot place hp => h'.predicates slot place (h.predicates slot place hp)
  · intro slot place hp
    rcases h'.newer slot place hp with hold | hle
    · exact h.newer slot place hold
    · exact .inr (Nat.le_trans hmn hle)

theorem uses (h : Grows B n r r') (hx : r.Uses S T x) : r'.Uses S T x := by
  cases hx with
  | bound allowed mem here => exact .bound allowed (h.tables ▸ mem) here
  | shadow allowed mem here =>
    obtain ⟨new, hnew, -⟩ := h.shadows
    exact .shadow allowed (hnew ▸ mem_append_right new mem) here
  | predicate get here => exact .predicate (h.predicates _ _ get) here

theorem writes (h : Grows B n r r') (hx : r.Writes S x) : r'.Writes S x := h.uses hx

theorem entry (h : Grows B n r r') (he : e.Confined r S) : e.Confined r' S := by
  cases e with
  | define shape op =>
    cases op with
    | load place => exact h.uses he
    | _ => trivial
  | store place v => exact h.writes he
  | beginFunction | endFunction | beginEntry | call => exact he
  | reuse | declare | element | storeMemory => trivial

end RegisterFile.Grows

/-- What was emitted between two workspaces keeps to the banks of `B`. -/
structure Workspace.Confined (B : Bank → Prop) (w w' : Workspace) : Prop where
  entries : ∃ added, w'.listing.entries.toList = w.listing.entries.toList ++ added ∧
    ∀ e ∈ added, e.Confined w'.registers B
  extension : w.listing.Extends w'.listing
  functions : w'.listing.functions = w.listing.functions
  registers : Grows B w.listing.vars.size w.registers w'.registers
  kept : w.Kept → w'.Kept

namespace Workspace.Confined

variable {B : Bank → Prop} {w w' w'' : Workspace}

theorem refl (B : Bank → Prop) (w : Workspace) : Confined B w w :=
  ⟨⟨[], by simp⟩, .refl _, rfl, .of_eq rfl, id⟩

theorem trans (h : Confined B w w') (h' : Confined B w' w'') : Confined B w w'' := by
  obtain ⟨added, hadded, hconfined⟩ := h.entries
  obtain ⟨added', hadded', hconfined'⟩ := h'.entries
  constructor
  · refine ⟨added ++ added', by rw [hadded', hadded, append_assoc], fun e he => ?_⟩
    rcases mem_append.1 he with he | he
    · exact h'.registers.entry (hconfined e he)
    · exact hconfined' e he
  · exact h.extension.trans h'.extension
  · exact h'.functions.trans h.functions
  · exact h.registers.trans h'.registers h.extension.vars_size
  · exact fun hw => h'.kept (h.kept hw)

theorem prolongs (h : Confined B w w') : w.listing.Prolongs w'.listing := by
  obtain ⟨added, hadded, -⟩ := h.entries
  exact ⟨added, hadded⟩

theorem add (he : e.Confined w.registers B) :
    Confined B w { w with listing := w.listing.add e } := by
  constructor
  · exact ⟨[e], by simp, by simpa using he⟩
  · exact w.listing.extends_add e
  · cases e with
    | beginFunction => exact absurd he id
    | _ => rfl
  · exact .of_eq rfl
  · intro hw
    apply hw.add
    · exact fun x hx => hw.declared x (he.uses hx).any
    · rintro place v rfl
      rw [hw.hidden place (Writes.any he)]
      rfl

end Workspace.Confined

/-- Code that keeps to the banks of `B`. -/
def Footprint.confined (B : Bank → Prop) : Footprint where
  Rel := Workspace.Confined B
  Fails w _ w' := w.Confined B w'
  refl := .refl B
  trans := .trans
  add _ _ he := .add (.of_neutral he)
  increments w _ := ⟨⟨[], by simp⟩, .refl _, rfl, .of_eq rfl, fun hw =>
    ⟨hw.history, hw.current, hw.declared, hw.hidden, hw.touched, hw.stores⟩⟩
  earlier := .trans

instance Footprint.confined_may (B : Bank → Prop) (e : Error) : (confined B).May e := ⟨.refl B⟩

instance Footprint.confined_declaring (B : Bank → Prop) : (confined B).Declaring :=
  ⟨fun _ _ => .add trivial⟩

instance Footprint.confined_lenient (B : Bank → Prop) : (confined B).Lenient := ⟨fun h => h⟩

/-- Such code that leaves the register file as it is. -/
def Footprint.still (B : Bank → Prop) : Footprint where
  Rel w w' := w.Confined B w' ∧ w'.registers = w.registers
  Fails w _ w' := w.Confined B w' ∧ w'.registers = w.registers
  refl w := ⟨.refl B w, rfl⟩
  trans h h' := ⟨h.1.trans h'.1, h'.2.trans h.2⟩
  add _ _ he := ⟨.add (.of_neutral he), rfl⟩
  increments w table := ⟨(confined B).increments w table, rfl⟩
  earlier h h' := ⟨h.1.trans h'.1, h'.2.trans h.2⟩

instance Footprint.still_may (B : Bank → Prop) (e : Error) : (still B).May e :=
  ⟨fun w => ⟨.refl B w, rfl⟩⟩

instance Footprint.still_declaring (B : Bank → Prop) : (still B).Declaring :=
  ⟨fun _ _ => ⟨.add trivial, rfl⟩⟩

open Footprint

section

variable {B : Bank → Prop} {w : Workspace} {bank : Bank}

/-! ## Resolution -/

theorem leads_loadStill (h : w.registers.Uses B B place.variableIndex) :
    (still B).Leads (Emit.load place) w fun _ _ => True :=
  ⟨⟨.add (e := .define (w.listing.opShape (.load place)) (.load place)) h, rfl⟩, trivial⟩

theorem leads_load (h : w.registers.Uses B B place.variableIndex) :
    (confined B).Leads (Emit.load place) w fun _ _ => True :=
  (leads_loadStill h).widen (fun _ h => h.1) fun _ _ h => h.1

theorem leads_store (h : w.registers.Writes B place.variableIndex) (v : Value) :
    (confined B).Leads (Emit.store place v) w fun _ _ => True :=
  ⟨.add (e := .store place v) h, trivial⟩

theorem leads_findBinding (F : Footprint) [F.May .overflow] (lane : Nat) :
    F.Leads (findBinding bank lane) w fun found w' =>
      w' = w ∧ ∀ e, found = some e → e ∈ (w.registers.tables bank).entries := by
  unfold findBinding
  apply Leads.getRegisters
  cases hc : w.registers.candidate? bank lane with
  | none => exact .pure ⟨rfl, fun _ h => by cases h⟩
  | some entry =>
    have hmem := (OrderedMap.floorList_mem hc).1
    have hword (n : Nat) : F.Leads (word n) w fun _ w' => w' = w := by
      unfold word
      exact .ite (fun _ => .pure rfl) fun _ => .raise
    apply (hword _).bind
    rintro lanes w1 - rfl
    apply (hword _).bind
    rintro stop w2 - rfl
    refine .pure ⟨rfl, fun e he => ?_⟩
    by_cases hlane : lane < stop
    · rw [if_pos hlane, Option.some.injEq] at he
      exact he ▸ hmem
    · rw [if_neg hlane] at he
      cases he

/-- A lane that is found is in a variable bound to its bank. -/
theorem leads_lookup (lane : Nat) :
    (still B).Leads (lookup bank lane) w fun found? w' => ∀ found, found? = some found →
      ∃ e ∈ (w'.registers.tables bank).entries,
        e.2.place.variableIndex = found.register.place.variableIndex := by
  unfold Emit.lookup
  apply (leads_findBinding _ lane).bind
  rintro found? w1 - ⟨rfl, hmem⟩
  match found? with
  | none => exact .pure fun _ h => nomatch h
  | some (base, .vector place lanes) =>
    refine .pure fun found h => ⟨_, hmem _ rfl, ?_⟩
    rw [← Option.some.inj h]
    rfl
  | some (base, .array place length) =>
    have hplace : (still B).Leads (element place ((lane - base) / 4)) w1 fun p _ =>
        p.variableIndex = place.variableIndex :=
      ⟨(still B).add w1 (.element place ((lane - base) / 4)) rfl, rfl⟩
    apply hplace.bind
    intro p w2 h2 hp
    refine .pure fun found h => ⟨_, h2.2 ▸ hmem _ rfl, ?_⟩
    rw [← Option.some.inj h]
    exact hp.symm

theorem within_groupParts (stop fuel lane : Nat) (hB : B bank) :
    Within (still B) (groupParts bank stop fuel lane) := by
  induction fuel generalizing lane with
  | zero =>
    unfold groupParts
    infer_instance
  | succ fuel ih =>
    unfold groupParts
    constructor
    intro w
    apply Leads.ite (fun _ => .pure trivial)
    intro _
    apply (leads_lookup lane).bind
    intro found? w1 _ hfound
    cases found? with
    | none => exact Within.leads w1
    | some found =>
      obtain ⟨e, hmem, hx⟩ := hfound found rfl
      apply (leads_loadStill (.bound hB hmem hx)).bind
      intro v w2 _ _
      exact Within.leads w2

/-- The part of making a shadow before its store. -/
theorem leads_seed (group : Nat) (x : Variable) (hB : B bank) :
    (still B).Leads (do
      let place ← declare x
      let stop ← word (group + 4)
      let seed ← construct (← groupParts bank stop 4 group)
      return (place, seed)) w fun (place, _) w' => place = ⟨w.listing.vars.size, []⟩ ∧
        w'.listing.variableAt place = x ∧ w'.listing.Declares place := by
  have hdeclare : (still B).Leads (declare x) w fun place w' => place = ⟨w.listing.vars.size, []⟩ ∧
      w'.listing.variableAt place = x ∧ w'.listing.Declares place :=
    ⟨Declaring.declare w x, rfl, w.listing.variableAt_declare x,
      (w.listing.valid_declare x).declared⟩
  apply hdeclare.bind
  rintro place w1 - ⟨hplace, hvariable, hdeclared⟩
  have hparts (stop : Nat) : Within (still B) (groupParts bank stop 4 group) :=
    within_groupParts stop 4 group hB
  have hseed : (still B).Leads (do
      let stop ← word (group + 4)
      let seed ← construct (← groupParts bank stop 4 group)
      return (place, seed)) w1 fun (p, _) _ => p = place := by
    apply Leads.andThen
    intro stop w2 _
    apply Leads.andThen
    intro parts w3 _
    apply Leads.andThen
    intro seed w4 _
    exact .pure rfl
  refine hseed.mono fun result w2 h2 hresult => ?_
  subst hresult
  exact ⟨hplace, (h2.1.extension.variableAt hdeclared).trans hvariable,
    h2.1.extension.declares hdeclared⟩

/-- The shadow is added when its variable, which is new, has been seeded. -/
theorem Workspace.Confined.addShadow {w1 : Workspace} {group : Nat} {seed : Value}
    (h : w.Confined B w1) (hsame : w1.registers = w.registers) (hB : B bank)
    (hbank : bank.isShadowed = true) (hgroup : group % 4 = 0)
    (hnone : w.registers.shadow? bank group = none) (hplace : place = ⟨w.listing.vars.size, []⟩)
    (hhidden : (w1.listing.variableAt place).storage = .hidden)
    (hdeclared : w1.listing.Declares place) :
    w.Confined B (({ w1 with listing := w1.listing.add (.store place seed) } : Workspace).setRegisters
      (w1.registers.addShadow bank group place)) := by
  have hx : place.variableIndex = w.listing.vars.size := congrArg Place.variableIndex hplace
  have hgrows : Grows B w.listing.vars.size w.registers
      (w1.registers.addShadow bank group place) := by
    constructor
    · show w1.registers.tables = w.registers.tables
      rw [hsame]
    · refine ⟨[((bank, group), ⟨place, 4, group⟩)], ?_, ?_⟩
      · exact congrArg _ (congrArg shadows hsame)
      · intro s hs
        rw [mem_singleton.1 hs]
        exact ⟨hB, Nat.le_of_eq hx.symm⟩
    · intro slot p hp
      rw [← hsame] at hp
      exact hp
    · intro slot p hp
      exact .inl (hsame ▸ hp)
  obtain ⟨added, hadded, hconfined⟩ := h.entries
  constructor
  · refine ⟨added ++ [.store place seed], ?_, fun e he => ?_⟩
    · show (w1.listing.add (.store place seed)).entries.toList = _
      rw [Listing.entries_add, Array.toList_push, hadded, append_assoc]
    · rcases mem_append.1 he with he | he
      · exact hgrows.entry (hsame ▸ hconfined e he)
      · rw [mem_singleton.1 he]
        exact .shadow hB mem_cons_self rfl
  · exact h.extension.trans (w1.listing.extends_add (.store place seed))
  · exact h.functions
  · exact hgrows
  · intro hw
    have hnew : ¬ w1.registers.Uses Bank.any Bank.any place.variableIndex := by
      rw [hsame, hx]
      exact hw.notUses_of_le (Nat.le_refl _)
    have hstored : Kept { w1 with listing := w1.listing.add (.store place seed) } := by
      apply (h.kept hw).add
      · intro x htouches
        have hplace : place.variableIndex = x := by simpa [Entry.touches] using htouches
        exact hplace ▸ hdeclared
      · intro place' v heq
        obtain ⟨rfl, -⟩ := Entry.store.inj heq
        rw [hhidden]
        rfl
    apply hstored.addShadow hbank hgroup (hsame ▸ hnone) hnew hhidden
    refine ⟨w1.listing.entries.size, seed, by simp, by simp, fun i hi e he => ?_⟩
    -- What stands before the store was there before the variable, or keeps to older variables.
    have hmem : e ∈ w1.listing.entries.toList := by
      rw [Listing.entries_add, Array.getElem?_push_lt hi] at he
      exact Array.mem_toList_iff.2 (Option.some.inj he ▸ Array.getElem_mem hi)
    rw [hadded] at hmem
    rcases mem_append.1 hmem with hold | hnewer
    · exact hw.notTouches_of_le (Nat.le_of_eq hx.symm) (Array.mem_toList_iff.1 hold)
    · cases htouches : e.touches place.variableIndex with
      | false => rfl
      | true => exact absurd ((hconfined e hnewer).uses htouches).any hnew

theorem leads_makeShadow {group : Nat} (hB : B bank) (hbank : bank.isShadowed = true)
    (hgroup : group % 4 = 0) (hnone : w.registers.shadow? bank group = none) :
    (confined B).Leads (makeShadow bank group) w fun register w' =>
      ((bank, group), register) ∈ w'.registers.shadows := by
  have hseed := leads_seed (w := w) group
    ⟨bank.name ++ toString group ++ "_shadow", Shape.group, .hidden⟩ hB
  have hsplit : makeShadow bank group = (do
      let place ← declare ⟨bank.name ++ toString group ++ "_shadow", Shape.group, .hidden⟩
      let stop ← word (group + 4)
      let seed ← construct (← groupParts bank stop 4 group)
      return (place, seed)) >>= fun (place, seed) => do
        store place seed
        setRegisters ((← getRegisters).addShadow bank group place)
        return ⟨place, 4, group⟩ := by
    simp only [makeShadow, bind_assoc, pure_bind]
  rw [hsplit]
  apply hseed.complete fun _ _ h => h.1
  rintro ⟨place, seed⟩ w1 ⟨hconfined, hsame⟩ ⟨hplace, hvariable, hdeclared⟩
  exact ⟨_, _, rfl, hconfined.addShadow hsame hB hbank hgroup hnone hplace
    (congrArg Variable.storage hvariable) hdeclared, mem_cons_self⟩

/-- Where a lane is resolved to is a variable of its bank, which may be written if it is resolved
for that. -/
theorem leads_resolve (index : Nat) (sub : Int) (forStore : Bool) (hB : B bank) :
    (confined B).Leads (resolve bank index sub forStore) w fun found w' =>
      w'.registers.Uses B B found.register.place.variableIndex ∧
        (forStore = true → w'.registers.Writes B found.register.place.variableIndex) := by
  have shadowed (w' : Workspace) (found : Resolved) (group : Nat)
      (h : ((bank, group), found.register) ∈ w'.registers.shadows) :
      w'.registers.Uses B B found.register.place.variableIndex ∧
        (forStore = true → w'.registers.Writes B found.register.place.variableIndex) :=
    ⟨.shadow hB h rfl, fun _ => .shadow hB h rfl⟩
  unfold resolve
  refine .ite (fun _ => .raise) fun _ => .getRegisters ?_
  have hgroup : (laneNumber bank index sub).toNat / 4 * 4 % 4 = 0 := by omega
  split
  case h_1 register hfound =>
    obtain ⟨-, hfound⟩ := Option.ite_none_right_eq_some.1 hfound
    exact .pure (shadowed w _ _ (shadow_of_shadow? hfound))
  case h_2 hnone =>
    have hnone (hbank : bank.isShadowed = true) := by
      rw [if_pos hbank] at hnone
      exact hnone
    apply Leads.ite
    · intro h
      rw [Bool.and_eq_true] at h
      apply (leads_makeShadow hB h.1 hgroup (hnone h.1)).bind
      intro register w1 _ hmem
      exact .pure (shadowed w1 _ _ hmem)
    · intro h
      have hlookup : (still B).Leads (lookup bank (laneNumber bank index sub).toNat) w
          fun found? w' => w'.registers = w.registers ∧ ∀ found, found? = some found →
            ∃ e ∈ (w'.registers.tables bank).entries,
              e.2.place.variableIndex = found.register.place.variableIndex :=
        (leads_lookup _).mono fun _ _ hrel hfound => ⟨hrel.2, hfound⟩
      apply Leads.bind (F := confined B) (hlookup.widen (fun _ h => h.1) fun _ _ h => h.1)
      rintro found? w1 - ⟨hsame, hfound⟩
      cases found? with
      | some found =>
        obtain ⟨e, hmem, hx⟩ := hfound found rfl
        refine .pure ⟨.bound hB hmem hx, fun hstore => .bound ⟨hB, ?_⟩ hmem hx⟩
        rw [hstore, Bool.and_true] at h
        exact Bool.eq_false_iff.2 h
      | none =>
        apply Leads.ite (fun hbank => ?_) fun _ => .raise
        subst hbank
        apply (leads_makeShadow hB rfl hgroup (hsame ▸ hnone rfl)).bind
        intro register w2 _ hmem
        exact .pure (shadowed w2 _ _ hmem)

theorem Workspace.Confined.setPredicate {slot : Nat} {x : Variable}
    (hnone : w.registers.predicates.get slot = none) (hx : x.storage = .hidden) :
    w.Confined B (({ w with listing := w.listing.add (.declare x) } : Workspace).setRegisters
      (w.registers.setPredicate slot ⟨w.listing.vars.size, []⟩)) := by
  constructor
  · refine ⟨[.declare x], by simp [setRegisters], fun e he => ?_⟩
    rw [mem_singleton.1 he]
    trivial
  · exact w.listing.extends_add (.declare x)
  · rfl
  · refine ⟨rfl, ⟨[], rfl, by simp⟩, fun _ _ hp => Quad.get_set_of_none hnone hp, ?_⟩
    intro slot' place hp
    rcases Quad.get_set_or w.registers.predicates slot slot' (some ⟨w.listing.vars.size, []⟩) with
      hset | hset
    · exact .inr (Nat.le_of_eq (congrArg Place.variableIndex (Option.some.inj (hset.symm.trans hp))))
    · exact .inl (hset.symm.trans hp)
  · intro hw
    have hdeclared : Kept { w with listing := w.listing.add (.declare x) } :=
      hw.add (fun _ h => nomatch h) fun _ _ h => nomatch h
    apply hdeclared.setPredicate hnone (hw.notUses_of_le (Nat.le_refl _))
    · exact (w.listing.valid_declare x).declared
    · exact (congrArg Variable.storage (w.listing.variableAt_declare x)).trans hx

theorem leads_predicatePlace (n : Int) :
    (confined B).Leads (predicatePlace n) w fun place w' =>
      w'.registers.Writes B place.variableIndex := by
  unfold predicatePlace
  refine .ite (fun _ => .raise) fun _ => .getRegisters ?_
  split
  case h_1 place hplace => exact .pure (.predicate hplace rfl)
  case h_2 hnone =>
    exact ⟨.setPredicate (x := ⟨"p" ++ toString n.toNat, Shape.bool, .hidden⟩) hnone rfl,
      .predicate (Quad.get_set_self _ _ _) rfl⟩

/-! ## Operands -/

/-- A bank of `B`, unless it holds no lanes. -/
def Bank.In (B : Bank → Prop) (bank : Bank) : Prop := bank.isRegister = true → B bank

/-- An operand whose register, if it has one, is in a bank of `B`. -/
class Operand.In (B : Bank → Prop) (op : Operand) : Prop where
  bank : op.bank.In B

theorem Operand.In.of_bank {op op' : Operand} (h : op.In B) (heq : op'.bank = op.bank) :
    op'.In B := ⟨heq ▸ h.bank⟩

namespace Access

theorem within_gatherFrom (num : Nat) (first : Int) (fuel got remaining : Nat) (hB : B bank) :
    Within (confined B) (gatherFrom bank num first fuel got remaining) := by
  induction fuel generalizing got remaining with
  | zero =>
    unfold gatherFrom
    infer_instance
  | succ fuel ih =>
    unfold gatherFrom
    have hfail (e : Error) : Within (confined B) (do
        if got = 0 || e = .overflow then throw e
        return [⟨← splatConstant (.f32 0#32) remaining, 0, remaining⟩] : Emit (List Segment)) :=
      inferInstance
    constructor
    intro w
    refine .ite (fun _ => .pure trivial) fun _ => .andThen fun sub w1 _ => ?_
    apply (leads_resolve num sub false hB).attempt.bind
    intro result w2 _ hresult
    cases result with
    | error e => exact (hfail e).leads w2
    | ok found =>
      apply (leads_load (hresult.1 found rfl).1).bind
      intro v w3 _ _
      exact Within.leads w3

theorem within_loadRegister (op : Operand) (mask : Mask) (sub : Int) (hB : B op.bank) :
    Within (confined B) (loadRegister ctx op mask sub) := by
  have hgather (first : Int) (count : Nat) :
      Within (confined B) (gather op.bank op.num first count) :=
    within_gatherFrom op.num first count 0 count hB
  unfold loadRegister
  dsimp only
  split
  · apply Within.bind_cases
    intro first
    apply Within.bind_cases
    intro segments
    infer_instance
  · infer_instance

instance within_condition (p : Predicate) : Within (confined B) (condition p) := by
  unfold condition
  split
  · constructor
    intro w
    apply (leads_predicatePlace _).bind
    intro place w1 _ hplace
    apply (leads_load hplace.uses).bind
    intro v w2 _ _
    exact Within.leads w2
  · infer_instance

instance within_load (ctx : Context) (op : Operand) (mask : Mask) (sub : Int) [h : op.In B] :
    Within (confined B) (Access.load ctx op mask sub) := by
  unfold Access.load
  dsimp only
  split
  · infer_instance
  · split
    · infer_instance
    · infer_instance
    · constructor
      intro w
      apply Leads.andThen
      intro n w1 _
      apply (leads_predicatePlace n).bind
      intro place w2 _ hplace
      exact leads_load hplace.uses
    · split
      case isTrue hregister =>
        have := within_loadRegister ctx op (mask % 16) sub (h.bank hregister)
        infer_instance
      case isFalse => infer_instance

/-! ## Stores -/

/-- Variables of the banks and predicate registers may be written, unless an attribute is bound to
them. -/
def rights (B : Bank → Prop) : (confined B).Rights where
  Writes w place := w.registers.Writes B place.variableIndex
  later h := h.registers.writes
  load h := leads_load h.uses
  store v h := leads_store h v

theorem serves (dest : Operand) (sub : Int) (hB : B dest.bank) (k : Nat) :
    (rights B).Serves dest sub k :=
  ⟨inferInstance, fun _ => (leads_resolve dest.num _ true hB).mono fun _ _ _ h => h.2 rfl⟩

instance within_store (ctx : Context) (dest : Operand) (v : Value) (mask : Mask) (sub : Int)
    (condition : Option Value) [h : dest.In B] :
    Within (confined B) (Access.store ctx dest v mask sub condition) :=
  within_store_of
    (fun hbank => Rights.within_storeRegister ctx v condition fun k _ =>
      serves dest sub (h.bank hbank) k)
    fun _ => Rights.within_storePredicate (A := rights B) inferInstance
      (fun n _ => leads_predicatePlace n) v condition

end Access
end
end Microcode
