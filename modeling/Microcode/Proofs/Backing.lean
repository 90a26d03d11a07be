import Microcode.Proofs.LaneTables
import Microcode.Proofs.Ranges

/-!
Which lanes of the register files have storage.

Storage is declared by groups of four lanes: a group of which nothing is bound gets a register of
its own, and a group of which any lane is bound is left as it is.  A lane that nothing is bound to
has no storage if another lane of its group is bound.  Only secondary attributes get storage when
they are first touched.
-/

namespace Microcode

open Machine Emit

/-! ## Register files -/

namespace RegisterFile

/-- Bindings only: no two of them overlap, none is empty, and vectors have up to four lanes. -/
structure Hosted (r : RegisterFile) : Prop where
  shadows : r.shadows = []
  narrow : r.Narrow
  disjoint : ∀ bank, Disjoint (r.tables bank)
  nonempty : ∀ bank, ∀ e ∈ (r.tables bank).entries, 0 < e.2.lanes

end RegisterFile

/-- The number of lanes that the register file of a bank has. -/
def Shader.lanesOf (s : Shader) : Bank → Nat
  | .temporary => s.temporaries
  | .output => s.outputs
  | .primaryAttribute => s.primaryAttributes
  | .secondaryAttribute => s.secondaryAttributes
  | .internal => 16
  | _ => 0

/-- The register files of a shader, with their lanes.  There are four internal registers. -/
def Shader.files (s : Shader) : List (Bank × Nat) :=
  [(.temporary, s.temporaries), (.output, s.outputs), (.primaryAttribute, s.primaryAttributes),
    (.secondaryAttribute, s.secondaryAttributes), (.internal, 16)]

theorem declareRegisterFiles_eq (s : Shader) :
    Assembly.declareRegisterFiles s = declareBanks s.files := by
  simp [Assembly.declareRegisterFiles, declareBanks, Shader.files]

theorem Shader.mem_groupsOf_files {s : Shader} {bank : Bank} {k : Nat} :
    (bank, k) ∈ groupsOf s.files ↔ 4 * k < s.lanesOf bank := by
  rw [mem_groupsOf]
  cases bank <;> simp [files, lanesOf]

open RegisterFile

theorem shadows_foldl_grouped (groups : List (Bank × Nat)) (x : Listing × RegisterFile) :
    (groups.foldl grouped x).2.shadows = x.2.shadows := by
  induction groups generalizing x with
  | nil => rfl
  | cons group rest ih =>
    rw [List.foldl_cons, ih, grouped]
    split <;> rfl

/-- Declared register files have storage for their free groups. -/
theorem RegisterFile.Hosted.exists_declared {w : Workspace} (h : w.registers.Hosted) (s : Shader) :
    ∃ w', Assembly.declareRegisterFiles s w = .ok () w' ∧ w'.registers.Hosted ∧
      ∀ bank, Fills bank (groupsOf s.files) w.registers w'.registers := by
  obtain ⟨w', hok, hview⟩ := exists_declareBanks s.files w
  have hregisters := congrArg Prod.snd hview
  have hfills (bank : Bank) : Fills bank (groupsOf s.files) w.registers w'.registers := by
    have := fills_foldl_grouped (groupsOf s.files) w.view ⟨h.disjoint bank, h.nonempty bank⟩
    rw [← hregisters] at this
    exact this
  rw [declareRegisterFiles_eq]
  refine ⟨w', hok, ⟨?_, ⟨fun bank e he place lanes heq => ?_⟩, fun bank => ?_, fun bank => ?_⟩, hfills⟩
  · have hsame := shadows_foldl_grouped (groupsOf s.files) w.view
    rw [← hregisters] at hsame
    exact hsame.trans h.shadows
  · rcases (hfills bank).added e he with he | ⟨k, -, -, place', rfl⟩
    · exact h.narrow.vectors bank e he place lanes heq
    · cases heq
      exact Nat.le_refl _
  · exact (hfills bank).laidOut.disjoint
  · exact (hfills bank).laidOut.nonempty

/-- A lane of the groups is bound if it was before, or its group was free. -/
theorem RegisterFile.Fills.isBound_iff {bank : Bank} {groups : List (Bank × Nat)}
    {r r' : RegisterFile} {lane : Nat} (h : Fills bank groups r r') (hr : Disjoint (r.tables bank))
    (hlane : (bank, lane / 4) ∈ groups) :
    r'.isBound bank lane = true ↔
      r.isBound bank lane = true ∨ r.IsFree bank (lane / 4 * 4) := by
  rw [RegisterFile.isBound_iff h.laidOut.disjoint, RegisterFile.isBound_iff hr]
  constructor
  · rintro ⟨e, he, hle, hlt⟩
    rcases h.added e he with he | ⟨k, -, hfree, place, rfl⟩
    · exact .inl ⟨e, he, hle, hlt⟩
    · simp only [Binding.lanes] at hle hlt
      have hgroup : lane / 4 * 4 = 4 * k := by omega
      exact .inr (hgroup ▸ hfree)
  · rintro (⟨e, he, hin⟩ | hfree)
    · exact ⟨e, h.kept e he, hin⟩
    · have hgroup : lane / 4 * 4 = 4 * (lane / 4) := Nat.mul_comm ..
      rw [hgroup] at hfree
      obtain ⟨place, hplace⟩ := h.filled (lane / 4) hlane hfree
      exact ⟨_, hplace, by simp only; omega, by simp only [Binding.lanes]; omega⟩

/-! ## Resolution -/

namespace RegisterFile.Hosted

variable {w : Workspace} {bank : Bank} {index lane : Nat} {sub : Int}

theorem resolve_eq (h : w.registers.Hosted) (hnumber : laneNumber bank index sub = lane)
    (hlane : lane < 0x100000000) :
    resolve bank index sub false w = (do
      match ← lookup bank lane with
      | some found => return found
      | none =>
        if bank = .secondaryAttribute then
          return ⟨← makeShadow bank (lane / 4 * 4), lane - lane / 4 * 4⟩
        throw (.unresolved bank index) : Emit Resolved) w := by
  have hshadow (group : Nat) : w.registers.shadow? bank group = none := by
    rw [shadow?, h.shadows]
    rfl
  have hin : (decide ((lane : Int) < 0) || decide (0x100000000 ≤ (lane : Int))) = false := by
    rw [Bool.or_eq_false_iff, decide_eq_false_iff_not, decide_eq_false_iff_not]
    omega
  rw [resolve, hnumber, if_neg (Bool.eq_false_iff.1 hin), Int.toNat_natCast]
  dsimp only
  rw [Emit.getRegisters_bind, hshadow, ite_self, Bool.and_false]
  rfl

theorem exists_resolve_of_mem (h : w.registers.Hosted) (hnumber : laneNumber bank index sub = lane)
    (hlane : lane < 0x100000000) (hends : w.registers.EndsAt bank lane) {base : Nat}
    {binding : Binding} (hmem : (base, binding) ∈ (w.registers.tables bank).entries)
    (hle : base ≤ lane) (hlt : lane < base + binding.lanes) :
    ∃ w', resolve bank index sub false w = .ok (binding.resolve base lane) w' := by
  obtain ⟨w', hok, -⟩ := exists_lookup hends
  rw [bound?, find?_of_mem (h.disjoint bank) hmem hle hlt] at hok
  rw [h.resolve_eq hnumber hlane, Emit.bind_apply, hok]
  exact ⟨w', rfl⟩

theorem bound?_of_isBound_eq_false {r : RegisterFile} (hbound : ¬ r.isBound bank lane = true) :
    r.bound? bank lane = none := by
  rw [isBound, Option.not_isSome_iff_eq_none] at hbound
  rw [bound?, hbound]
  rfl

theorem exists_resolve_of_unbound (h : w.registers.Hosted)
    (hnumber : laneNumber bank index sub = lane) (hlane : lane < 0x100000000)
    (hends : w.registers.EndsAt bank lane) (hbound : ¬ w.registers.isBound bank lane = true)
    (hbank : bank ≠ .secondaryAttribute) :
    ∃ w', resolve bank index sub false w = .error (.unresolved bank index) w' := by
  obtain ⟨w', hok, -⟩ := exists_lookup hends
  rw [bound?_of_isBound_eq_false hbound] at hok
  rw [h.resolve_eq hnumber hlane, Emit.bind_apply, hok]
  simp only [if_neg hbank]
  exact ⟨w', rfl⟩

/-- A secondary attribute that nothing is bound to gets storage. -/
theorem exists_resolve_secondary (h : w.registers.Hosted)
    (hnumber : laneNumber .secondaryAttribute index sub = lane) (hlane : lane < 0x100000000)
    (hends : w.registers.EndsAt .secondaryAttribute lane)
    (hseed : w.registers.Seedable .secondaryAttribute (lane / 4 * 4))
    (hbound : ¬ w.registers.isBound .secondaryAttribute lane = true) :
    ∃ found w', resolve .secondaryAttribute index sub false w = .ok found w' := by
  obtain ⟨w1, hok, hregisters⟩ := exists_lookup hends
  rw [bound?_of_isBound_eq_false hbound] at hok
  have := h.narrow
  have hover : w.registers.Over w1.registers := by
    refine ⟨by rw [hregisters], fun bank => ?_⟩
    rw [hregisters, shadow?, h.shadows]
    rfl
  have hshadow := (Steady.within_makeShadow (E := fun _ => False) hseed).leads w1
  rw [h.resolve_eq hnumber hlane, Emit.bind_apply, hok]
  simp only [if_pos trivial]
  unfold Footprint.Leads at hshadow
  cases hmake : makeShadow .secondaryAttribute (lane / 4 * 4) w1 with
  | error e w2 =>
    rw [hmake] at hshadow
    exact (hshadow hover).2.elim
  | ok register w2 =>
    refine ⟨⟨register, lane - lane / 4 * 4⟩, w2, ?_⟩
    simp only [Emit.bind_apply, hmake]
    rfl

end RegisterFile.Hosted

/-- No binding ends past the 32-bit lane numbers. -/
def RegisterFile.Ends (r : RegisterFile) : Prop :=
  ∀ bank, ∀ e ∈ (r.tables bank).entries, e.1 + e.2.lanes < 0x100000000

theorem RegisterFile.Fills.endsAt {r r' : RegisterFile} {bank : Bank}
    {groups : List (Bank × Nat)} {lane : Nat} (h : Fills bank groups r r') (hends : r.Ends)
    (hlane : lane / 4 * 4 < 0xFFFFFFFC) :
    r'.EndsAt bank lane := by
  intro base binding hc
  obtain ⟨hmem, hle⟩ := OrderedMap.floorList_mem hc
  rcases h.added _ hmem with hold | ⟨k, -, -, place, heq⟩
  · exact hends bank _ hold
  · obtain ⟨rfl, rfl⟩ := Prod.mk.inj heq
    simp only [Binding.lanes] at hle ⊢
    omega

/-- Lanes of a register file that have storage once the file is declared. -/
def RegisterFile.IsBacked (r : RegisterFile) (bank : Bank) (lane : Nat) : Prop :=
  bank = .secondaryAttribute ∨ r.isBound bank lane = true ∨ r.IsFree bank (lane / 4 * 4)

instance (r : RegisterFile) (bank : Bank) (lane : Nat) : Decidable (r.IsBacked bank lane) :=
  inferInstanceAs (Decidable (_ ∨ _))

/-- Once register files are declared, every lane of them that something is bound to resolves to that
binding, and one that nothing is bound to resolves if its group of four lanes was free, or if it is
a secondary attribute.  All other lanes stay without storage. -/
theorem declared_lane_resolves (s : Shader) (w₀ : Workspace) (hosted : w₀.registers.Hosted)
    (ends : w₀.registers.Ends) :
    ∃ w, Assembly.declareRegisterFiles s w₀ = .ok () w ∧
      ∀ (bank : Bank) (lane index : Nat) (sub : Int), lane < s.lanesOf bank → lane < 0xFFFFFFFC →
        laneNumber bank index sub = lane →
        (∀ base binding, (base, binding) ∈ (w₀.registers.tables bank).entries → base ≤ lane →
          lane < base + binding.lanes →
          ∃ w', resolve bank index sub false w = .ok (binding.resolve base lane) w') ∧
        (w₀.registers.IsBacked bank lane →
          ∃ found w', resolve bank index sub false w = .ok found w') ∧
        (¬ w₀.registers.IsBacked bank lane →
          ∃ w', resolve bank index sub false w = .error (.unresolved bank index) w') := by
  obtain ⟨w, hok, hosted', hfills⟩ := hosted.exists_declared s
  refine ⟨w, hok, fun bank lane index sub hlane hlow hnumber => ?_⟩
  have fills := hfills bank
  have hends := fills.endsAt ends (show lane / 4 * 4 < 0xFFFFFFFC by omega)
  have hbound := fills.isBound_iff (hosted.disjoint bank)
    (Shader.mem_groupsOf_files.2 (show 4 * (lane / 4) < s.lanesOf bank by omega))
  have found {base : Nat} {binding : Binding} :=
    @RegisterFile.Hosted.exists_resolve_of_mem w bank index lane sub hosted' hnumber (by omega)
      hends base binding
  refine ⟨fun base binding hmem => found (fills.kept _ hmem), fun hbacked => ?_, fun hbacked => ?_⟩
  · by_cases hin : w.registers.isBound bank lane = true
    · obtain ⟨⟨base, binding⟩, hmem, hle, hlt⟩ :=
        (RegisterFile.isBound_iff (hosted'.disjoint bank)).1 hin
      obtain ⟨w', hw'⟩ := found hmem hle hlt
      exact ⟨_, w', hw'⟩
    · obtain rfl := hbacked.resolve_right fun h => hin (hbound.2 h)
      refine hosted'.exists_resolve_secondary hnumber (by omega) hends ⟨by omega, fun i hi => ?_⟩ hin
      exact fills.endsAt ends (by omega)
  · rw [RegisterFile.IsBacked, not_or] at hbacked
    exact hosted'.exists_resolve_of_unbound hnumber (by omega) hends
      (fun h => hbacked.2 (hbound.1 h)) hbacked.1

/-- Eight primary attributes and no other registers of its own. -/
def eightAttributes : Shader :=
  { temporaries := 0, outputs := 0, primaryAttributes := 8, secondaryAttributes := 0 }

theorem mem_twoAttributes {bank : Bank} {e : Nat × Binding}
    (he : e ∈ (twoAttributes.registers.tables bank).entries) :
    e = (0, .vector ⟨0, []⟩ 2) ∨ e = (2, .vector ⟨1, []⟩ 1) := by
  by_cases h : bank = .primaryAttribute
  · simpa [twoAttributes, h] using he
  · simp [twoAttributes, h] at he

theorem hosted_twoAttributes : twoAttributes.registers.Hosted where
  shadows := rfl
  narrow := ⟨fun bank e he place lanes heq => by
    rcases mem_twoAttributes he with rfl | rfl <;> cases heq <;> decide⟩
  disjoint := fresh_twoAttributes.disjoint
  nonempty bank e he := by
    rcases mem_twoAttributes he with rfl | rfl <;> decide

/-- Of the second group, lane 3 has no storage; lanes 2 and 4 have. -/
theorem declared_lane_resolves_of_two : ∃ w,
    Assembly.declareRegisterFiles eightAttributes twoAttributes = .ok () w ∧
      (∃ w', resolve .primaryAttribute 2 0 false w = .ok ⟨⟨⟨1, []⟩, 1, 2⟩, 0⟩ w') ∧
      (∃ w', resolve .primaryAttribute 3 0 false w = .error (.unresolved .primaryAttribute 3) w') ∧
      ∃ found w', resolve .primaryAttribute 4 0 false w = .ok found w' := by
  have ends : twoAttributes.registers.Ends := by
    intro bank e he
    rcases mem_twoAttributes he with rfl | rfl <;> decide
  obtain ⟨w, hok, hlanes⟩ := declared_lane_resolves eightAttributes twoAttributes hosted_twoAttributes ends
  refine ⟨w, hok, ?_, ?_, ?_⟩
  · exact (hlanes .primaryAttribute 2 2 0 (by decide) (by decide) rfl).1 2 (.vector ⟨1, []⟩ 1)
      (by simp [twoAttributes]) (by decide) (by decide)
  · exact (hlanes .primaryAttribute 3 3 0 (by decide) (by decide) rfl).2.2 (by decide)
  · exact (hlanes .primaryAttribute 4 4 0 (by decide) (by decide) rfl).2.1 (by decide)

end Microcode
