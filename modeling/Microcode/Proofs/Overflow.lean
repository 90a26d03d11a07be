import Microcode.Proofs.DescribedLanes

/-!
When register arithmetic overflows.

Words do not make it overflow, whatever they are.  The description of a shader does, exactly if a
lane that it fills lies in the last group of its bank or the location after one of its inputs has
more than 32 bits.
-/

namespace Microcode

open Emit Footprint Access List

variable {inputs : List Input} {n : Nat}

/-! ## Overflows -/

/-- The computation ends with an overflow. -/
def Overflows {α : Type} (x : Emit α) (w : Workspace) : Prop := ∃ w', x w = .error .overflow w'

/-- Code that stays over `r` and does not fail. -/
abbrev Footprint.sure (r : RegisterFile) : Footprint := steady (fun _ => False) r

section

variable {α β : Type} {x : Emit α} {f : α → Emit β} {Q : α → Workspace → Prop} {w : Workspace}
  {r : RegisterFile}

theorem Overflows.bind (h : Overflows x w) (f : α → Emit β) : Overflows (x >>= f) w := by
  obtain ⟨w', hx⟩ := h
  exact ⟨w', by rw [Emit.bind_apply, hx]⟩

theorem Overflows.getRegisters {f : RegisterFile → Emit β} (h : Overflows (f w.registers) w) :
    Overflows (Emit.getRegisters >>= f) w := h

theorem Footprint.Leads.overflows {F : Footprint} (h : F.Leads x w Q)
    (hfails : ∀ e w', ¬ F.Fails w e w')
    (hf : ∀ a w', F.Rel w w' → Q a w' → Overflows (f a) w') : Overflows (x >>= f) w := by
  cases hx : x w with
  | ok a w' =>
    have h' := Ends.of_ok h hx
    obtain ⟨w'', hover⟩ := hf a w' h'.1 h'.2
    exact ⟨w'', by rw [Emit.bind_apply, hx]; exact hover⟩
  | error e w' => exact absurd (Ends.of_error h hx) (hfails e w')

theorem Footprint.Leads.overflows_over (h : (sure r).Leads x w Q) (hover : r.Over w.registers)
    (hf : ∀ a w', r.Over w'.registers → Q a w' → Overflows (f a) w') : Overflows (x >>= f) w :=
  h.overflows (fun _ _ hfails => (hfails hover).2) fun a w' hrel => hf a w' (hrel hover)

/-- The first element that overflows ends a loop; if there is none, what follows the loop is
reached. -/
theorem overflows_forM {γ : Type} {xs : List γ} {f : γ → Emit Unit} {P : γ → Prop}
    {g : Unit → Emit β}
    (hsafe : ∀ x ∈ xs, P x → Within (sure r) (f x))
    (hlast : ∀ x ∈ xs, ¬ P x → ∀ w, r.Over w.registers → Overflows (f x) w)
    (hover : r.Over w.registers)
    (hg : (∀ x ∈ xs, P x) → ∀ w, r.Over w.registers → Overflows (g ()) w) :
    Overflows (xs.forM f >>= g) w := by
  induction xs generalizing w with
  | nil => exact hg (fun _ hx => nomatch hx) w hover
  | cons y rest ih =>
    rw [List.forM, bind_assoc]
    by_cases hy : P y
    · have := hsafe y mem_cons_self hy
      refine (Within.leads w).overflows_over hover fun _ w1 hover1 _ => ?_
      refine ih (fun x hx => hsafe x (.tail _ hx))
        (fun x hx => hlast x (.tail _ hx)) hover1 fun hrest => hg ?_
      exact forall_mem_cons.2 ⟨hy, hrest⟩
    · exact (hlast y mem_cons_self hy w hover).bind _

theorem overflows_word (h : 2 ^ 32 ≤ n) : Overflows (word n) w :=
  ⟨w, by rw [word, if_neg (by omega)]; rfl⟩

end

/-! ## The last group -/

namespace Steady

variable {r : RegisterFile} {w : Workspace} {bank : Bank} (hbank : bank.isShadowed = true)

theorem overflows_makeShadow {group : Nat} (h : 2 ^ 32 ≤ group + 4) (hover : r.Over w.registers) :
    Overflows (makeShadow bank group) w := by
  unfold makeShadow
  refine (Within.leads w).overflows_over hover fun place w1 _ _ => ?_
  exact (overflows_word h).bind _

include hbank in
/-- A store to the last group makes its shadow, and the group has no end. -/
theorem overflows_resolve {num lane : Nat} {sub : Int} (hnumber : laneNumber bank num sub = lane)
    (hlt : lane < 2 ^ 32) (hlast : 2 ^ 32 ≤ lane + 4) (hover : r.Over w.registers) :
    Overflows (resolve bank num sub true) w := by
  have hgroup : lane / 4 * 4 = 0xFFFFFFFC := by omega
  have hshadow : w.registers.shadow? bank (lane / 4 * 4) = none := hgroup ▸ hover.last bank
  unfold resolve
  rw [hnumber, if_neg (by simp only [Bool.or_eq_true, decide_eq_true_eq]; omega)]
  refine Overflows.getRegisters ?_
  rw [Int.toNat_natCast, hbank, if_pos rfl, hshadow]
  exact (overflows_makeShadow (by omega) hover).bind _

section

variable [r.Narrow] {register : Nat} {element : Element}
  (hclear : ∀ lane, lane + 4 < 2 ^ 32 → r.Clear bank lane)

/-- A mask that fills `n` lanes from the first on and leaves no element of them as it was. -/
def Fills (ratio : Nat) (mask : Mask) (n : Nat) : Prop :=
  ∀ parts : List (Nat × Value), parts.map Prod.fst = Mask.components mask →
    lanesOf ratio parts = List.range n ∧ ∀ lane < n, isWhole ratio lane parts = true

theorem fills_of_components {ratio : Nat} {mask : Mask}
    (htouched : (if ratio = 1 then Mask.components mask
      else (List.range (4 / ratio)).filter fun lane =>
        (List.range' (lane * ratio) ratio).any (· ∈ Mask.components mask)) = List.range n)
    (hwhole : ∀ lane < n,
      (List.range' (lane * ratio) ratio).all (· ∈ Mask.components mask) = true) :
    Fills ratio mask n := by
  intro parts hkeys
  have hsome : (fun c => (parts.lookup c).isSome) = fun c => decide (c ∈ Mask.components mask) := by
    funext c
    rw [← hkeys, Bool.eq_iff_iff, decide_eq_true_iff]
    exact isSome_lookup
  refine ⟨?_, fun lane hlane => ?_⟩
  · rw [lanesOf, hkeys, ← htouched]
    simp only [isTouched, hsome]
  · rw [isWhole, hsome]
    exact hwhole lane hlane

theorem fills_one {element : Element} (h : element.ratio = 1) : Fills element.ratio 0b0001 1 := by
  rw [h]
  exact fills_of_components (by decide) (by decide)

theorem fills_four (element : Element) : Fills element.ratio 0b1111 (4 / element.ratio) := by
  rcases element.ratio_cases with hratio | hratio | hratio <;> rw [hratio] <;>
    exact fills_of_components (by decide) (by decide)

include hbank hclear

theorem overflows_groupLanes (hpos : 0 < n) (hn : n ≤ 4) (hlt : register < 2 ^ 32)
    (hlast : 2 ^ 32 < register + n + 4) {writes : List (Nat × Value)}
    (hwrites : writes.map Prod.fst = List.range n) (hover : r.Over w.registers) :
    Overflows (groupLanes bank register 0 writes) w := by
  obtain ⟨k, hk⟩ : ∃ k, k = 2 ^ 32 - 4 - register := ⟨_, rfl⟩
  have hlength : writes.length = n := by rw [← length_map Prod.fst, hwrites, length_range]
  have hkth : k < writes.length := by omega
  obtain ⟨v, hv⟩ : ∃ v, writes[k] = (k, v) := by
    have hget : (writes.map Prod.fst)[k]? = (List.range n)[k]? := by rw [hwrites]
    rw [getElem?_map, getElem?_eq_getElem hkth, getElem?_range (by omega)] at hget
    exact ⟨writes[k].2, Prod.ext (Option.some.inj hget) rfl⟩
  have hbefore : ∀ p ∈ writes.take k,
      (rights (fun _ => False) r).Serves (.ofRegister bank register .f32) 0 p.1 := by
    intro p hp
    have hmem : p.1 ∈ (List.range n).take k := by
      rw [← hwrites, ← map_take]
      exact mem_map_of_mem hp
    rw [take_range, mem_range] at hmem
    exact (Described.writable_of_clear hbank .f32 (by omega) (by omega) (hclear _ (by omega))).serves
  -- A literal offset would be compared with its bounds by unfolding.
  obtain ⟨sub, hsub⟩ : ∃ sub : Int, sub = 0 + k := ⟨_, rfl⟩
  have hoffset : Within (sure r) (offset sub) := within_offset_of_lt (by omega) (by omega)
  unfold groupLanes
  rw [← take_append_drop k writes, foldlM_append, drop_eq_getElem_cons hkth,
    hv]
  refine (Rights.leads_groupLanes hbefore).overflows_over hover fun groups w1 hover1 _ => ?_
  rw [foldlM_cons]
  refine Overflows.bind ?_ _
  dsimp only
  rw [← hsub]
  refine (leads_offset hoffset w1).overflows_over hover1 fun _ w2 hover2 h2 => ?_
  rw [h2.1]
  refine Overflows.bind ?_ _
  have hnumber : laneNumber bank register sub = (register + k : Nat) := by
    rw [laneNumber_of_isShadowed hbank]
    omega
  exact overflows_resolve hbank hnumber (by omega) (by omega) hover2

/-- Four lanes that reach into the last group are no register. -/
theorem overflows_wholeRegister (hn : n ≤ 4) (hlt : register < 2 ^ 32)
    (hlast : 2 ^ 32 < register + n + 4) (shape : Shape) (mask : Mask) (hover : r.Over w.registers)
    {β : Type} {f : Option Register → Emit β}
    (hf : ∀ w', r.Over w'.registers → Overflows (f none) w') :
    Overflows (wholeRegister? (.ofRegister bank register element) shape mask 0 >>= f) w := by
  have hnumber : laneNumber bank register 0 = register := by
    rw [laneNumber_of_isShadowed hbank]
    omega
  unfold wholeRegister?
  split
  case isFalse => exact hf w hover
  case isTrue =>
    rw [bind_assoc]
    rcases Nat.lt_or_ge (register + 4) (2 ^ 32) with hregister | hregister
    · have hresolve : (sure r).Leads (resolve bank register 0 true) w fun found _ =>
          found.offset = register % 4 := by
        refine (leads_resolve (fun lane hlane _ => hclear lane (by omega)) (.inl ?_) hover).mono ?_
        · exact ⟨by omega, by omega, hbank, rfl⟩
        · intro found _ _ hfound
          rw [hfound.2 hbank rfl, hnumber, Int.toNat_natCast]
      refine hresolve.overflows_over hover fun found w1 hover1 hoffset => ?_
      rw [if_neg]
      · exact hf w1 hover1
      · simp only [Bool.and_eq_true, decide_eq_true_eq]
        omega
    · exact (overflows_resolve hbank hnumber hlt hregister hover).bind _

theorem overflows_store (ctx : Context) {mask : Mask} (hfills : Fills element.ratio mask n)
    (hmask : mask % 16 = mask ∧ mask ≠ 0) (hpos : 0 < n) (hn : n ≤ 4) (hlt : register < 2 ^ 32)
    (hlast : 2 ^ 32 < register + n + 4) (v : Value) (hover : r.Over w.registers) :
    Overflows (Access.store ctx (.ofRegister bank register element) v mask 0 none) w := by
  have hregister : bank.isRegister = true := by
    cases bank <;> first | rfl | cases hbank
  have hstorage : (Operand.ofRegister bank register element).storage = element := by
    refine if_neg ?_
    rintro rfl
    cases hbank
  rw [store_of_isRegister ctx hregister, hmask.1, if_neg hmask.2]
  unfold storeRegister
  refine (Within.leads w).overflows_over hover fun shape w1 hover1 _ => ?_
  refine overflows_wholeRegister hbank hclear hn hlt hlast shape mask hover1 fun w2 hover2 => ?_
  refine (leads_channels v _ mask).overflows_over hover2 fun parts w3 hover3 hkeys => ?_
  obtain ⟨hlanes, hwhole⟩ := hfills parts hkeys
  have hwrites : (sure r).Leads (laneWrites ctx (.ofRegister bank register element) 0 parts) w3
      fun writes _ => writes.map Prod.fst = List.range n := by
    refine (Rights.leads_laneWrites (A := rights _ r) ctx fun lane hlane hpart => ?_).mono fun writes _ _ hkept => ?_
    · rw [hstorage, hlanes] at hlane
      rw [hstorage, hwhole lane (mem_range.1 hlane)] at hpart
      cases hpart
    · rw [hkept, hstorage, hlanes]
  refine hwrites.overflows_over hover3 fun writes w4 hover4 hkept => ?_
  exact (overflows_groupLanes hbank hclear hpos hn hlt hlast hkept hover4).bind _

end
end Steady

/-! ## Descriptions out of range -/

theorem Shader.Accepted.stores {s : Shader} (accepted : s.Accepted) {register : Nat}
    (h : register + 4 < 2 ^ 32) : s.Stores register :=
  ⟨h, fun b hb _ => accepted.buffers b hb⟩

namespace Described

open Assembly

variable {w : Workspace} {r : RegisterFile} {ctx : Context}

theorem overflows_storeLane [r.Narrow] (ctx : Context) {bank : Bank}
    (hbank : bank.isShadowed = true)
    (hclear : ∀ lane, lane + 4 < 2 ^ 32 → r.Clear bank lane) {element : Element}
    (helement : element.ratio = 1) {register : Nat} (hlt : register < 2 ^ 32)
    (hlast : ¬ register + 4 < 2 ^ 32) (v : Value) (hover : r.Over w.registers) :
    Overflows (Access.store ctx (.ofRegister bank register element) v 0b0001 0 none) w :=
  Steady.overflows_store hbank hclear ctx (Steady.fills_one helement) (by decide) (by decide)
    (by decide) hlt (by omega) v hover

section

variable (hr : ctx.shader.Declares r)
include hr

theorem clear_primary (lane : Nat) (hlane : lane + 4 < 2 ^ 32) : r.Clear .primaryAttribute lane :=
  hr.clear hlane fun h => nomatch h

theorem overflows_copyBuiltin {copy : BuiltinCopy} (hlt : copy.register < 2 ^ 32)
    (hlast : ¬ copy.register + 4 < 2 ^ 32) (hover : r.Over w.registers) :
    Overflows (copyBuiltin ctx copy) w := by
  have := hr.narrow
  unfold copyBuiltin
  refine (Within.leads w).overflows_over hover fun v w1 hover1 _ => ?_
  exact overflows_storeLane ctx rfl (clear_primary hr) rfl hlt hlast v hover1

variable (accepted : ctx.shader.Accepted)
include accepted

theorem clear_secondary (lane : Nat) (hlane : lane + 4 < 2 ^ 32) :
    r.Clear .secondaryAttribute lane :=
  hr.clear hlane fun _ b hb _ => accepted.buffers b hb

theorem overflows_copyLiteral {l : Literal} (hl : l ∈ ctx.shader.literals)
    (hlt : l.register < 2 ^ 32) (hlast : ¬ l.register + 4 < 2 ^ 32) (hover : r.Over w.registers) :
    Overflows (copyLiteral ctx l) w := by
  have := hr.narrow
  have hfound : ∃ bits, ctx.shader.literal l.offset = .ok bits := by
    unfold Shader.literal
    dsimp only
    rw [if_pos (accepted.literals l hl)]
    exact ⟨_, rfl⟩
  obtain ⟨bits, hbits⟩ := hfound
  unfold copyLiteral
  rw [hbits]
  refine (Within.leads w).overflows_over hover fun v w1 hover1 _ => ?_
  exact overflows_storeLane ctx rfl (clear_secondary hr accepted) rfl hlt hlast v hover1

theorem overflows_copyBaseAddress {b : UniformBuffer} {register : Nat}
    (hbase : b.baseRegister? = some register) (hlt : register < 2 ^ 32)
    (hlast : ¬ register + 4 < 2 ^ 32) (hover : r.Over w.registers) :
    Overflows (copyBaseAddress ctx b) w := by
  have := hr.narrow
  unfold copyBaseAddress
  rw [hbase]
  refine (Within.leads w).overflows_over hover fun v w1 hover1 _ => ?_
  exact overflows_storeLane ctx rfl (clear_secondary hr accepted) rfl hlt hlast v hover1

theorem overflows_fillRegisters (plain : ctx.shader.Plain) {copies : List BuiltinCopy}
    (hcopies : ∀ copy ∈ copies, copy.register < 2 ^ 32)
    (h : ¬ ((∀ copy ∈ copies, copy.register + 4 < 2 ^ 32) ∧
      (∀ l ∈ ctx.shader.literals, l.register + 4 < 2 ^ 32) ∧
      ∀ b ∈ ctx.shader.uniformBuffers, ∀ register, b.baseRegister? = some register →
        register + 4 < 2 ^ 32))
    (hover : r.Over w.registers) : Overflows (fillRegisters ctx copies) w := by
  have hE : Tolerates (fun _ => False) ctx.shader := .inr accepted
  unfold fillRegisters
  refine overflows_forM (fun copy _ hcopy => within_copyBuiltin hr ctx hcopy)
    (fun copy hmem hcopy _ => overflows_copyBuiltin hr (hcopies copy hmem) hcopy) hover
    fun hbuiltins w1 hover1 => ?_
  refine overflows_forM (P := fun l => l.register + 4 < 2 ^ 32)
    (fun l hl hlane => within_copyLiteral hE hr hl (accepted.stores hlane))
    (fun l hl hlane _ => overflows_copyLiteral hr accepted hl (plain.literals l hl) hlane) hover1
    fun hliterals w2 hover2 => ?_
  rw [← bind_pure (ctx.shader.uniformBuffers.forM _)]
  refine overflows_forM (fun b hb hlanes => within_copyBaseAddress hr ctx fun register hbase =>
      accepted.stores (hlanes register hbase)) (fun b hb hlanes w3 hover3 => ?_) hover2
    fun hbases => absurd ⟨hbuiltins, hliterals, hbases⟩ h
  cases hbase : b.baseRegister? with
  | none => exact absurd (fun register h => nomatch hbase.symm.trans h) hlanes
  | some register =>
    refine overflows_copyBaseAddress hr accepted hbase ((plain.buffers b hb).2.2 register hbase) ?_
      hover3
    intro hlane
    refine hlanes fun other hother => ?_
    rwa [Option.some.inj (hbase.symm.trans hother)] at hlane

end

theorem overflows_seedColor (hr : ctx.shader.Declares r) (plain : ctx.shader.Plain)
    (hnative : ctx.shader.fragment.native = false)
    (h : ¬ ctx.shader.fragment.start + 4 / ctx.shader.fragment.element.ratio + 4 ≤ 2 ^ 32)
    (place : Place) (hover : r.Over w.registers) : Overflows (seedColor ctx place) w := by
  have := hr.narrow
  have hwidth : 0 < 4 / ctx.shader.fragment.element.ratio ∧
      4 / ctx.shader.fragment.element.ratio ≤ 4 := by
    rcases ctx.shader.fragment.element.ratio_cases with hratio | hratio | hratio <;> rw [hratio] <;>
      decide
  have hstore (v : Value) {w : Workspace} (hover : r.Over w.registers) :
      Overflows (Access.store ctx (colorRegister ctx.shader.fragment) v 0b1111 0 none) w := by
    rw [colorRegister, hnative]
    exact Steady.overflows_store rfl (clear_primary hr) ctx (Steady.fills_four _) (by decide)
      hwidth.1 hwidth.2 plain.color (by omega) v hover
  unfold seedColor
  refine (Within.leads w).overflows_over hover fun color w1 hover1 _ => ?_
  dsimp only
  split
  · exact hstore color hover1
  · refine (Within.leads w1).overflows_over hover1 fun color w2 hover2 _ => ?_
    exact hstore color hover2

theorem overflows_programs (hr : ctx.shader.Declares r) (plain : ctx.shader.Plain)
    (hsecondary : ctx.shader.secondary = []) (hnative : ctx.shader.fragment.native = false)
    (h : ¬ ctx.shader.fragment.start + 4 / ctx.shader.fragment.element.ratio + 4 ≤ 2 ^ 32)
    (init : Function) (place : Place) (hover : r.Over w.registers) :
    Overflows (programs ctx init (some place)) w := by
  unfold programs
  rw [secondaryFunction, hsecondary, isEmpty_nil, if_pos rfl, pure_bind]
  refine (Within.leads w).overflows_over hover fun _ w1 hover1 _ => ?_
  refine (Within.leads w1).overflows_over hover1 fun _ w2 hover2 _ => ?_
  exact (overflows_seedColor hr plain hnative h place hover2).bind _

theorem overflows_nextLocation (h : ¬ ∀ i ∈ inputs, i.location + 1 < 2 ^ 32) :
    Overflows (nextLocation inputs) w := by
  unfold nextLocation
  refine Overflows.bind ?_ _
  induction inputs with
  | nil => exact absurd (fun _ hi => nomatch hi) h
  | cons i rest ih =>
    rw [mapM_cons]
    by_cases hi : i.location + 1 < 2 ^ 32
    · have hword : word (i.location + 1) = pure (i.location + 1) := if_pos hi
      rw [hword, pure_bind]
      refine Overflows.bind (ih fun hrest => h ?_) _
      exact forall_mem_cons.2 ⟨hi, hrest⟩
    · exact (overflows_word (by omega)).bind _

theorem overflows_declarations (accepted : ctx.shader.Accepted) (hshown : showsColor ctx = true)
    (h : ¬ ∀ i ∈ ctx.shader.inputs, i.location + 1 < 2 ^ 32)
    (hw : ctx.shader.Declares w.registers) : Overflows (declarations ctx) w := by
  have hE : Tolerates (fun _ => False) ctx.shader := .inr accepted
  unfold declarations
  refine (leads_bindInputs hE hw).overflows (fun _ _ h => h) fun copies w1 _ h1 => ?_
  refine (leads_bindUniformBuffers h1.2).overflows (fun _ _ h => h) fun _ w2 _ h2 => ?_
  refine Overflows.bind ?_ _
  unfold declareLastColor
  change Overflows (if showsColor ctx = true then _ else _) w2
  rw [if_pos hshown]
  exact (overflows_nextLocation h).bind _

theorem exists_of_mem_copies {copies : List (Option BuiltinCopy)}
    (h : copies.map (Option.map BuiltinCopy.register) = inputs.map builtinRegister?)
    {copy : BuiltinCopy} (hcopy : copy ∈ copies.filterMap id) :
    ∃ i ∈ inputs, i.meaning ≠ .generic ∧ i.register = copy.register := by
  have hmem : some copy.register ∈ inputs.map builtinRegister? := by
    rw [← h]
    obtain ⟨_, hsome, rfl⟩ := mem_filterMap.1 hcopy
    exact mem_map.2 ⟨_, hsome, rfl⟩
  obtain ⟨i, hi, hregister⟩ := mem_map.1 hmem
  unfold builtinRegister? at hregister
  split at hregister
  case isTrue => cases hregister
  case isFalse hmeaning => exact ⟨i, hi, hmeaning, Option.some.inj hregister⟩

theorem exists_copy {copies : List (Option BuiltinCopy)}
    (h : copies.map (Option.map BuiltinCopy.register) = inputs.map builtinRegister?) {i : Input}
    (hi : i ∈ inputs) (hmeaning : i.meaning ≠ .generic) :
    ∃ copy ∈ copies.filterMap id, copy.register = i.register := by
  have hmem : some i.register ∈ copies.map (Option.map BuiltinCopy.register) := by
    rw [h]
    exact mem_map.2 ⟨i, hi, if_neg hmeaning⟩
  obtain ⟨copy?, hcopy, hsome⟩ := mem_map.1 hmem
  obtain ⟨copy, rfl, hregister⟩ := Option.map_eq_some_iff.1 hsome
  exact ⟨copy, mem_filterMap.2 ⟨_, hcopy, rfl⟩, hregister⟩

theorem declares_empty (s : Shader) (target : Target) :
    s.Declares ({ listing := { target := target } } : Workspace).registers :=
  ⟨fun _ _ he => (nomatch he), rfl⟩

theorem leads_emitShader (plain : ctx.shader.Plain) (range : ctx.shader.InRange)
    (hw : ctx.shader.Declares w.registers) :
    (free (· ≠ .overflow)).Leads (emitShader ctx) w fun _ _ => True := by
  have hlocations : showsColor ctx = true → ∀ i ∈ ctx.shader.inputs, i.location + 1 < 2 ^ 32 := by
    intro hshown
    simp only [showsColor, Bool.and_eq_true, decide_eq_true_eq] at hshown
    exact range.locations hshown.1
  rw [emitShader_eq]
  apply (leads_declarations (.inl inferInstance) plain hlocations hw).bind
  rintro ⟨copies, lastColor⟩ w1 - ⟨hcopies, hshown, h1⟩
  have hfilled (copy : BuiltinCopy) (hcopy : copy ∈ copies.filterMap id) :
      copy.register + 4 < 2 ^ 32 := by
    obtain ⟨i, hi, hmeaning, hregister⟩ := exists_of_mem_copies hcopies hcopy
    exact hregister ▸ range.builtins i hi hmeaning
  have := within_initFunction (E := (· ≠ .overflow)) (.inl inferInstance) h1 hfilled range.literals
    range.bases
  have (init : Function) := within_programs (E := (· ≠ .overflow)) h1 plain range init hshown
  have hrest : (steady (· ≠ .overflow) w1.registers).Leads (do
      let init ← initFunction ctx (copies.filterMap id)
      programs ctx init lastColor) w1 fun _ _ => True := Within.leads w1
  exact hrest.widen (fun _ _ => trivial) fun _ _ hfails => (hfails h1.over).2

/-- A description that is not in range overflows as soon as the colour is read. -/
theorem overflows_emitShader (plain : ctx.shader.Plain) (accepted : ctx.shader.Accepted)
    (hsecondary : ctx.shader.secondary = []) (hcolor : ctx.features.directColor = true)
    (range : ¬ ctx.shader.InRange) (hw : ctx.shader.Declares w.registers) :
    Overflows (emitShader ctx) w := by
  have hE : Tolerates (fun _ => False) ctx.shader := .inr accepted
  have hshown (h : ctx.shader.stage = .fragment) : showsColor ctx = true := by
    rw [showsColor, h, hcolor]
    rfl
  rw [emitShader_eq]
  by_cases hlocations : showsColor ctx = true → ∀ i ∈ ctx.shader.inputs, i.location + 1 < 2 ^ 32
  case neg =>
    rw [Classical.not_imp] at hlocations
    exact (overflows_declarations accepted hlocations.1 hlocations.2 hw).bind _
  refine (leads_declarations hE plain hlocations hw).overflows (fun _ _ h => h) ?_
  rintro ⟨copies, lastColor⟩ w1 - ⟨hcopies, hlast, h1⟩
  by_cases hfilled : (∀ copy ∈ copies.filterMap id, copy.register + 4 < 2 ^ 32) ∧
      (∀ l ∈ ctx.shader.literals, l.register + 4 < 2 ^ 32) ∧
      ∀ b ∈ ctx.shader.uniformBuffers, ∀ register, b.baseRegister? = some register →
        register + 4 < 2 ^ 32
  case neg =>
    have hfits (copy : BuiltinCopy) (hcopy : copy ∈ copies.filterMap id) :
        copy.register < 2 ^ 32 := by
      obtain ⟨i, hi, -, hregister⟩ := exists_of_mem_copies hcopies hcopy
      exact hregister ▸ (plain.inputs i hi).2
    refine Overflows.bind ?_ _
    unfold initFunction
    refine (Within.leads w1).overflows_over h1.over fun init w2 hover2 _ => ?_
    exact (overflows_fillRegisters h1 accepted plain hfits hfilled hover2).bind _
  obtain ⟨hbuiltins, hliterals, hbases⟩ := hfilled
  have hinit := within_initFunction hE h1 hbuiltins (fun l hl => accepted.stores (hliterals l hl))
    fun b hb register hbase => accepted.stores (hbases b hb register hbase)
  refine (hinit.leads w1).overflows_over h1.over fun init w2 hover2 _ => ?_
  -- Only the colour is left to be out of range.
  have hroom : ¬ (ctx.shader.stage = .fragment → ctx.shader.fragment.native = false →
      ctx.shader.fragment.start + 4 / ctx.shader.fragment.element.ratio + 4 ≤ 2 ^ 32) := by
    intro hroom
    refine range ⟨fun hstage => hlocations (hshown hstage), fun i hi hmeaning => ?_,
      fun l hl => accepted.stores (hliterals l hl),
      fun b hb register hbase => accepted.stores (hbases b hb register hbase), hroom⟩
    obtain ⟨copy, hcopy, hregister⟩ := exists_copy hcopies hi hmeaning
    exact hregister ▸ hbuiltins copy hcopy
  simp only [Classical.not_imp] at hroom
  obtain ⟨hstage, hnative, hroom⟩ := hroom
  obtain ⟨place, rfl⟩ := Option.isSome_iff_exists.1 (hlast.trans (hshown hstage))
  exact overflows_programs h1 plain hsecondary hnative hroom init place hover2

end Described

/-! ## Shaders -/

/-- The shader without its secondary program, on a host that shows the colour it is drawn over. -/
def Context.drawnOver (ctx : Context) : Context :=
  { ctx with
    shader := { ctx.shader with secondary := [] }
    features := { ctx.features with directColor := true } }

theorem Context.inRange_of_drawnOver {ctx : Context} (h : ctx.drawnOver.shader.InRange) :
    ctx.shader.InRange where
  locations := h.locations
  builtins := h.builtins
  literals l hl := { h.literals l hl with }
  bases b hb register hbase := { h.bases b hb register hbase with }
  color := h.color

/-- Register arithmetic overflows in no shader whose description is in range, and in some shader of
any other description that is accepted. -/
theorem overflow_outside_range (ctx : Context) (plain : ctx.shader.Plain) :
    (ctx.shader.InRange → ∀ target, assemble ctx target ≠ .error .overflow) ∧
    (ctx.shader.Accepted → ¬ ctx.shader.InRange →
      ∀ target, assemble ctx.drawnOver target = .error .overflow) := by
  constructor
  · intro range target hassemble
    have hleads := Described.leads_emitShader plain range (Described.declares_empty _ target)
    unfold Leads at hleads
    unfold assemble at hassemble
    cases hrun : Assembly.emitShader ctx { listing := { target := target } } with
    | ok a w =>
      rw [hrun] at hassemble
      cases hassemble
    | error e w =>
      rw [hrun] at hassemble hleads
      exact hleads (Except.error.inj hassemble)
  · intro accepted range target
    have plain : ctx.drawnOver.shader.Plain := { plain with }
    have accepted : ctx.drawnOver.shader.Accepted := { accepted with }
    obtain ⟨w, hrun⟩ := Described.overflows_emitShader plain accepted rfl rfl
      (fun h => range (Context.inRange_of_drawnOver h)) (Described.declares_empty _ target)
    unfold assemble
    rw [hrun]

/-- A fragment shader with the number one in a secondary attribute. -/
def oneLiteral (register : Nat) : Context :=
  { shader := { literals := [⟨register, 0⟩], literalBuffer := #[0x00, 0x00, 0x80, 0x3f] } }

theorem oneLiteral_plain {register : Nat} (h : register < 2 ^ 32) :
    (oneLiteral register).shader.Plain where
  temporaries := rfl
  primaryAttributes := rfl
  secondaryAttributes := rfl
  outputs := rfl
  inputs _ hi := nomatch hi
  literals _ hl := mem_singleton.1 hl ▸ h
  buffers _ hb := nomatch hb
  color := Nat.two_pow_pos 32

/-- A literal for the last secondary attribute overflows; one for the last lane before its group
does not. -/
theorem overflow_outside_range_literal :
    ((oneLiteral 0xFFFFFFFF).shader.Accepted ∧ ¬ (oneLiteral 0xFFFFFFFF).shader.InRange ∧
      ∀ target, assemble (oneLiteral 0xFFFFFFFF).drawnOver target = .error .overflow) ∧
    (oneLiteral 0xFFFFFFFB).shader.InRange ∧
      ∀ target, assemble (oneLiteral 0xFFFFFFFB) target ≠ .error .overflow := by
  have accepted : (oneLiteral 0xFFFFFFFF).shader.Accepted :=
    ⟨fun _ hi => (nomatch hi), fun _ hl => List.mem_singleton.1 hl ▸ by decide,
      fun _ hb => (nomatch hb)⟩
  have outside : ¬ (oneLiteral 0xFFFFFFFF).shader.InRange := fun h =>
    absurd (h.literals ⟨0xFFFFFFFF, 0⟩ (List.mem_singleton.2 rfl)).group (by decide)
  have range : (oneLiteral 0xFFFFFFFB).shader.InRange :=
    ⟨fun _ _ hi => (nomatch hi), fun _ hi => (nomatch hi),
      fun _ hl => List.mem_singleton.1 hl ▸ ⟨by decide, fun _ hb => (nomatch hb)⟩,
      fun _ hb => (nomatch hb), fun _ _ => by decide⟩
  exact ⟨⟨accepted, outside,
    (overflow_outside_range _ (oneLiteral_plain (by decide))).2 accepted outside⟩, range,
    (overflow_outside_range _ (oneLiteral_plain (by decide))).1 range⟩

end Microcode
