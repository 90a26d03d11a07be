import Microcode.Proofs.Footprints

/-!
Writing operands in any frame.

A store reads and writes the places that its lanes are resolved to, and otherwise only defines
values.  So it stays in every frame that lets these lanes be resolved to places that may be written.
-/

namespace Microcode

open Emit Footprint Access List

/-- The places that a frame lets be written, and read on the way. -/
structure Footprint.Rights (F : Footprint) where
  Writes : Workspace → Place → Prop
  later : ∀ {w w' place}, F.Rel w w' → Writes w place → Writes w' place
  load : ∀ {w place}, Writes w place → F.Leads (Emit.load place) w fun _ _ => True
  store : ∀ {w place} v, Writes w place → F.Leads (Emit.store place v) w fun _ _ => True

/-- All elements of a lane are among the parts. -/
def Access.isWhole (ratio lane : Nat) (parts : List (Nat × Value)) : Bool :=
  (List.range' (lane * ratio) ratio).all fun c => (parts.lookup c).isSome

/-- The lanes that parts by channel change. -/
def Access.lanesOf (ratio : Nat) (parts : List (Nat × Value)) : List Nat :=
  if ratio = 1 then parts.map Prod.fst
  else (List.range (4 / ratio)).filter (isTouched ratio · parts)

/-- Lanes of which a channel is written. -/
def Access.Touched (ratio : Nat) (mask : Mask) (k : Nat) : Prop :=
  ∃ c ∈ Mask.components mask, c / ratio = k

theorem Access.touched_of_mem {parts : List (Nat × Value)} {mask : Mask} {ratio lane : Nat}
    (hkeys : parts.map Prod.fst = Mask.components mask) (h : lane ∈ lanesOf ratio parts) :
    Touched ratio mask lane := by
  unfold lanesOf at h
  split at h
  case isTrue hone =>
    rw [hkeys] at h
    exact ⟨lane, h, hone ▸ Nat.div_one lane⟩
  case isFalse =>
    obtain ⟨c, hc, hsome⟩ := any_eq_true.1 (mem_filter.1 h).2
    refine ⟨c, hkeys ▸ isSome_lookup.1 hsome, ?_⟩
    rw [mem_range'_1] at hc
    apply Nat.div_eq_of_lt_le
    · omega
    · rw [Nat.add_mul]
      omega

theorem Access.leads_channels {F : Footprint} {w : Workspace} (v : Value) (element : Element)
    (mask : Mask) : F.Leads (channels v element mask) w fun parts _ =>
      parts.map Prod.fst = Mask.components mask := by
  have hkeys : (Mask.components mask).zipIdx.map Prod.fst = Mask.components mask :=
    zipIdx_map_fst 0 _
  rw [← hkeys]
  refine (Leads.mapM (I := fun _ => True) _ trivial ?_).mono fun _ _ _ h => h.1
  rintro ⟨channel, ordinal⟩ _ w1 _
  dsimp only
  apply Leads.andThen
  intro part w2 _
  apply Leads.andThen
  exact fun v w3 _ => .pure ⟨rfl, trivial⟩

namespace Footprint.Rights

variable {F : Footprint} (A : F.Rights) (ctx : Context) {w : Workspace} {place : Place}
  {register : Register} {dest : Operand} {sub : Int} {lane : Nat} {parts : List (Nat × Value)}

/-- Lane `k` of an operand is resolved to a place that may be written. -/
structure Serves (dest : Operand) (sub : Int) (k : Nat) : Prop where
  offset : Within F (offset (sub + k))
  resolve : ∀ w, F.Leads (resolve dest.bank dest.num (sub + k) true) w fun found w' =>
    A.Writes w' found.register.place

variable {A}

theorem leads_guarded (h : A.Writes w place) (v : Value) (condition : Option Value) :
    F.Leads (guarded place v condition) w fun _ _ => True := by
  unfold guarded
  cases condition with
  | none => exact .pure trivial
  | some c =>
    apply (A.load h).bind
    intro old w1 _ _
    exact Within.leads w1

theorem leads_writeGuarded (h : A.Writes w place) (v : Value) (condition : Option Value) :
    F.Leads (do Emit.store place (← guarded place v condition)) w fun _ _ => True := by
  apply (leads_guarded h v condition).bind
  intro u w1 h1 _
  exact A.store u (A.later h1 h)

theorem leads_replaceLanes (h : A.Writes w register.place) (lanes : List (Nat × Value)) :
    F.Leads (replaceLanes register lanes) w fun _ _ => True := by
  unfold replaceLanes
  apply Leads.ite (fun _ => Within.leads w)
  intro _
  apply (A.load h).bind
  intro old w1 _ _
  split <;> exact Within.leads w1

theorem Serves.within_currentElements {k : Nat} (h : A.Serves dest sub k) :
    Within F (currentElements ctx dest (sub + k)) := by
  unfold currentElements
  constructor
  intro w
  apply (h.resolve w).bind
  intro found w1 _ hfound
  apply (A.load hfound).bind
  intro v w2 _ _
  exact Within.leads w2

/-- Only elements that are kept are looked up. -/
theorem within_mergeLane (h : isWhole dest.storage.ratio lane parts = false → A.Serves dest sub lane) :
    Within F (mergeLane ctx dest sub lane parts) := by
  have hslot (old : Option Value) (c : Nat) := within_mergeSlot F dest lane parts old c
  unfold mergeLane
  dsimp only
  constructor
  intro w
  apply Leads.ite (fun _ => Within.leads w)
  intro hpart
  have hlane := h (Bool.eq_false_iff.2 hpart)
  have := hlane.within_currentElements ctx
  apply (leads_offset hlane.offset w).bind
  rintro _ w1 - ⟨rfl, rfl⟩
  exact Within.leads w1

theorem leads_laneWrites (h : ∀ lane ∈ lanesOf dest.storage.ratio parts,
      isWhole dest.storage.ratio lane parts = false → A.Serves dest sub lane) :
    F.Leads (laneWrites ctx dest sub parts) w fun writes _ =>
      writes.map Prod.fst = lanesOf dest.storage.ratio parts := by
  unfold laneWrites
  dsimp only
  by_cases hratio : dest.storage.ratio = 1
  · rw [if_pos hratio, lanesOf, if_pos hratio]
    refine (Leads.mapM (I := fun _ => True) _ trivial ?_).mono fun _ _ _ h => h.1
    rintro ⟨channel, part⟩ _ w1 _
    dsimp only
    apply Leads.andThen
    exact fun v w2 _ => .pure ⟨rfl, trivial⟩
  · rw [lanesOf, if_neg hratio] at h
    rw [if_neg hratio, lanesOf, if_neg hratio]
    nth_rewrite 2 [← map_id ((List.range (4 / dest.storage.ratio)).filter _)]
    refine (Leads.mapM (I := fun _ => True) _ trivial ?_).mono fun _ _ _ h => h.1
    intro lane hlane w1 _
    have := within_mergeLane ctx (h lane hlane)
    apply Leads.andThen
    exact fun v w2 _ => .pure ⟨rfl, trivial⟩

theorem mem_addToGroup {l : Listing} {found : Resolved} {v : Value}
    {groups : List (Register × List (Nat × Value))} {g : Register × List (Nat × Value)}
    (h : g ∈ addToGroup l found v groups) : g.1 = found.register ∨ ∃ g' ∈ groups, g'.1 = g.1 := by
  induction groups with
  | nil =>
    rw [mem_singleton.1 h]
    exact .inl rfl
  | cons head rest ih =>
    rw [addToGroup] at h
    split at h
    · rcases mem_cons.1 h with rfl | hmem
      · exact .inr ⟨head, mem_cons_self, rfl⟩
      · exact .inr ⟨g, (.tail _ hmem), rfl⟩
    · rcases mem_cons.1 h with rfl | hmem
      · exact .inr ⟨head, mem_cons_self, rfl⟩
      · rcases ih hmem with hfound | ⟨g', hg', heq⟩
        · exact .inl hfound
        · exact .inr ⟨g', (.tail _ hg'), heq⟩

variable (A) in
/-- Registers that may be written. -/
def AllWritten (groups : List (Register × List (Nat × Value))) (w : Workspace) : Prop :=
  ∀ g ∈ groups, A.Writes w g.1.place

theorem leads_groupLanes {writes : List (Nat × Value)} (h : ∀ p ∈ writes, A.Serves dest sub p.1) :
    F.Leads (groupLanes dest.bank dest.num sub writes) w A.AllWritten := by
  unfold groupLanes
  apply Leads.foldlM
  · exact fun _ h => nomatch h
  · rintro ⟨lane, v⟩ hmem groups w1 _ hgroups
    apply (leads_offset (h _ hmem).offset w1).bind
    rintro _ w2 - ⟨rfl, rfl⟩
    apply ((h _ hmem).resolve w2).bind
    intro found w3 h3 hfound
    refine ⟨F.refl w3, fun g hg => ?_⟩
    rcases mem_addToGroup hg with heq | ⟨g', hg', heq⟩
    · exact heq ▸ hfound
    · exact heq ▸ A.later h3 (hgroups g' hg')

theorem within_writeLanes {writes : List (Nat × Value)} (h : ∀ p ∈ writes, A.Serves dest sub p.1)
    (condition : Option Value) :
    Within F (writeLanes dest.bank dest.num sub writes condition) := by
  unfold writeLanes
  constructor
  intro w
  apply (leads_groupLanes h).bind
  intro groups w1 _ hgroups
  refine (Leads.forM (I := A.AllWritten groups) groups hgroups ?_).mono fun _ _ _ _ => trivial
  rintro ⟨register, lanes⟩ hmem w2 _ hgroups2
  apply (leads_replaceLanes (hgroups2 _ hmem) lanes).bind
  intro v w3 h3 _
  apply (leads_writeGuarded (A.later h3 (hgroups2 _ hmem)) v condition).mono
  exact fun _ w4 h4 _ g hg => A.later h4 (A.later h3 (hgroups2 g hg))

theorem leads_wholeRegister? (shape : Shape) {mask : Mask} (h : mask = 0b1111 → A.Serves dest sub 0) :
    F.Leads (wholeRegister? dest shape mask sub) w fun found? w' =>
      ∀ register, found? = some register → A.Writes w' register.place := by
  unfold wholeRegister?
  apply Leads.ite
  · intro hfour
    simp only [Bool.and_eq_true, decide_eq_true_eq] at hfour
    have hresolve := (h hfour.1.2).resolve w
    simp only [Int.natCast_zero, Int.add_zero] at hresolve
    apply hresolve.bind
    intro found w1 _ hfound
    apply Leads.ite
    · intro _
      refine .pure fun register h => ?_
      rw [← Option.some.inj h]
      exact hfound
    · exact fun _ => .pure fun _ h => nomatch h
  · exact fun _ => .pure fun _ h => nomatch h

theorem within_storeRegister (v : Value) {mask : Mask} (condition : Option Value)
    (h : ∀ k, Touched dest.storage.ratio mask k → A.Serves dest sub k) :
    Within F (storeRegister ctx dest v mask sub condition) := by
  unfold storeRegister
  constructor
  intro w
  apply Leads.andThen
  intro shape w1 _
  have hzero (hfour : mask = 0b1111) : A.Serves dest sub 0 :=
    h 0 ⟨0, hfour ▸ by decide, Nat.zero_div _⟩
  apply (leads_wholeRegister? shape hzero).bind
  intro found? w2 _ hfound
  cases found? with
  | some register =>
    apply Leads.andThen
    intro typed w3 h3
    apply Leads.andThen
    intro u w4 h4
    exact leads_writeGuarded (A.later h4 (A.later h3 (hfound register rfl))) u condition
  | none =>
    apply (leads_channels v dest.storage mask).bind
    intro parts w3 _ hkeys
    apply (leads_laneWrites ctx fun lane hlane _ => h lane (touched_of_mem hkeys hlane)).bind
    intro writes w4 _ hwrites
    have hlanes (p : Nat × Value) (hp : p ∈ writes) : A.Serves dest sub p.1 :=
      h p.1 (touched_of_mem hkeys (hwrites ▸ mem_map_of_mem hp))
    have := within_writeLanes hlanes condition
    exact Within.leads w4

theorem within_storePredicate (hnumber : Within F (predicateNumber dest sub))
    (hplace : ∀ n w, F.Leads (predicatePlace n) w fun place w' => A.Writes w' place) (v : Value)
    (condition : Option Value) : Within F (storePredicate dest v sub condition) := by
  unfold storePredicate
  constructor
  intro w
  apply Leads.andThen
  intro n w1 _
  apply (hplace n w1).bind
  intro place w2 _ hplace
  have htruth (shape : Shape) (u : Value) (w3 : Workspace) (h3 : A.Writes w3 place) : F.Leads (do
        let u ←
          if shape.scalar = .bool then pure u
          else do compare .ne u (← constant (.zero shape.scalar))
        Emit.store place (← guarded place u condition)) w3 fun _ _ => True := by
    apply Leads.ite
    · exact fun _ => leads_writeGuarded h3 u condition
    · intro _
      apply Leads.andThen
      intro zero w4 h4
      apply Leads.andThen
      intro outcome w5 h5
      exact leads_writeGuarded (A.later h5 (A.later h4 h3)) outcome condition
  apply Leads.andThen
  intro shape w3 h3
  apply Leads.ite
  · intro _
    apply Leads.andThen
    intro u w4 h4
    exact htruth shape u w4 (A.later h4 (A.later h3 hplace))
  · exact fun _ => htruth shape v w3 (A.later h3 hplace)

end Footprint.Rights

theorem Access.within_store_of {F : Footprint} [∀ what, F.May (.unsupported what)] {ctx : Context}
    {dest : Operand} {v : Value} {mask : Mask} {sub : Int} {condition : Option Value}
    (hregister : dest.bank.isRegister = true →
      Within F (storeRegister ctx dest v (mask % 16) sub condition))
    (hpredicate : dest.bank.isRegister = false → Within F (storePredicate dest v sub condition)) :
    Within F (Access.store ctx dest v mask sub condition) := by
  unfold Access.store
  dsimp only
  split
  · infer_instance
  · split
    case h_1 hbank => exact hpredicate (by rw [hbank]; rfl)
    case h_2 =>
      split
      case isTrue hbank => exact hregister hbank
      case isFalse => infer_instance

end Microcode
