import Mathlib.Data.List.Nodup
import Microcode.Proofs.Loading
import Microcode.Proofs.Writing

/-!
What stores write.

A store brings the components of a value to the element of its destination.  Elements as wide as a
lane replace lanes; narrower ones are put beside the elements of their lane that are not written.
-/

namespace Microcode

open Machine Emit Access List Operand Element RegisterFile

variable (ctx : Context) {taken : Bool} {sub : Int} {xs : List Lane} {count n : Nat}
  {condition : Option Value} {register : Register} {source : Scalar} {v : Value}

variable {start : Nat → Nat → Lanes} {w : Workspace} {s : State} {scalar : Scalar}

/-! ## Components of a value -/

/-- A lane of one scalar as a lane of another. -/
def coerced (source target : Scalar) (keepBits : Bool) (x : Lane) : Lane :=
  if source = target then x
  else if source = .bool then
    if x ≠ 0#32 then (Constant.ofNumber target Binary32.one).lane else (Constant.zero target).lane
  else Machine.convert (if keepBits then .bitcast else .numeric) source target x

theorem computes_select_each {c a b : Value} {conditionScalar : Scalar} {cs ys : List Lane}
    (hc : Holds w s c conditionScalar cs) (ha : Holds w s a scalar xs) (hb : Holds w s b scalar ys)
    (hcs : cs.length = xs.length) (hys : ys.length = xs.length) :
    Computes start (select c a b) w s scalar ((range xs.length).map fun i =>
      if cs.getD i 0#32 ≠ 0#32 then xs.getD i 0#32 else ys.getD i 0#32) := by
  refine computes_define
    ⟨by simpa [Op.values] using ⟨hc.defined, ha.defined, hb.defined⟩, by simp [Op.place?]⟩
    (by simpa using ha.pos) (by simpa using ha.width) (fun hw => ?_) fun i hi => ?_
  · rw [Listing.opShape, Listing.selectShape, hw.target, length_map, length_range]
    exact widest_pair ha hb hys
  · have hi' : i < xs.length := by simpa using hi
    simp only [State.eval, length_map, length_range]
    rw [get_fill _ _ (Nat.lt_of_lt_of_le hi' ha.width), if_pos hi', hc.lane (hcs ▸ hi'),
      ha.lane hi', hb.lane (hys ▸ hi'), getD_eq_getElem _ _ hi, getElem_map,
      getElem_range]

theorem computes_splatNumber (scalar : Scalar) (bits : Lane) (hpos : 0 < count)
    (hwidth : count ≤ 4) :
    Computes start (splatConstant (.ofNumber scalar bits) count) w s scalar
      (replicate count (Constant.ofNumber scalar bits).lane) :=
  (computes_ofNumber scalar bits).bind fun _ _ _ _ hv => computes_splat hv hpos hwidth

theorem computes_coerce (hv : Holds w s v source xs) (target : Scalar) (keepBits : Bool) :
    Computes start (coerce v target keepBits) w s target (xs.map (coerced source target keepBits)) := by
  intro E
  rw [coerce]
  refine Emits.shapeOf ?_
  rw [hv.shape]
  by_cases hsame : source = target
  · simp only [if_pos hsame]
    refine .pure ?_
    rw [show coerced source target keepBits = id from funext fun x => by rw [coerced, if_pos hsame]; rfl,
      map_id, ← hsame]
    exact hv
  simp only [if_neg hsame]
  by_cases hbool : source = .bool
  · simp only [if_pos hbool]
    refine (computes_splatNumber target Binary32.one hv.pos hv.width E).bind
      fun one w1 s1 q1 hone => ?_
    refine (computes_splatNumber target 0#32 hv.pos hv.width E).bind fun zero w2 s2 q2 hzero => ?_
    refine (computes_select_each ((hv.quiet q1).quiet q2) (hone.quiet q2) hzero (by simp)
      (by simp)).of_eq ?_ E
    refine ext_getElem (by simp) fun i _ hi => ?_
    have hi' : i < xs.length := by simpa using hi
    simp only [getElem_map, getElem_range, coerced, if_neg hsame, if_pos hbool,
      Constant.zero]
    rw [getD_eq_getElem _ _ hi', getD_eq_getElem _ _ (by simpa using hi'),
      getD_eq_getElem _ _ (by simpa using hi'), getElem_replicate,
      getElem_replicate]
  · simp only [if_neg hbool]
    have hmap : xs.map (coerced source target keepBits) =
        xs.map (Machine.convert (if keepBits then .bitcast else .numeric) source target) := by
      refine map_congr_left fun x _ => ?_
      rw [coerced, if_neg hsame, if_neg hbool]
    rw [hmap]
    exact computes_convert _ target hv E

/-- The component of a value for a channel: a value of four components is indexed by channel, a
narrower one by the rank of the channel, and a scalar has the same component for all. -/
def componentFor (xs : List Lane) (channel rank : Nat) : Lane :=
  match xs.length with
  | 1 => xs.getD 0 0#32
  | 4 => xs.getD channel 0#32
  | count => xs.getD (min rank (count - 1)) 0#32

theorem componentFor_four (h : xs.length = 4) (channel rank : Nat) :
    componentFor xs channel rank = xs.getD channel 0#32 := by
  simp only [componentFor, h]

theorem computes_component (hv : Holds w s v scalar xs) {channel : Nat} (hchannel : channel < 4)
    (rank : Nat) :
    Computes start (component v channel rank) w s scalar [componentFor xs channel rank] := by
  intro E
  rw [component]
  refine Emits.countOf ?_
  rw [hv.countOf, componentFor]
  have hpos := hv.pos
  match hlen : xs.length with
  | 0 => omega
  | 1 =>
    obtain ⟨x, rfl⟩ := length_eq_one_iff.1 hlen
    exact .pure hv
  | 4 | 2 | 3 => exact computes_extract hv (by omega) E
  | n + 5 =>
    have := hv.width
    omega

theorem Mask.nodup_components (mask : Mask) : (Mask.components mask).Nodup :=
  Nodup.filter _ nodup_range

/-- Position of a channel among those that a mask selects. -/
def Mask.rank (mask : Mask) (channel : Nat) : Nat := (Mask.components mask).idxOf channel

/-- One rule for each element of a list, where every result has the key of its element. -/
theorem emits_mapM_keyed {F : Frame} {α : Type} {f : α → Emit (Nat × Value)}
    {E : Error → Workspace → Prop} (xs : List α) (key : α → Nat)
    (P : Nat × Value → Workspace → State → Prop)
    (keep : ∀ p w s w' s', F.Rel w s w' s' → P p w s → P p w' s')
    (h : ∀ a ∈ xs, ∀ w' s', F.Rel w s w' s' →
      Emits F (f a) w' s' (fun p w'' s'' => p.1 = key a ∧ P p w'' s'') E) :
    Emits F (xs.mapM f) w s
      (fun parts w' s' => parts.map Prod.fst = xs.map key ∧ ∀ p ∈ parts, P p w' s') E := by
  refine (Emits.mapM (R := fun a (p : Nat × Value) w' s' => p.1 = key a ∧ P p w' s') xs
    (fun a p w1 s1 w2 s2 hrel hp => And.intro hp.1 (keep p w1 s1 w2 s2 hrel hp.2)) h).gives
    fun parts w' s' _ hparts => ?_
  clear h
  induction hparts with
  | nil => exact ⟨rfl, by simp⟩
  | cons hp _ ih =>
    refine ⟨by rw [map_cons, map_cons, hp.1, ih.1], fun p hmem => ?_⟩
    rcases mem_cons.1 hmem with rfl | hmem
    · exact hp.2
    · exact ih.2 p hmem

/-- What a store writes for a channel. -/
def Element.written (e : Element) (source : Scalar) (xs : List Lane) (mask : Mask) (channel : Nat) :
    Lane :=
  coerced source e.scalar (e.ratio = 1) (componentFor xs channel (mask.rank channel))

theorem emits_channels (hv : Holds w s v source xs) (element : Element) (mask : Mask)
    {E : Error → Workspace → Prop} :
    Emits (.quiet start) (channels v element mask) w s
      (fun parts w' s' => parts.map Prod.fst = Mask.components mask ∧
        ∀ p ∈ parts, Holds w' s' p.2 element.scalar [element.written source xs mask p.1]) E := by
  rw [channels]
  refine (emits_mapM_keyed (Mask.components mask).zipIdx Prod.fst
    (fun p w' s' => Holds w' s' p.2 element.scalar [element.written source xs mask p.1])
    (fun p w1 s1 w2 s2 q h => h.quiet q) ?_).gives
    fun parts w' s' _ h => ⟨h.1.trans (by rw [zipIdx_map_fst]), h.2⟩
  rintro ⟨channel, rank⟩ hmem w1 s1 q1
  obtain ⟨-, hlt, hget⟩ := mem_zipIdx hmem
  have hmem' : channel ∈ Mask.components mask := by rw [hget]; exact getElem_mem _
  have hrank : mask.rank channel = rank := by
    rw [Mask.rank, hget]
    exact (Mask.nodup_components mask).idxOf_getElem _ _
  refine (computes_component (hv.quiet q1) (Mask.lt_of_mem_components hmem') rank E).bind
    fun part w2 s2 q2 hpart => ?_
  refine (computes_coerce hpart element.scalar _ E).bind fun u w3 s3 _ hu => .pure ⟨rfl, ?_⟩
  rw [written, hrank]
  exact hu

/-! ## New contents of lanes -/

namespace Operand

/-- The new contents of lane `n` of a destination: channel `c` gets `f c`, and elements that are not
written stay as they are in `old`. -/
def merged (dest : Operand) (encoding : HalfEncoding) (mask : Mask) (f : Nat → Lane) (old : Lane)
    (n : Nat) : Lane :=
  dest.storage.pack encoding ((range dest.storage.ratio).map fun k =>
    if n * dest.storage.ratio + k ∈ Mask.components mask then f (n * dest.storage.ratio + k)
    else dest.storage.decode encoding old k)

/-- What the lane `sub` lanes past a destination's first shows. -/
def before (dest : Operand) (r : RegisterFile) (s : State) (sub : Int) : Lane :=
  r.shown s dest.bank (laneNumber dest.bank dest.num sub).toNat

/-- The lanes of a destination with an element that is written. -/
def writtenLanes (dest : Operand) (mask : Mask) : List Nat :=
  (range (4 / dest.storage.ratio)).filter fun n =>
    (Mask.components mask).any fun c => c / dest.storage.ratio = n

end Operand

theorem Keeps.before {w' : Workspace} {s' : State} (k : Keeps start w s w' s') (dest : Operand)
    (sub : Int) : dest.before w'.registers s' sub = dest.before w.registers s sub := k.shown _ _

section

variable {dest : Operand} {mask : Mask} {f : Nat → Lane} {parts : List (Nat × Value)}

theorem emits_currentElements (dest : Operand) (sub : Int) :
    Emits (.keeps start) (currentElements ctx dest sub) w s
      (fun v w' s' => Holds w' s' v dest.storage.scalar ((range dest.storage.ratio).map
        (dest.storage.decode ctx.halfEncoding (dest.before w.registers s sub))))
      (fun _ _ => ¬ w.registers.Reaches dest.bank (laneNumber dest.bank dest.num sub) true) := by
  rw [currentElements]
  refine ((emits_resolve dest.num sub true).fails
    fun _ _ h => h.unreached).bind fun found w1 s1 k1 h1 => ?_
  obtain ⟨-, hoff, hvalid⟩ := k1.good'.registers.resolved?_covers h1.resolved
  have hold : found.content s1 = dest.before w.registers s sub := by
    rw [before, ← k1.shown, shown, laneAt, h1.resolved]
    rfl
  refine (computes_load hvalid.place.declared hvalid.place.shape hvalid.pos hvalid.width _).keeps.bind
    fun v w2 s2 _ hv => ?_
  have hget : ((range found.register.lanes).map (s1.read found.register.place).get).getD
      found.offset 0#32 = dest.before w.registers s sub := by
    rw [← hold, getD_eq_getElem _ _ (by simpa using hoff), getElem_map, getElem_range]
    rfl
  by_cases hone : found.register.lanes = 1
  · rw [if_pos hone]
    rw [hone, show found.offset = 0 by omega] at hget
    rw [hone] at hv
    have hbits : Holds w2 s2 v .f32 [dest.before w.registers s sub] := by
      rw [← hget]
      exact hv
    exact (computes_unpackLane ctx hbits dest.storage _).keeps
  · rw [if_neg hone]
    refine Emits.keeps ((computes_extract hv (by simpa using hoff) _).bind
      fun bits w3 s3 _ hbits => ?_)
    rw [hget] at hbits
    exact computes_unpackLane ctx hbits dest.storage _

theorem computes_mergeElements (hkeys : parts.map Prod.fst = Mask.components mask)
    (hparts : ∀ p ∈ parts, Holds w s p.2 dest.storage.scalar [f p.1]) (n : Nat) (old : Option Value)
    {x : Lane}
    (hold : ∀ v ∈ old, Holds w s v dest.storage.scalar
      ((range dest.storage.ratio).map (dest.storage.decode ctx.halfEncoding x)))
    (hall : old = none → ∀ k, k < dest.storage.ratio →
      n * dest.storage.ratio + k ∈ Mask.components mask) :
    Computes start (do
      let elements ← (range' (n * dest.storage.ratio) dest.storage.ratio).mapM fun c => do
        match parts.lookup c, old with
        | some part, _ => return part
        | none, some old => extract old (c - n * dest.storage.ratio)
        | none, none => constant (.zero dest.storage.scalar)
      packLane ctx (← construct elements) dest.storage) w s .f32
      [dest.merged ctx.halfEncoding mask f x n] := by
  intro E
  have hpos := dest.storage.ratio_pos
  have hwidth : dest.storage.ratio ≤ 4 := by
    rcases dest.storage.ratio_cases with h | h | h <;> omega
  refine computes_construct_map dest.storage.scalar
    (range' (n * dest.storage.ratio) dest.storage.ratio)
    (fun c => if c ∈ Mask.components mask then f c
      else dest.storage.decode ctx.halfEncoding x (c - n * dest.storage.ratio))
    (by simpa using hpos) (by simpa using hwidth) (fun c hc w' s' q => ?_) fun v w' s' _ hv => ?_
  · obtain ⟨hlow, hhigh⟩ := mem_range'_1.1 hc
    cases hlookup : parts.lookup c with
    | some part =>
      have hmem := mem_of_lookup hlookup
      have hcomp : c ∈ Mask.components mask := hkeys ▸ mem_map.2 ⟨_, hmem, rfl⟩
      rw [if_pos hcomp]
      exact .pure ((hparts _ hmem).quiet q)
    | none =>
      have hcomp : c ∉ Mask.components mask := by
        rw [← hkeys, ← isSome_lookup, hlookup]
        simp
      rw [if_neg hcomp]
      cases old with
      | none =>
        have := hall rfl (c - n * dest.storage.ratio) (by omega)
        rw [Nat.add_sub_cancel' hlow] at this
        exact absurd this hcomp
      | some old =>
        have hlt : c - n * dest.storage.ratio < dest.storage.ratio := by omega
        have : Computes start (extract old (c - n * dest.storage.ratio)) w' s' _ _ :=
          computes_extract ((hold old rfl).quiet q) (by simpa using hlt)
        rwa [getD_eq_getElem _ _ (by simpa using hlt), getElem_map,
          getElem_range] at this
  · have hlanes : ((range' (n * dest.storage.ratio) dest.storage.ratio).map fun c =>
        if c ∈ Mask.components mask then f c
        else dest.storage.decode ctx.halfEncoding x (c - n * dest.storage.ratio)) =
        (range dest.storage.ratio).map fun k =>
          if n * dest.storage.ratio + k ∈ Mask.components mask then f (n * dest.storage.ratio + k)
          else dest.storage.decode ctx.halfEncoding x k := by
      refine ext_getElem (by simp) fun k _ _ => ?_
      simp
    rw [hlanes] at hv
    exact computes_packLane ctx hv (by simp) E

theorem emits_mergeLane (sub : Int) (hkeys : parts.map Prod.fst = Mask.components mask)
    (hparts : ∀ p ∈ parts, Holds w s p.2 dest.storage.scalar [f p.1]) (n : Nat) :
    Emits (.keeps start) (mergeLane ctx dest sub n parts) w s
      (fun v w' s' => Holds w' s' v .f32
        [dest.merged ctx.halfEncoding mask f (dest.before w.registers s (sub + n)) n])
      (fun _ _ => ¬ (-0x80000000 ≤ sub + n ∧ sub + n < 0x80000000) ∨
        ¬ w.registers.Reaches dest.bank (laneNumber dest.bank dest.num (sub + n)) true) := by
  rw [mergeLane]
  by_cases hall : ((range' (n * dest.storage.ratio) dest.storage.ratio).all
      fun c => (parts.lookup c).isSome) = true
  · simp only [if_pos hall]
    have hcovered : ∀ k, k < dest.storage.ratio →
        n * dest.storage.ratio + k ∈ Mask.components mask := by
      intro k hk
      have := all_eq_true.1 hall (n * dest.storage.ratio + k)
        (mem_range'_1.2 ⟨by omega, by omega⟩)
      rwa [isSome_lookup, hkeys] at this
    exact (computes_mergeElements ctx hkeys hparts n none (by simp) (fun _ => hcovered) _).keeps
  · simp only [if_neg hall]
    refine Emits.offset (fun h => .inl h) fun _ => ?_
    rw [bind_map_left]
    refine ((emits_currentElements ctx dest (sub + n)).fails
      fun _ _ h => .inr h).bind fun v w1 s1 k1 hv => ?_
    refine (computes_mergeElements ctx hkeys
      (fun p hp => (hparts p hp).advances k1.toAdvances) n (some v) ?_ (by simp) _).keeps
    intro u hu
    obtain rfl := Option.some.inj hu
    exact hv

theorem Operand.pairwise_writtenLanes (dest : Operand) (mask : Mask) :
    (dest.writtenLanes mask).Pairwise (· < ·) :=
  pairwise_lt_range.sublist filter_sublist

theorem Operand.mem_writtenLanes : n ∈ dest.writtenLanes mask ↔
    ∃ c ∈ Mask.components mask, c / dest.storage.ratio = n := by
  rw [writtenLanes, mem_filter, mem_range, any_eq_true]
  simp only [decide_eq_true_eq]
  refine ⟨And.right, fun h => ⟨?_, h⟩⟩
  obtain ⟨c, hc, rfl⟩ := h
  have := Mask.lt_of_mem_components hc
  rcases dest.storage.ratio_cases with h | h | h <;> rw [h] <;> omega

theorem writtenLanes_whole (hratio : dest.storage.ratio = 1) :
    dest.writtenLanes mask = Mask.components mask := by
  rw [writtenLanes, hratio, Mask.components]
  refine filter_congr fun n hn => ?_
  have hn' := mem_range.1 hn
  rw [Bool.eq_iff_iff, any_eq_true]
  simp only [Nat.div_one, decide_eq_true_eq, exists_eq_right, mem_filter, mem_range]
  exact ⟨And.right, fun h => ⟨hn', h⟩⟩

theorem merged_whole (hratio : dest.storage.ratio = 1) (encoding : HalfEncoding) (old : Lane)
    (hn : n ∈ Mask.components mask) : dest.merged encoding mask f old n = f n := by
  rw [merged, pack, if_pos hratio, hratio]
  simp [hn]

theorem coerced_bits (h : source ≠ .bool) (x : Lane) : coerced source .f32 true x = x := by
  rw [coerced, if_neg h]
  split
  · rfl
  · simp [Machine.convert]

/-- The lanes that a store changes, with their new contents. -/
theorem emits_laneWrites (sub : Int) (hkeys : parts.map Prod.fst = Mask.components mask)
    (hparts : ∀ p ∈ parts, Holds w s p.2 dest.storage.scalar [f p.1]) :
    Emits (.keeps start) (laneWrites ctx dest sub parts) w s
      (fun writes w' s' => writes.map Prod.fst = dest.writtenLanes mask ∧ ∀ p ∈ writes,
        Holds w' s' p.2 .f32
          [dest.merged ctx.halfEncoding mask f (dest.before w.registers s (sub + p.1)) p.1])
      (fun _ _ => Unwritable w.registers dest.bank dest.num sub (dest.writtenLanes mask)) := by
  rw [laneWrites]
  by_cases hratio : dest.storage.ratio = 1
  · simp only [if_pos hratio]
    refine (emits_mapM_keyed parts Prod.fst (fun p w' s' => Holds w' s' p.2 .f32 [f p.1])
      (fun p w1 s1 w2 s2 q h => h.quiet q) fun p hp w1 s1 q1 => ?_).keeps.gives
      fun writes w' s' _ h => ?_
    · refine (computes_coerce ((hparts p hp).quiet q1) .f32 true _).bind
        fun u w2 s2 _ hu => .pure ⟨rfl, ?_⟩
      rw [map_singleton, coerced_bits dest.storage.scalar_ne_bool] at hu
      exact hu
    · rw [writtenLanes_whole hratio, ← hkeys]
      refine ⟨h.1, fun p hp => ?_⟩
      have hmem : p.1 ∈ Mask.components mask := by
        rw [← hkeys, ← h.1]
        exact mem_map.2 ⟨p, hp, rfl⟩
      rw [merged_whole hratio _ _ hmem]
      exact h.2 p hp
  · simp only [if_neg hratio]
    have hfilter : (range (4 / dest.storage.ratio)).filter
        (isTouched dest.storage.ratio · parts) = dest.writtenLanes mask := by
      refine filter_congr fun n _ => ?_
      rw [Bool.eq_iff_iff, isTouched, any_eq_true, any_eq_true]
      simp only [isSome_lookup, hkeys, decide_eq_true_eq, mem_range'_1]
      have hpos := dest.storage.ratio_pos
      refine ⟨fun ⟨c, hc, hmem⟩ => ⟨c, hmem, ?_⟩, fun ⟨c, hmem, hc⟩ => ⟨c, ?_, hmem⟩⟩
      · exact Nat.div_eq_of_lt_le hc.1 (by rw [Nat.succ_mul]; exact hc.2)
      · have hdiv := Nat.div_add_mod' c dest.storage.ratio
        have := Nat.mod_lt c hpos
        rw [hc] at hdiv
        omega
    rw [hfilter]
    refine (emits_mapM_keyed (dest.writtenLanes mask) id
      (fun p w' s' => Holds w' s' p.2 .f32
        [dest.merged ctx.halfEncoding mask f (dest.before w.registers s (sub + p.1)) p.1])
      (fun p w1 s1 w2 s2 k h => h.advances (Keeps.toAdvances k)) fun n hn w1 s1 k1 => ?_).gives
      fun writes w' s' _ h => ⟨h.1.trans (map_id _), h.2⟩
    refine ((emits_mergeLane ctx sub hkeys
      (fun p hp => (hparts p hp).advances k1.toAdvances) n).fails
      fun e w' he => ⟨n, hn, he.imp_right fun h hr => h (k1.reaches hr)⟩).bind
      fun v w2 s2 _ hv => .pure ⟨rfl, ?_⟩
    rw [k1.before] at hv
    exact hv

/-! ## Stores -/

/-- Where the write takes place, each written lane of the destination has its elements merged with
those it had, and every other lane stays as it is. -/
def Stores (w : Workspace) (s : State) (w' : Workspace) (s' : State) (dest : Operand)
    (encoding : HalfEncoding) (mask : Mask) (sub : Int) (f : Nat → Lane) (taken : Bool) : Prop :=
  ∃ g : Nat → Lane,
    Writes w s w' s' dest.bank (fun lane => if taken = true then
      newLanes dest.bank dest.num sub (dest.writtenLanes mask) g lane else none) ∧
    ∀ n ∈ dest.writtenLanes mask,
      w'.registers.BacksAt dest.bank (laneNumber dest.bank dest.num (sub + n)) ∧ ∃ old,
        (∀ x, w.registers.laneAt s dest.bank
          (laneNumber dest.bank dest.num (sub + n)).toNat = some x → x = old) ∧
        g n = dest.merged encoding mask f old n

theorem Stores.after_keeps {w1 w' : Workspace} {s1 s' : State} {encoding : HalfEncoding}
    (h : Stores w1 s1 w' s' dest encoding mask sub f taken) (k : Keeps start w s w1 s1) :
    Stores w s w' s' dest encoding mask sub f taken := by
  obtain ⟨g, hwrites, hg⟩ := h
  refine ⟨g, hwrites.after_keeps k, fun n hn => ?_⟩
  obtain ⟨hbacks, old, hold, hgn⟩ := hg n hn
  exact ⟨hbacks, old, fun x hx => hold x (k.lanes hx), hgn⟩

theorem Unwritable.before {w' : Workspace} {s' : State} {bank : Bank} {num : Nat} {lanes : List Nat}
    (h : Unwritable w'.registers bank num sub lanes)
    (k : Keeps start w s w' s') : Unwritable w.registers bank num sub lanes := by
  obtain ⟨n, hn, hwhy⟩ := h
  exact ⟨n, hn, hwhy.imp_right fun h hr => h (k.reaches hr)⟩

theorem emits_storeLanes (sub : Int) (hv : Holds w s v source xs)
    (hc : Permits w s condition taken) :
    Emits (.alters start) (do
        let parts ← channels v dest.storage mask
        let writes ← laneWrites ctx dest sub parts
        writeLanes dest.bank dest.num sub writes condition) w s
      (fun _ w' s' => Stores w s w' s' dest ctx.halfEncoding mask sub
        (dest.storage.written source xs mask) taken)
      (fun _ _ => Unwritable w.registers dest.bank dest.num sub (dest.writtenLanes mask)) := by
  refine Emits.bind (emits_channels hv dest.storage mask).keeps.alters fun parts w1 s1 _ h1 => ?_
  obtain ⟨k1, hkeys, hparts⟩ := h1
  refine Emits.bind ((emits_laneWrites ctx sub hkeys hparts).fails
    fun _ _ he => he.before k1).alters fun writes w2 s2 _ h2 => ?_
  obtain ⟨k2, hlanes, hwrites⟩ := h2
  have k := k1.trans k2
  have hsorted : (writes.map Prod.fst).Pairwise (· < ·) := by
    rw [hlanes]
    exact dest.pairwise_writtenLanes mask
  refine (emits_writeLanes (g := fun n => dest.merged ctx.halfEncoding mask
    (dest.storage.written source xs mask) (dest.before w1.registers s1 (sub + n)) n) dest.num sub
    (pairwise_map.1 hsorted) hwrites
    (hc.steps k.good.live k.steps)).mono (fun _ w3 s3 _ h3 => ?_) fun e w' he => ?_
  · rw [hlanes] at h3
    refine ⟨_, h3.1.after_keeps k, fun n hn => ⟨h3.2 n hn, _, fun x hx => ?_, rfl⟩⟩
    rw [k1.before, before, shown, hx, Option.getD_some]
  · rw [hlanes] at he
    exact he.before k

/-- The register that four whole lanes replace starts with the destination. -/
structure WholeRegister (w : Workspace) (dest : Operand) (count : Nat) (mask : Mask) (sub : Int)
    (register : Register) : Prop where
  ratio : dest.storage.ratio = 1
  mask : mask = 15
  count : count = 4
  lanes : register.lanes = 4
  nonneg : 0 ≤ laneNumber dest.bank dest.num sub
  resolved : w.registers.resolved? dest.bank (laneNumber dest.bank dest.num sub).toNat =
    some ⟨register, 0⟩
  held : dest.bank.isShadowed = true →
    (w.registers.held? dest.bank (laneNumber dest.bank dest.num sub).toNat).isSome = true

theorem emits_wholeRegister? (dest : Operand) (shape : Shape) (mask : Mask) (sub : Int) :
    Emits (.keeps start) (wholeRegister? dest shape mask sub) w s
      (fun found w' _ => ∀ register ∈ found, WholeRegister w' dest shape.count mask sub register)
      (fun _ _ => dest.storage.ratio = 1 ∧ mask = 15 ∧
        ¬ w.registers.Reaches dest.bank (laneNumber dest.bank dest.num sub) true) := by
  rw [wholeRegister?]
  by_cases hshape : dest.storage.ratio = 1 ∧ mask = 15 ∧ shape.count = 4
  · rw [if_pos (by simpa [and_assoc] using hshape)]
    refine ((emits_resolve dest.num sub true).fails
      fun _ _ h => ⟨hshape.1, hshape.2.1, h.unreached⟩).bind fun found w1 s1 k1 h1 => ?_
    by_cases hfound : found.offset = 0 ∧ found.register.lanes = 4
    · rw [if_pos (by simpa using hfound)]
      refine .pure fun register hregister => ?_
      obtain rfl := Option.some.inj hregister
      have hres := h1.resolved
      rw [show found = ⟨found.register, 0⟩ by rw [← hfound.1]] at hres
      exact ⟨hshape.1, hshape.2.1, hshape.2.2, hfound.2, h1.reached.1, hres,
        fun hb => by rw [h1.held rfl hb]; rfl⟩
    · rw [if_neg (by simpa using hfound)]
      exact .pure (by simp)
  · rw [if_neg (by simpa [and_assoc] using hshape)]
    exact .pure (by simp)

/-- Each lane of the register is the lane of the bank with that distance from the destination. -/
theorem WholeRegister.resolved?_lane {l : Listing}
    (h : WholeRegister w dest count mask sub register) (hr : w.registers.WellFormed l) {lane : Nat}
    (hn : n < 4) (hlane : laneNumber dest.bank dest.num (sub + n) = lane) :
    w.registers.resolved? dest.bank lane = some ⟨register, n⟩ := by
  rw [laneNumber_add] at hlane
  have hnonneg := h.nonneg
  have hlanes := h.lanes
  have := hr.resolved?_run (j := n) h.resolved (by simp only; omega) fun hnone => ?_
  · rwa [show (laneNumber dest.bank dest.num sub).toNat + n = lane by omega,
      Nat.zero_add] at this
  · have hb : ¬ dest.bank.isShadowed = true := fun hb => by
      have := h.held hb
      rw [hnone] at this
      exact absurd this (by simp)
    rw [held?, if_neg hb]

theorem WholeRegister.writes {w' : Workspace} {s' : State}
    (h : WholeRegister w dest count mask sub register) (good : Good w s)
    (hr : Replaces w s w' s' dest.bank (fun found => taken = true ∧ found.register = register)
      fun lane => f (lane - register.base)) :
    Writes w s w' s' dest.bank fun lane => if taken = true then
      newLanes dest.bank dest.num sub (range 4) f lane else none := by
  have hcov := (good.registers.resolved?_covers h.resolved).1
  have hlanes := h.lanes
  have hnonneg := h.nonneg
  simp only at hcov
  refine .of_replaces hr (fun lane x hx => ?_) fun lane found hres hnew => ?_
  · obtain ⟨htaken, n, hn, hlane, rfl⟩ := newLanes_taken.1 hx
    have hres := h.resolved?_lane good.registers (mem_range.1 hn) hlane
    rw [laneNumber_add] at hlane
    refine ⟨_, hres, ⟨htaken, rfl⟩, congrArg f (by omega), fun hb => ?_⟩
    obtain ⟨found, hfound⟩ := Option.isSome_iff_exists.1 (h.held hb)
    have hfirst := h.resolved
    rw [resolved?, hfound, Option.some_or, Option.some.injEq] at hfirst
    have hoff := (good.registers.held?_eq_some hfound).2.1
    have hn' := mem_range.1 hn
    rw [hfirst] at hoff
    simp only at hoff
    cases hheld : w.registers.held? dest.bank lane with
    | some _ => rfl
    | none =>
      rw [held?_group (by omega) hheld] at hfound
      cases hfound
  · obtain ⟨hcov', hlt, -⟩ := good.registers.resolved?_covers hres
    rw [hnew.2] at hcov' hlt
    refine newLanes_ne_none f hnew.1 (n := found.offset) (mem_range.2 (by omega)) ?_
    rw [laneNumber_add]
    omega

theorem emits_storeWhole (hv : Holds w s v source xs)
    (h : WholeRegister w dest xs.length mask sub register) (hc : Permits w s condition taken)
    {E : Error → Workspace → Prop} :
    Emits (.alters start) (do
        let typed ← coerce v dest.storage.scalar true
        writeRegister register (← coerce typed .f32 true) condition) w s
      (fun _ w' s' => Replaces w s w' s' dest.bank
        (fun found => taken = true ∧ found.register = register)
        fun lane => dest.storage.written source xs mask (lane - register.base)) E := by
  have hnew : xs.map (coerced source dest.storage.scalar true) =
      (range 4).map (dest.storage.written source xs mask) := by
    refine ext_getElem (by simp [h.count]) fun i hi _ => ?_
    have hi' : i < xs.length := by simpa using hi
    rw [getElem_map, getElem_map, getElem_range, written,
      componentFor_four h.count, getD_eq_getElem _ _ hi', h.ratio]
    rfl
  refine Emits.bind (computes_coerce hv dest.storage.scalar true _).rel.keeps.alters
    fun typed w1 s1 _ h1 => ?_
  obtain ⟨-, q1, htyped⟩ := h1
  refine Emits.bind (computes_coerce htyped .f32 true _).rel.keeps.alters fun bits w2 s2 _ h2 => ?_
  obtain ⟨-, q2, hbits⟩ := h2
  rw [show coerced dest.storage.scalar .f32 true = id from
    funext fun x => coerced_bits dest.storage.scalar_ne_bool x, map_id, hnew, ← h.lanes] at hbits
  have q := q1.trans q2
  have hf : w2.registers.resolved? dest.bank _ = some ⟨register, 0⟩ := q.registers ▸ h.resolved
  refine (emits_replaceRegister (fun _ => True)
    (g := fun lane => dest.storage.written source xs mask (lane - register.base)) hf
    (by simpa using hbits) (hc.steps q.live q.steps)).gives fun _ _ _ _ h3 => ?_
  simpa only [and_true] using h3.after_quiet q

/-- A write of four whole lanes has the effect of four writes of one lane. -/
theorem WholeRegister.stores {w' : Workspace} {s' : State} {encoding : HalfEncoding}
    (h : WholeRegister w dest count mask sub register) (good : Good w s)
    (hr : Replaces w s w' s' dest.bank (fun found => taken = true ∧ found.register = register)
      fun lane => f (lane - register.base)) :
    Stores w s w' s' dest encoding mask sub f taken := by
  have hmask : Mask.components mask = range 4 := by rw [h.mask]; decide
  have hlanes : dest.writtenLanes mask = range 4 := by rw [writtenLanes_whole h.ratio, hmask]
  refine ⟨f, ?_, fun n hn => ?_⟩
  · rw [hlanes]
    exact h.writes good hr
  · have hn' : n ∈ Mask.components mask := by rw [hmask, ← hlanes]; exact hn
    have hnonneg : 0 ≤ laneNumber dest.bank dest.num (sub + n) := by
      have := h.nonneg
      rw [laneNumber_add]
      omega
    have hres := h.resolved?_lane good.registers (by rw [hlanes] at hn; exact mem_range.1 hn)
      (Int.toNat_of_nonneg hnonneg).symm
    refine ⟨⟨hnonneg, by rw [hr.registers, hres]; rfl⟩, dest.before w.registers s (sub + n),
      fun x hx => ?_, ?_⟩
    · rw [before, shown, hx, Option.getD_some]
    · rw [merged_whole h.ratio _ _ hn']

/-- Both ways to write a register have the effect of a store. -/
theorem emits_storeRegister (sub : Int) (hv : Holds w s v source xs)
    (hc : Permits w s condition taken) :
    Emits (.alters start) (storeRegister ctx dest v mask sub condition) w s
      (fun _ w' s' => Stores w s w' s' dest ctx.halfEncoding mask sub
        (dest.storage.written source xs mask) taken)
      (fun _ _ => Unwritable w.registers dest.bank dest.num sub (dest.writtenLanes mask)) := by
  rw [storeRegister]
  refine Emits.shapeOf ?_
  rw [hv.shape]
  refine Emits.bind ((emits_wholeRegister? dest _ mask sub).fails
    fun e w' he => ?_).alters fun found w1 s1 _ h1 => ?_
  · obtain ⟨hratio, hmask, hreach⟩ := he
    refine ⟨0, ?_, .inr ?_⟩
    · rw [writtenLanes_whole hratio, hmask]
      decide
    · rwa [Int.natCast_zero, Int.add_zero]
  obtain ⟨k1, hwhole⟩ := h1
  have hv1 := hv.advances k1.toAdvances
  have hc1 := hc.steps k1.good.live k1.steps
  cases found with
  | some register =>
    exact (emits_storeWhole hv1 (hwhole register rfl) hc1).gives fun _ _ _ _ h =>
      ((hwhole register rfl).stores k1.good' h).after_keeps k1
  | none =>
    exact (emits_storeLanes ctx sub hv1 hc1).mono (fun _ _ _ _ h => h.after_keeps k1)
      fun _ _ he => he.before k1

theorem store_of_isRegister (hbank : dest.bank.isRegister = true) (v : Value) (mask : Mask)
    (sub : Int) (condition : Option Value) :
    Access.store ctx dest v mask sub condition =
      if mask % 16 = 0 then pure () else storeRegister ctx dest v (mask % 16) sub condition := by
  rw [Access.store]
  by_cases hmask : mask % 16 = 0
  · simp only [if_pos hmask]
  · simp only [if_neg hmask]
    generalize hb : dest.bank = bank at hbank
    cases bank <;> simp_all [Bank.isRegister]

theorem emits_store_value (hbank : dest.bank.isRegister = true) (mask : Mask) (sub : Int)
    (hv : Holds w s v source xs) (hc : Permits w s condition taken) :
    Emits (.alters start) (Access.store ctx dest v mask sub condition) w s
      (fun _ w' s' => Stores w s w' s' dest ctx.halfEncoding mask sub
        (dest.storage.written source xs mask) taken)
      (fun _ _ => Unwritable w.registers dest.bank dest.num sub (dest.writtenLanes mask)) := by
  have hlanes : dest.writtenLanes (mask % 16) = dest.writtenLanes mask := by
    rw [writtenLanes, writtenLanes, Mask.components_mod]
  rw [store_of_isRegister ctx hbank]
  by_cases hmask : mask % 16 = 0
  · rw [if_pos hmask]
    have hnone : dest.writtenLanes mask = [] := by
      rw [← hlanes, hmask, writtenLanes, show Mask.components 0 = [] by decide]
      simp
    refine .pure ⟨fun _ => 0#32, ?_, by simp [hnone]⟩
    rw [hnone]
    have hnews : (fun lane => if taken = true then newLanes dest.bank dest.num sub [] (fun _ => 0#32)
        lane else none) = fun _ => none := by
      funext lane
      simp [newLanes]
    rw [hnews]
    exact ⟨fun h => absurd h (by simp), fun _ _ _ h => absurd h (by simp), fun _ h => h, fun _ => rfl⟩
  · rw [if_neg hmask, ← hlanes]
    refine (emits_storeRegister ctx sub hv hc).gives fun _ w' s' _ h => ?_
    have hwritten : dest.storage.written source xs (mask % 16) = dest.storage.written source xs mask := by
      funext channel
      rw [written, written, Mask.rank, Mask.rank, Mask.components_mod]
    rw [Stores, hlanes, hwritten] at h
    simpa only [Stores, merged, Mask.components_mod] using h

end

/-! ## Stores on a machine -/

theorem holds_of_shape (hv : w.listing.Defines v) (hshape : w.listing.shapeOf v = ⟨scalar, count⟩)
    (hpos : 0 < count) (hwidth : count ≤ 4) :
    Holds w s v scalar ((range count).map (s.lanes v).get) :=
  ⟨hv, by simpa using hshape, by simpa using hpos, by simpa using hwidth, fun i hi => by
    rw [getD_eq_getElem _ _ hi, getElem_map, getElem_range]⟩

/-- A store whose lanes can be resolved succeeds. -/
theorem Workspace.Ready.exists_store (ready : w.Ready) (ctx : Context) {dest : Operand}
    {mask : Mask} (separate : w.registers.Separate) (register : dest.bank.isRegister = true)
    (defined : w.listing.Defines v) (shape : w.listing.shapeOf v = ⟨scalar, count⟩)
    (width : 1 ≤ count ∧ count ≤ 4)
    (writable : ¬ Unwritable w.registers dest.bank dest.num sub (dest.writtenLanes mask)) :
    ∃ w', Access.store ctx dest v mask sub none w = .ok () w' := by
  obtain ⟨s, good⟩ := ready.exists_good
  have spec : Emits (.alters fun _ _ => .replicate 0#32) (Access.store ctx dest v mask sub none) w s
      _ _ := emits_store_value ctx register mask sub
    (holds_of_shape defined shape width.1 width.2) (show Permits w s none true from rfl)
  obtain ⟨_, w', _, hok, -⟩ :=
    (spec.fails fun _ _ => writable).exists_ok ⟨good, separate⟩
  exact ⟨w', hok⟩

section

variable {dest : Operand} {mask : Mask} {f : Nat → Lane}

theorem decode_merged (encoding : HalfEncoding) (hexact : dest.storage.isExact = true) (old : Lane)
    {i : Nat} (hi : i ∈ Mask.components mask) :
    dest.storage.decode encoding (dest.merged encoding mask f old (i / dest.storage.ratio))
      (i % dest.storage.ratio) = dest.storage.wrap (f i) := by
  have hlt := Nat.mod_lt i dest.storage.ratio_pos
  rw [merged, decode_pack encoding hexact (by simp) hlt,
    getD_eq_getElem _ _ (by simpa using hlt), getElem_map, getElem_range,
    Nat.div_add_mod', if_pos hi]

theorem field_merged (encoding : HalfEncoding) (hexact : dest.storage.isExact = true) (old : Lane)
    {k : Nat} (hk : k < dest.storage.ratio)
    (hnot : n * dest.storage.ratio + k ∉ Mask.components mask) :
    field dest.storage.width (dest.merged encoding mask f old n) k =
      field dest.storage.width old k := by
  rw [merged, field_pack encoding (by simp) hk, getD_eq_getElem _ _ (by simpa using hk),
    getElem_map, getElem_range, if_neg hnot, encode_decode encoding hexact old hk]

end

/-- The two attributes, and a number to store. -/
def numberedAttributes : Workspace :=
  { twoAttributes with listing := (twoAttributes.listing.define (.constant (.i32 70000#32))).2 }

theorem ready_numberedAttributes : numberedAttributes.Ready :=
  ⟨⟨rfl, rfl⟩, rfl, fresh_twoAttributes.wellFormed.mono (Listing.extends_define _ _)⟩

/-- Signed halves that start in the one attribute and end in the other. -/
def halvesDestination : Operand := { bank := .primaryAttribute, num := 1, element := .s16 }

theorem endsAt_numberedAttributes (lane : Nat) :
    numberedAttributes.registers.EndsAt .primaryAttribute lane := by
  intro base binding hc
  have := (OrderedMap.floorList_mem hc).1
  have hmem : (base, binding) = (0, .vector ⟨0, []⟩ 2) ∨ (base, binding) = (2, .vector ⟨1, []⟩ 1) := by
    simpa [numberedAttributes, twoAttributes] using this
  rcases hmem with h | h <;> obtain ⟨rfl, rfl⟩ := Prod.mk.inj h <;> decide

theorem not_unwritable_halves : ¬ Unwritable numberedAttributes.registers
    halvesDestination.bank halvesDestination.num 0 (halvesDestination.writtenLanes 6) := by
  rintro ⟨n, hn, h⟩
  have hn' : n = 0 ∨ n = 1 := by
    rw [show halvesDestination.writtenLanes 6 = [0, 1] by decide] at hn
    simpa using hn
  have reached : numberedAttributes.registers.Reaches .primaryAttribute
      (laneNumber .primaryAttribute 1 (0 + n)) true := by
    rcases hn' with rfl | rfl <;>
      exact ⟨by decide, by decide, .inr ⟨by decide, fun _ _ => endsAt_numberedAttributes _⟩⟩
  rcases h with h | h
  · omega
  · exact h reached

theorem exists_store_halves :
    ∃ w', Access.store {} halvesDestination ⟨0⟩ 6 0 none numberedAttributes = .ok () w' := by
  have defined : numberedAttributes.listing.Defines ⟨0⟩ := show 0 < 1 by decide
  have shape : numberedAttributes.listing.shapeOf ⟨0⟩ = ⟨.i32, 1⟩ := rfl
  exact ready_numberedAttributes.exists_store {} fresh_twoAttributes.separate rfl defined shape
    (by decide) not_unwritable_halves

end Microcode
