import Microcode.Proofs.Storing

/-!
Code that only computes, on a machine.

Packing puts integers into the fields of a lane and unpacking takes them out again: neither loses a
bit of a lane, and a number comes back cut to the width of its field.  A swizzle reads two values as
one, of which the second continues the first.
-/

namespace Microcode

open Machine Emit Access List

variable {w : Workspace} {scalar : Scalar} {count : Nat}

/-- What code computes from a value is the same on every machine of a program that the code is part
of. -/
theorem Workspace.exists_computed {x : Emit Value} {lanes : State → List Lane}
    (consistent : w.listing.Consistent) (target : w.listing.target = .machine)
    (spec : ∀ start s, Computes start x w s scalar (lanes s))
    (hcount : ∀ s, (lanes s).length = count) :
    ∃ v w', x w = .ok v w' ∧ w'.listing.shapeOf v = ⟨scalar, count⟩ ∧
      ∀ l : Listing, w'.listing.entries.toList <+: l.entries.toList →
        (Program.ofListing w.listing).Within (.ofListing l) ∧
        ∀ S : State, S.Loaded (.ofListing l) → ∀ j, j < count →
          (S.runSince (.ofListing l) w.listing w'.listing).lane (.ofListing l) v j =
            (lanes (S.upTo w.listing)).getD j 0#32 := by
  obtain ⟨s, hs⟩ := w.listing.exists_fits
  obtain ⟨v, w', s', hok, hquiet, hv⟩ :=
    (spec (fun _ _ => .replicate 0#32) s fun _ _ => False).exists_ok ⟨hs, target⟩
  refine ⟨v, w', hok, by rw [hv.shape, hcount], fun l hl => ?_⟩
  have hin' := Program.within_ofListing hl
  have hin := hquiet.steps.within.trans hin'
  refine ⟨hin, fun S hS j hj => ?_⟩
  obtain ⟨s₁, hquiet₁, hv₁⟩ := (spec S.held (S.upTo w.listing) fun _ _ => False).of_ok
    ⟨State.fits_upTo consistent hS hin, target⟩ hok
  obtain ⟨hconsistent, -, hshows⟩ := hquiet₁.steps.runSince consistent hS hin' hin
  exact hshows.lane hconsistent hin' hv₁ (by rw [hcount]; exact hj)

theorem lane_upTo {S : State} {p : Program} {v : Value} (consistent : w.listing.Consistent)
    (hp : (Program.ofListing w.listing).Within p) (defined : w.listing.Defines v)
    (shape : w.listing.shapeOf v = ⟨scalar, count⟩) (width : 1 ≤ count ∧ count ≤ 4) {j : Nat}
    (hj : j < count) : ((S.upTo w.listing).lanes v).get j = S.lane p v j := by
  have hholds := holds_of_shape (s := S.upTo w.listing) defined shape width.1 width.2
  rw [(State.shows_upTo w.listing S).lane consistent hp hholds (by simpa using hj),
    getD_eq_getElem _ _ (by simpa using hj), getElem_map, getElem_range]

/-! ## Packing -/

theorem eq_of_fields {width n : Nat} (hn : width * n = 32) {a b : Lane}
    (h : ∀ k, k < n → field width a k = field width b k) : a = b := by
  refine BitVec.eq_of_getLsbD_eq fun i hi => ?_
  have hwidth : 0 < width := Nat.pos_of_ne_zero fun h0 => by simp [h0] at hn
  have hbit := congrArg (BitVec.getLsbD · (i % width))
    (h (i / width) (Nat.div_lt_of_lt_mul (hn ▸ hi)))
  simpa only [getLsbD_field, Nat.mod_lt i hwidth, decide_true, Bool.true_and, Nat.div_add_mod]
    using hbit

theorem Element.pack_decode {e : Element} (encoding : HalfEncoding) (he : e.isExact = true)
    (lane : Lane) :
    e.pack encoding ((List.range e.ratio).map (e.decode encoding lane)) = lane := by
  refine eq_of_fields (show e.width * e.ratio = 32 by cases e <;> rfl) fun k hk => ?_
  rw [field_pack encoding (by simp) hk, getD_eq_getElem _ _ (by simpa using hk),
    getElem_map, getElem_range, encode_decode encoding he lane hk]

theorem toInt_signExtend_setWidth (x : Lane) {n : Nat} (hn : n ≤ 32) :
    ((x.setWidth n).signExtend 32).toInt = x.toInt.bmod (2 ^ n) := by
  rw [BitVec.toInt_signExtend_of_le hn, BitVec.toInt_setWidth, BitVec.toInt_eq_toNat_bmod,
    Int.bmod_bmod_of_dvd (Nat.pow_dvd_pow 2 hn)]

/-- Bytes that count from -128 on. -/
theorem toInt_biased (x : Lane) :
    (((x + 128#32).setWidth 8).setWidth 32 - 128#32).toInt = x.toInt.bmod (2 ^ 8) := by
  have hbyte : (((x + 128#32).setWidth 8).setWidth 32).toInt = ((x.toNat : Int) + 128) % 256 := by
    have hbias : (128#32).toNat = 128 := rfl
    rw [BitVec.toInt_eq_toNat_of_lt] <;> simp only [BitVec.toNat_setWidth, BitVec.toNat_add] <;> omega
  rw [BitVec.toInt_sub, BitVec.toInt_eq_toNat_bmod x, Int.bmod_bmod_of_dvd (by decide), hbyte,
    show (128#32).toInt = 128 by decide]
  simp only [Int.bmod_def]
  omega

/-- The number that an integer field holds differs from the one that was written by a multiple of
the field's range: it is the one from zero on, or, of signed numbers, the one around zero. -/
theorem Element.wrap_mod {e : Element} (exact : e.isExact = true) (several : 1 < e.ratio)
    (x : Lane) : if e.isSigned then (e.wrap x).toInt = x.toInt.bmod (2 ^ e.width)
      else (e.wrap x).toNat = x.toNat % 2 ^ e.width := by
  have unsigned {n : Nat} (hn : n ≤ 32) : ((x.setWidth n).setWidth 32).toNat = x.toNat % 2 ^ n := by
    rw [BitVec.toNat_setWidth, BitVec.toNat_setWidth]
    exact Nat.mod_eq_of_lt (Nat.lt_of_lt_of_le (Nat.mod_lt _ (Nat.two_pow_pos n))
      (Nat.pow_le_pow_right (by decide) hn))
  cases e with
  | f16 | c10 => exact absurd exact (by decide)
  | f32 | s32 | u32 | unknown => exact absurd several (by decide)
  | s8 | s16 => exact toInt_signExtend_setWidth x (by decide)
  | u8 | u16 => exact unsigned (by decide)
  | o8 => exact toInt_biased x

/-- Integers are packed one to one.  A lane that is unpacked and packed again has the same bits, and
numbers that are packed and unpacked again are each cut to the width of their own field. -/
theorem packing_exact (ctx : Context) (e : Element) (exact : e.isExact = true) (several : 1 < e.ratio)
    (w : Workspace) (consistent : w.listing.Consistent) (target : w.listing.target = .machine)
    (v : Value) (defined : w.listing.Defines v) :
    (w.listing.shapeOf v = Shape.f32 →
      ∃ u w', (do packLane ctx (← unpackLane ctx v e) e) w = .ok u w' ∧
        w'.listing.shapeOf u = Shape.f32 ∧
        ∀ l : Listing, w'.listing.entries.toList <+: l.entries.toList →
        ∀ S : State, S.Loaded (.ofListing l) →
          (S.runSince (.ofListing l) w.listing w'.listing).lane (.ofListing l) u 0 =
            S.lane (.ofListing l) v 0) ∧
    (w.listing.shapeOf v = ⟨e.scalar, e.ratio⟩ →
      ∃ u w', (do unpackLane ctx (← packLane ctx v e) e) w = .ok u w' ∧
        w'.listing.shapeOf u = ⟨e.scalar, e.ratio⟩ ∧
        ∀ l : Listing, w'.listing.entries.toList <+: l.entries.toList →
        ∀ S : State, S.Loaded (.ofListing l) → ∀ k, k < e.ratio →
          let x := S.lane (.ofListing l) v k
          let y := (S.runSince (.ofListing l) w.listing w'.listing).lane (.ofListing l) u k
          if e.isSigned then y.toInt = x.toInt.bmod (2 ^ e.width)
          else y.toNat = x.toNat % 2 ^ e.width) := by
  refine ⟨fun shape => ?_, fun shape => ?_⟩
  · have spec (start : Nat → Nat → Lanes) (s : State) :
        Computes start (do packLane ctx (← unpackLane ctx v e) e) w s .f32 [(s.lanes v).get 0] := by
      refine (computes_unpackLane ctx (holds_of_shape defined shape (by decide) (by decide)) e).bind
        fun elements w1 s1 _ helements => ?_
      refine (computes_packLane ctx helements (by simp)).of_eq ?_
      rw [Element.pack_decode ctx.halfEncoding exact]
    obtain ⟨u, w', hok, hshape, hrun⟩ := Workspace.exists_computed consistent target spec fun _ => rfl
    refine ⟨u, w', hok, hshape, fun l hl S hS => ?_⟩
    obtain ⟨hin, hlanes⟩ := hrun l hl
    rw [hlanes S hS 0 (by decide)]
    exact lane_upTo consistent hin defined shape (by decide) Nat.one_pos
  · have hratio : 1 ≤ e.ratio ∧ e.ratio ≤ 4 := by cases e <;> decide
    have spec (start : Nat → Nat → Lanes) (s : State) :
        Computes start (do unpackLane ctx (← packLane ctx v e) e) w s e.scalar
          ((List.range e.ratio).map fun k => e.wrap ((s.lanes v).get k)) := by
      refine (computes_packLane ctx (holds_of_shape defined shape hratio.1 hratio.2) (by simp)).bind
        fun lane w1 s1 _ hlane => ?_
      refine (computes_unpackLane ctx hlane e).of_eq (map_congr_left fun k hk => ?_)
      have hk := mem_range.1 hk
      rw [Element.decode_pack ctx.halfEncoding exact (by simp) hk,
        getD_eq_getElem _ _ (by simpa using hk), getElem_map, getElem_range]
    obtain ⟨u, w', hok, hshape, hrun⟩ := Workspace.exists_computed consistent target spec
      fun _ => (length_map _).trans length_range
    refine ⟨u, w', hok, hshape, fun l hl S hS k hk => ?_⟩
    obtain ⟨hin, hlanes⟩ := hrun l hl
    have hlane := hlanes S hS k hk
    rw [getD_eq_getElem _ _ (by simpa using hk), getElem_map, getElem_range,
      lane_upTo consistent hin defined shape hratio hk] at hlane
    simp only [hlane]
    exact Element.wrap_mod exact several _

/-- A number of each scalar, and four of the integer. -/
def fourIntegers : Workspace :=
  { listing := [Op.constant (.f32 0x12345678#32), .constant (.i32 200#32),
      .construct [⟨1⟩, ⟨1⟩, ⟨1⟩, ⟨1⟩]].foldl (fun l op => (l.define op).2) { target := .machine } }

theorem consistent_fourIntegers : fourIntegers.listing.Consistent := ⟨rfl, rfl⟩

theorem packing_exact_bytes : let ctx : Context := {}
    (∃ u w', (do packLane ctx (← unpackLane ctx ⟨0⟩ .o8) .o8) fourIntegers = .ok u w' ∧
      ∀ S : State, S.Loaded (.ofListing w'.listing) →
        (S.runSince (.ofListing w'.listing) fourIntegers.listing w'.listing).lane
          (.ofListing w'.listing) u 0 = S.lane (.ofListing w'.listing) ⟨0⟩ 0) ∧
    ∃ u w', (do unpackLane ctx (← packLane ctx ⟨2⟩ .o8) .o8) fourIntegers = .ok u w' ∧
      ∀ S : State, S.Loaded (.ofListing w'.listing) →
        ((S.runSince (.ofListing w'.listing) fourIntegers.listing w'.listing).lane
          (.ofListing w'.listing) u 3).toInt =
            (S.lane (.ofListing w'.listing) ⟨2⟩ 3).toInt.bmod 256 := by
  have packing (v : Value) := packing_exact {} .o8 rfl (by decide) fourIntegers
    consistent_fourIntegers rfl v
  obtain ⟨u, w', hok, -, hrun⟩ := (packing ⟨0⟩ (show 0 < 3 by decide)).1 rfl
  obtain ⟨u', w'', hok', -, hrun'⟩ := (packing ⟨2⟩ (show 2 < 3 by decide)).2 rfl
  exact ⟨⟨u, w', hok, fun S hS => hrun _ prefix_rfl S hS⟩,
    u', w'', hok', fun S hS => hrun' _ prefix_rfl S hS 3 (by decide)⟩

/-! ## Swizzles -/

/-- Component `k` of two values, the second continuing the first, which has `count` components. -/
def Machine.State.joined (p : Program) (S : State) (left right : Value) (count k : Nat) : Lane :=
  if k < count then S.lane p left k else S.lane p right (k - count)

/-- A swizzle gives one component for each bit of the mask: for a storage channel the component of
the two values at its place, shifted, or the nearest one there is, and for another one its number in
the scalar of the values. -/
theorem bridge_selects (w : Workspace) (consistent : w.listing.Consistent)
    (target : w.listing.target = .machine) (scalar : Scalar) (m n : Nat) (left right : Value)
    (defined : w.listing.Defines left ∧ w.listing.Defines right)
    (shapes : w.listing.shapeOf left = ⟨scalar, m⟩ ∧ w.listing.shapeOf right = ⟨scalar, n⟩)
    (widths : (1 ≤ m ∧ m ≤ 4) ∧ 1 ≤ n ∧ n ≤ 4) (swizzle : Swizzle) (shift : Int) (mask : Mask)
    (range : ∀ i ∈ Mask.components mask, ∀ c, (swizzle.get i).storage? = some c →
      -0x80000000 ≤ (c : Int) + shift ∧ (c : Int) + shift < 0x80000000) :
    ∃ v w', bridge left right swizzle shift mask w = .ok v w' ∧
      w'.listing.shapeOf v = ⟨scalar, Mask.count mask⟩ ∧
      ∀ l : Listing, w'.listing.entries.toList <+: l.entries.toList →
      ∀ S : State, S.Loaded (.ofListing l) → ∀ j i, (Mask.components mask)[j]? = some i →
        (S.runSince (.ofListing l) w.listing w'.listing).lane (.ofListing l) v j =
          match (swizzle.get i).storage? with
          | some c => S.joined (.ofListing l) left right m
              (min (max 0 ((c : Int) + shift)) ((m : Int) + n - 1)).toNat
          | none => (Constant.ofNumber scalar (swizzle.get i).literal).lane := by
  by_cases hmask : Mask.components mask = []
  · -- Nothing is selected: a value without components.
    have hcount : w.listing.countOf left = m := congrArg Shape.count shapes.1
    have hok : bridge left right swizzle shift mask w = shuffle left right [] w := by
      show (do
        let picks ← (Mask.components mask).mapM fun i =>
          pick (w.listing.countOf left + w.listing.countOf right) shift (swizzle.get i)
        _ : Emit Value) w = _
      rw [hmask, hcount]
      have : ([] == List.range m) = false := by
        cases m with
        | zero => omega
        | succ m => simp [range_succ_eq_map]
      simp [literals, this]
    refine ⟨_, _, hok, (w.listing.shapeOf_define _).trans ?_, by simp [hmask]⟩
    show w.listing.shuffleShape left right [] = ⟨scalar, (Mask.components mask).length⟩
    simp [Listing.shuffleShape, hmask, shapes, Listing.scalarOf]
  let lanes (s : State) : List Lane := (List.range m).map (s.lanes left).get ++
    (List.range n).map (s.lanes right).get
  have spec (start : Nat → Nat → Lanes) (s : State) :
      Computes start (bridge left right swizzle shift mask) w s scalar
        ((Mask.components mask).map fun i => (swizzle.get i).lane scalar (lanes s) shift) :=
    computes_bridge (holds_of_shape defined.1 shapes.1 widths.1.1 widths.1.2)
      (holds_of_shape defined.2 shapes.2 widths.2.1 widths.2.2) swizzle shift hmask range
  obtain ⟨v, w', hok, hshape, hrun⟩ := Workspace.exists_computed consistent target spec
    fun _ => length_map _
  refine ⟨v, w', hok, hshape, fun l hl S hS j i hji => ?_⟩
  obtain ⟨hin, hlanes⟩ := hrun l hl
  obtain ⟨hj, rfl⟩ := List.getElem?_eq_some_iff.1 hji
  rw [hlanes S hS j hj, getD_eq_getElem _ _ (by simpa using hj), getElem_map, Channel.lane,
    picked]
  cases hc : (swizzle.get (Mask.components mask)[j]).storage? with
  | none => rfl
  | some c =>
    have hlength : (lanes (S.upTo w.listing)).length = m + n := by simp [lanes]
    simp only [Pick.lane, hlength, State.joined, Nat.cast_add]
    generalize hk : (min (max 0 ((c : Int) + shift)) ((m : Int) + n - 1)).toNat = k
    have hlt : k < m + n := by omega
    by_cases hleft : k < m
    · rw [if_pos hleft, getD_append _ _ _ _ (by simpa using hleft),
        getD_eq_getElem _ _ (by simpa using hleft), getElem_map, getElem_range]
      exact lane_upTo consistent hin defined.1 shapes.1 widths.1 hleft
    · have hright : k - m < n := by omega
      rw [if_neg hleft, getD_append_right _ _ _ _ (by simpa using hleft), length_map,
        length_range, getD_eq_getElem _ _ (by simpa using hright), getElem_map,
        getElem_range]
      exact lane_upTo consistent hin defined.2 shapes.2 widths.2 hright

/-- The second integer, the number two, and the last component there is. -/
theorem bridge_selects_clamped : ∃ v w',
    bridge ⟨1⟩ ⟨2⟩ ⟨.y, .two, .undefined, .w⟩ 1 0b1011 fourIntegers = .ok v w' ∧
      w'.listing.shapeOf v = ⟨.i32, 3⟩ ∧ ∀ S : State, S.Loaded (.ofListing w'.listing) →
        let p := Program.ofListing w'.listing
        let T := S.runSince p fourIntegers.listing w'.listing
        T.lane p v 0 = S.lane p ⟨2⟩ 1 ∧ T.lane p v 1 = 2#32 ∧ T.lane p v 2 = S.lane p ⟨2⟩ 3 := by
  obtain ⟨v, w', hok, hshape, hrun⟩ := bridge_selects fourIntegers consistent_fourIntegers rfl .i32 1 4
    ⟨1⟩ ⟨2⟩ ⟨show 1 < 3 by decide, show 2 < 3 by decide⟩ (by decide) (by decide)
    ⟨.y, .two, .undefined, .w⟩ 1 0b1011 (by decide)
  refine ⟨v, w', hok, hshape, fun S hS => ⟨?_, ?_, ?_⟩⟩
  · exact hrun _ prefix_rfl S hS 0 0 rfl
  · exact hrun _ prefix_rfl S hS 1 1 rfl
  · exact hrun _ prefix_rfl S hS 2 3 rfl

end Microcode
