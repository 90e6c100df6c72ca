import PenStroke.Proofs.DoubleArithmetic

/-! Doubles within a power of two. A sum of values within bounds is within the next power of two,
and a product within the product of the powers, so that a calculation with bounds far enough below
the largest double stays finite. -/
namespace PenStroke.Binary64

open Float.Model Float.Model.UnpackedFloat

section Sums
variable {s t : Sign} {x y : UnpackedFloat}

theorem InRange.neg (h : InRange s x) : InRange (-s) x.neg := by
  cases h with
  | zero s' => exact .zero _
  | finite hm h => exact .finite hm h

theorem InRange.abs (h : InRange s x) : InRange .positive x.abs := by
  cases h with
  | zero s' => exact .zero _
  | finite hm h => exact .finite hm h

theorem magnitude_neg (x : UnpackedFloat) : magnitude x.neg = magnitude x := by
  cases x <;> rfl

theorem magnitude_abs (x : UnpackedFloat) : magnitude x.abs = magnitude x := by
  cases x <;> rfl

theorem natAbs_apply (s : Sign) (m : ℤ) : (s.apply m).natAbs = m.natAbs := by
  cases s with
  | positive => rfl
  | negative => exact Int.natAbs_neg m

theorem apply_neg (s : Sign) (m : ℤ) : (-s).apply m = -s.apply m := by
  cases s with
  | positive => rfl
  | negative => exact (neg_neg m).symm

/-- To subtract is to add with the other sign. -/
theorem sub_eq_add_neg (x y : UnpackedFloat) :
    UnpackedFloat.sub Format.binary64 x y = UnpackedFloat.add Format.binary64 x y.neg := by
  cases x with
  | notANumber => rfl
  | infinity s | zero s => cases y <;> rfl
  | finite s m e hm =>
    cases y with
    | notANumber | infinity t | zero t => rfl
    | finite t n f hn =>
      simp only [UnpackedFloat.sub, UnpackedFloat.add, UnpackedFloat.neg, apply_neg,
        Int.sub_eq_add_neg]

theorem exists_rounded_normalize (m e : ℤ) (zeroSign : Sign) :
    ∃ s, Rounded s (m.natAbs * 2 ^ e) (UnpackedFloat.normalize Format.binary64 m e zeroSign) := by
  cases m with
  | ofNat m => exact ⟨.positive, rounded_normalize m e zeroSign⟩
  | negSucc m =>
    have hlt : compare (Int.negSucc m) 0 = .lt := Int.compare_eq_lt.mpr (Int.negSucc_lt_zero m)
    refine ⟨.negative, ?_⟩
    simp only [UnpackedFloat.normalize, hlt, Int.neg_negSucc, Int.natAbs_negSucc]
    exact rounded_round (Nat.succ_pos m) e

/-- A sum is the rounding of a number that is no further from zero than the parts together. -/
theorem InRange.exists_rounded_add (hx : InRange s x) (hy : InRange t y) :
    ∃ u q, Rounded u q (UnpackedFloat.add Format.binary64 x y) ∧
      q ≤ magnitude x + magnitude y := by
  cases hx with
  | zero s' =>
    have hsum (p : UnpackedFloat) : magnitude (.zero s') + magnitude p = magnitude p := zero_add _
    rw [hsum]
    cases hy with
    | zero t' =>
      refine ⟨.positive, 0, ?_, le_rfl⟩
      rcases s' <;> rcases t' <;> exact .of_zero _ _
    | finite hn h' => exact ⟨t, _, .of_inRange (.finite hn h'), le_rfl⟩
  | @finite m e hm h =>
    cases hy with
    | zero t' => exact ⟨s, _, .of_inRange (.finite hm h), le_add_of_nonneg_right le_rfl⟩
    | @finite n f hn h' =>
      obtain ⟨unit, hunit⟩ : ∃ unit, unit = min e f := ⟨_, rfl⟩
      obtain ⟨u, hrounded⟩ := exists_rounded_normalize (s.apply (m <<< (e - unit).toNat : ℕ) +
        t.apply (n <<< (f - unit).toNat : ℕ)) unit .positive
      have hadd : UnpackedFloat.add Format.binary64 (.finite s m e hm) (.finite t n f hn) =
          UnpackedFloat.normalize Format.binary64 (s.apply (m <<< (e - unit).toNat : ℕ) +
            t.apply (n <<< (f - unit).toNat : ℕ)) unit .positive := by
        rw [hunit]
        rfl
      have hm' := natCast_shiftLeft_mul_zpow m (k := (e - unit).toNat) (f := unit) (e := e)
        (by omega)
      have hn' := natCast_shiftLeft_mul_zpow n (k := (f - unit).toNat) (f := unit) (e := f)
        (by omega)
      have hle := Int.natAbs_add_le (s.apply (m <<< (e - unit).toNat : ℕ))
        (t.apply (n <<< (f - unit).toNat : ℕ))
      rw [natAbs_apply, natAbs_apply, Int.natAbs_natCast, Int.natAbs_natCast] at hle
      refine ⟨u, _, hadd ▸ hrounded, ?_⟩
      rw [magnitude, magnitude, ← hm', ← hn', ← add_mul]
      exact mul_le_mul_of_nonneg_right (by exact_mod_cast hle) (by positivity)

end Sums

section Signs
variable {x : Float}

/-- Changing the sign of a double changes the sign of its parts. -/
theorem parts_neg (x : Float) : parts (-x) = (parts x).neg := by
  change UnpackedFloat.unpack Format.binary64
    (UnpackedFloat.pack Format.binary64 (parts x).neg) = (parts x).neg
  cases hx : parts x with
  | notANumber => rfl
  | infinity s | zero s => cases s <;> rfl
  | finite s m e hm => exact (canonical_of_parts hx).unpack_pack hm

theorem parts_abs (x : Float) : parts x.abs = (parts x).abs := by
  change UnpackedFloat.unpack Format.binary64
    (UnpackedFloat.pack Format.binary64 (parts x).abs) = (parts x).abs
  cases hx : parts x with
  | notANumber => rfl
  | infinity s | zero s => cases s <;> rfl
  | finite s m e hm => exact (canonical_of_parts hx).unpack_pack hm

theorem isFinite_neg (x : Float) : (-x).isFinite = x.isFinite := by
  change (parts (-x)).isFinite = (parts x).isFinite
  rw [parts_neg]
  cases parts x <;> rfl

end Signs

/-- Finite, and at most `2 ^ p` from zero. -/
structure Within (p : ℕ) (x : Float) : Prop where
  finite : x.isFinite = true
  le : magnitude (parts x) ≤ 2 ^ p

instance (p : ℕ) (x : Float) : Decidable (Within p x) :=
  decidable_of_iff (x.isFinite = true ∧ magnitude (parts x) ≤ 2 ^ p)
    ⟨fun h => ⟨h.1, h.2⟩, fun h => ⟨h.finite, h.le⟩⟩

theorem isMagnitude_two_zpow {p : ℤ} (hlow : -1074 ≤ p) (hhigh : p ≤ 1023) :
    IsMagnitude (2 ^ p) := by
  rcases le_or_gt p 971 with hp | hp
  · exact ⟨1, p, by decide, hlow, hp, by simp⟩
  · obtain ⟨k, rfl⟩ := Int.le.dest hp
    refine ⟨2 ^ 52, 920 + k, by decide, by omega, by omega, ?_⟩
    rw [Nat.cast_pow, Nat.cast_ofNat, ← zpow_natCast, ← zpow_add₀ two_ne_zero]
    congr 1
    omega

theorem isMagnitude_two_pow {p : ℕ} (h : p ≤ 1023) : IsMagnitude (2 ^ p) := by
  rw [← zpow_natCast]
  exact isMagnitude_two_zpow (by omega) (by omega)

namespace Within
variable {p q r : ℕ} {x y : Float}

theorem exists_inRange (h : Within p x) : ∃ s, InRange s (parts x) := isFinite_iff.mp h.finite

theorem of_rounded {s : Sign} {b : ℚ} {z : UnpackedFloat} (h : Rounded s b z) (hb : b ≤ 2 ^ p)
    (hp : p ≤ 1023) : Within p (.ofModel (.pack z)) := by
  have hpower := isMagnitude_two_pow hp
  have hrange := h.inRange hpower hb
  refine ⟨isFinite_iff.mpr ⟨s, ?_⟩, ?_⟩
  · rwa [hrange.parts_ofModel]
  · rw [hrange.parts_ofModel]
    exact h.le hpower hb

theorem mono (h : Within p x) (hq : p ≤ q) : Within q x :=
  ⟨h.finite, h.le.trans (pow_le_pow_right₀ one_le_two hq)⟩

theorem neg (h : Within p x) : Within p (-x) := by
  refine ⟨?_, ?_⟩
  · rw [isFinite_neg, h.finite]
  · rw [parts_neg, magnitude_neg]
    exact h.le

theorem abs (h : Within p x) : Within p x.abs := by
  obtain ⟨s, hx⟩ := h.exists_inRange
  refine ⟨isFinite_iff.mpr ⟨.positive, ?_⟩, ?_⟩
  · rw [parts_abs]
    exact hx.abs
  · rw [parts_abs, magnitude_abs]
    exact h.le

/-- A sum of values is less than twice the larger bound. -/
theorem add (hx : Within p x) (hy : Within q y) (h : p < r ∧ q < r ∧ r ≤ 1023) :
    Within r (x + y) := by
  obtain ⟨s, hx'⟩ := hx.exists_inRange
  obtain ⟨t, hy'⟩ := hy.exists_inRange
  obtain ⟨u, b, hrounded, hb⟩ := hx'.exists_rounded_add hy'
  refine .of_rounded hrounded (hb.trans ?_) h.2.2
  have hxr := (hx.mono (Nat.le_sub_one_of_lt h.1)).le
  have hyr := (hy.mono (Nat.le_sub_one_of_lt h.2.1)).le
  calc magnitude (parts x) + magnitude (parts y) ≤ 2 ^ (r - 1) + 2 ^ (r - 1) := add_le_add hxr hyr
    _ = 2 ^ (r - 1 + 1) := by ring
    _ = 2 ^ r := by rw [Nat.sub_add_cancel (by omega)]

theorem sub (hx : Within p x) (hy : Within q y) (h : p < r ∧ q < r ∧ r ≤ 1023) :
    Within r (x - y) := by
  have hsub : x - y = x + -y := by
    apply parts_injective
    change UnpackedFloat.unpack _
        (UnpackedFloat.pack _ (UnpackedFloat.sub _ (parts x) (parts y))) =
      UnpackedFloat.unpack _ (UnpackedFloat.pack _ (UnpackedFloat.add _ (parts x) (parts (-y))))
    rw [sub_eq_add_neg, parts_neg]
  rw [hsub]
  exact hx.add hy.neg h

theorem mul_of_le (hx : Within p x) (hy : y.isFinite = true)
    (h : magnitude (parts x) * magnitude (parts y) ≤ 2 ^ r) (hr : r ≤ 1023) :
    Within r (x * y) := by
  obtain ⟨s, hx'⟩ := hx.exists_inRange
  obtain ⟨t, hy'⟩ := isFinite_iff.mp hy
  exact .of_rounded (hx'.mul hy') h hr

theorem mul (hx : Within p x) (hy : Within q y) (h : p + q ≤ r ∧ r ≤ 1023) : Within r (x * y) := by
  refine hx.mul_of_le hy.finite ?_ h.2
  calc magnitude (parts x) * magnitude (parts y) ≤ 2 ^ p * 2 ^ q :=
        mul_le_mul hx.le hy.le (magnitude_nonneg _) (by positivity)
    _ = 2 ^ (p + q) := (pow_add ..).symm
    _ ≤ 2 ^ r := pow_le_pow_right₀ one_le_two h.1

end Within

theorem inRange_one : InRange .positive (parts 1) ∧ magnitude (parts 1) = 1 := by
  have h := inRange_ofNat (n := 1) (by decide)
  rwa [Nat.cast_one] at h

theorem within_ofNat {n p : ℕ} (hn : n ≤ 2 ^ 53) (h : n ≤ 2 ^ p) : Within p (Float.ofNat n) := by
  obtain ⟨hfinite, hmagnitude⟩ := inRange_ofNat hn
  refine ⟨isFinite_iff.mpr ⟨_, hfinite⟩, ?_⟩
  rw [hmagnitude]
  exact_mod_cast h

section Order
variable {p : ℕ} {x y : Float}

theorem standing_le_standing_abs (a : UnpackedFloat) : standing a ≤ standing a.abs := by
  rcases a with ⟨_ | _⟩ | _ | s | ⟨_ | _, m, e, hm⟩ <;>
    simp [standing, UnpackedFloat.abs, Prod.Lex.toLex_le_toLex]

theorem standing_abs {a : UnpackedFloat} (h : standing (.zero .positive) ≤ standing a) :
    standing a.abs = standing a := by
  rcases a with ⟨_ | _⟩ | _ | s | ⟨_ | _, m, e, hm⟩ <;>
    simp [standing, UnpackedFloat.abs, Prod.Lex.toLex_le_toLex] at h ⊢

/-- What is no further from zero than a value within a bound is within it too. -/
theorem Within.of_abs_le (hy : Within p y) (h : x.abs ≤ y) : Within p x := by
  obtain ⟨s, hy'⟩ := hy.exists_inRange
  obtain ⟨hx, -, hle⟩ := le_iff.mp h
  have hle := hle.trans (standing_le_standing_abs (parts y))
  rw [parts_abs] at hx hle
  have hrange : ∃ s, InRange s (parts x) := by
    cases hparts : parts x with
    | notANumber => exact absurd (by rw [hparts]; rfl) hx
    | zero t => exact ⟨t, .zero t⟩
    | finite t m e hm => exact ⟨t, .finite hm (canonical_of_parts hparts)⟩
    | infinity t =>
      have hy'' := hy'.abs
      rw [hparts] at hle
      generalize (parts y).abs = b at hy'' hle
      cases hy'' <;> simp [standing, UnpackedFloat.abs, Prod.Lex.toLex_le_toLex] at hle
  obtain ⟨t, hx'⟩ := hrange
  refine ⟨isFinite_iff.mpr ⟨t, hx'⟩, ?_⟩
  rw [← not_lt, hy'.abs.standing_lt_iff hx'.abs, not_lt, magnitude_abs, magnitude_abs] at hle
  exact hle.trans hy.le

/-- What is above zero has no negative sign. -/
theorem inRange_of_pos (hpos : 0 < x) (hfinite : x.isFinite = true) :
    InRange .positive (parts x) := by
  obtain ⟨s, hx⟩ := isFinite_iff.mp hfinite
  obtain ⟨-, -, hlt⟩ := lt_iff.mp hpos
  have hzero : parts 0 = .zero .positive := rfl
  rw [hzero] at hlt
  cases hx' : parts x with
  | infinity t | notANumber => rw [hx'] at hx; cases hx
  | zero t => exact .zero t
  | finite t m e hm =>
    cases t with
    | positive => exact .finite hm (canonical_of_parts hx')
    | negative =>
      rw [hx'] at hlt
      simp [standing, Prod.Lex.toLex_lt_toLex] at hlt

theorem magnitude_pos (hpos : 0 < x) (hfinite : x.isFinite = true) : 0 < magnitude (parts x) :=
  (lt_iff_magnitude (.zero .positive) (inRange_of_pos hpos hfinite)).mp hpos

theorem le_of_lt (h : x < y) : x ≤ y := by
  obtain ⟨hx, hy, hlt⟩ := lt_iff.mp h
  exact le_iff.mpr ⟨hx, hy, hlt.le⟩

theorem Within.of_nonneg_of_le (hy : Within p y) (hzero : 0 ≤ x) (hle : x ≤ y) : Within p x := by
  obtain ⟨-, hx, hpos⟩ := le_iff.mp hzero
  obtain ⟨-, hy', hle⟩ := le_iff.mp hle
  refine hy.of_abs_le (le_iff.mpr ⟨?_, hy', ?_⟩)
  · rw [parts_abs]
    intro hnone
    apply hx
    cases hparts : parts x <;> rw [hparts] at hnone <;> cases hnone
  · rw [parts_abs, standing_abs hpos]
    exact hle

theorem within_one : Within 0 1 := within_ofNat (n := 1) (by decide) (by decide)

/-- A share of the whole. -/
theorem within_of_mem_unit (hzero : 0 ≤ x) (hone : x ≤ 1) : Within 0 x :=
  within_one.of_nonneg_of_le hzero hone

end Order

end PenStroke.Binary64
