import PenStroke.Proofs.Exact

/-! Rounding to decimal places over an exact field. A value goes to the nearest multiple of the
last place that is kept, and from the middle between two of them to the one further from zero. No
other multiple fits this description, so how rounded values compare and what rounding does to its
own results follow from it. -/
namespace PenStroke

open AddSubgroup (zmultiples mem_zmultiples_iff)

variable {K : Type} [Field K]

theorem mem_zmultiples_mul_iff {unit c z : K} :
    z ∈ zmultiples (unit * c) ↔ ∃ w ∈ zmultiples unit, z = w * c := by
  constructor
  · intro h
    obtain ⟨n, rfl⟩ := mem_zmultiples_iff.mp h
    exact ⟨n • unit, mem_zmultiples_iff.mpr ⟨n, rfl⟩, (smul_mul_assoc n unit c).symm⟩
  · rintro ⟨w, hw, rfl⟩
    obtain ⟨n, rfl⟩ := mem_zmultiples_iff.mp hw
    exact mem_zmultiples_iff.mpr ⟨n, (smul_mul_assoc n unit c).symm⟩

/-- The last decimal place that is kept: at least none and at most six are. -/
def lastPlace (places : ℤ) : K := 10 ^ (-max 0 (min places 6))

variable [LinearOrder K]

/-- Rounding counts in units of the last place. -/
theorem Scalar.roundTo_eq [FloorRing K] (places : ℤ) (x : K) :
    Scalar.roundTo places x = Scalar.round (x / lastPlace places) * lastPlace places := by
  have hplaces : ((min places.toNat 6 : ℕ) : ℤ) = max 0 (min places 6) := by omega
  have hscale : ((Nat.pow 10 (min places.toNat 6) : ℕ) : K) = (lastPlace places)⁻¹ := by
    rw [lastPlace, ← hplaces, zpow_neg, inv_inv, zpow_natCast]
    exact Nat.cast_pow 10 _
  rw [Scalar.roundTo]
  simp only [Exact.isFinite_eq, if_true, hscale, div_inv_eq_mul, ← div_eq_mul_inv,
    Exact.numeral_zero]
  split_ifs with hzero
  · exact (beq_iff_eq.mp hzero).symm
  · rfl

/-- Among the multiples of `unit`, `y` is nearest to `x`; any other that is as near is closer to
zero. -/
structure IsNearestMultiple (unit x y : K) : Prop where
  mem : y ∈ zmultiples unit
  nearest : ∀ z ∈ zmultiples unit, |y - x| ≤ |z - x|
  tie : ∀ z ∈ zmultiples unit, |z - x| = |y - x| → z = y ∨ |z| < |y|

namespace IsNearestMultiple
variable {unit x y y' : K}

/-- The unit and the value determine the multiple. -/
theorem unique (h : IsNearestMultiple unit x y) (h' : IsNearestMultiple unit x y') : y = y' := by
  have hdistance : |y - x| = |y' - x| :=
    le_antisymm (h.nearest y' h'.mem) (h'.nearest y h.mem)
  rcases h.tie y' h'.mem hdistance.symm with heq | hlt
  · exact heq.symm
  · rcases h'.tie y h.mem hdistance with heq | hgt
    · exact heq
    · exact absurd hgt hlt.not_gt

theorem neg (h : IsNearestMultiple unit x y) : IsNearestMultiple unit (-x) (-y) := by
  have hdistance (z : K) : |z - -x| = |-z - x| := by rw [← abs_neg, neg_sub', neg_neg]
  refine ⟨neg_mem h.mem, fun z hz => ?_, fun z hz htie => ?_⟩
  · rw [hdistance, hdistance, neg_neg]
    exact h.nearest (-z) (neg_mem hz)
  · rw [hdistance, hdistance, neg_neg] at htie
    rw [← neg_eq_iff_eq_neg, abs_neg, ← abs_neg z]
    exact h.tie (-z) (neg_mem hz) htie

end IsNearestMultiple

variable [IsStrictOrderedRing K]

theorem lastPlace_pos (places : ℤ) : (0 : K) < lastPlace places := by
  unfold lastPlace
  positivity

/-- More places divide the unit. -/
theorem lastPlace_mem_zmultiples (places : ℤ) (more : ℕ) :
    (lastPlace places : K) ∈ zmultiples (lastPlace (places + more)) := by
  obtain ⟨k, hk⟩ : ∃ k : ℕ, -max 0 (min places 6) = k + -max 0 (min (places + more) 6) :=
    ⟨(max 0 (min (places + more) 6) - max 0 (min places 6)).toNat, by omega⟩
  refine mem_zmultiples_iff.mpr ⟨10 ^ k, ?_⟩
  rw [lastPlace, lastPlace, hk, zpow_add₀ (by norm_num), zpow_natCast, zsmul_eq_mul]
  norm_cast

namespace IsNearestMultiple
variable {unit x x' y y' z c : K}

theorem refl (hx : x ∈ zmultiples unit) : IsNearestMultiple unit x x where
  mem := hx
  nearest z _ := by
    rw [sub_self, abs_zero]
    exact abs_nonneg _
  tie z _ h := by
    rw [sub_self, abs_zero, abs_eq_zero] at h
    exact .inl (sub_eq_zero.mp h)

/-- A scale changes the unit, the value and what is nearest to it. -/
theorem mul_right (h : IsNearestMultiple unit x y) (hc : 0 < c) :
    IsNearestMultiple (unit * c) (x * c) (y * c) := by
  have hdistance (z : K) : |z * c - x * c| = |z - x| * c := by
    rw [← sub_mul, abs_mul, abs_of_pos hc]
  refine ⟨mem_zmultiples_mul_iff.mpr ⟨y, h.mem, rfl⟩, fun z hz => ?_, fun z hz htie => ?_⟩
  · obtain ⟨w, hw, rfl⟩ := mem_zmultiples_mul_iff.mp hz
    rw [hdistance, hdistance]
    exact mul_le_mul_of_nonneg_right (h.nearest w hw) hc.le
  · obtain ⟨w, hw, rfl⟩ := mem_zmultiples_mul_iff.mp hz
    rw [hdistance, hdistance] at htie
    rcases h.tie w hw (mul_right_cancel₀ hc.ne' htie) with rfl | hlt
    · exact .inl rfl
    · rw [abs_mul, abs_mul, abs_of_pos hc]
      exact .inr (mul_lt_mul_of_pos_right hlt hc)

/-- A value is beyond the middle between the multiple nearest to it and any smaller one. -/
theorem add_le_two_mul (h : IsNearestMultiple unit x y) (hz : z ∈ zmultiples unit) (hlt : z < y) :
    z + y ≤ 2 * x := by
  by_contra! hx
  have hnearer : |z - x| < y - x := abs_lt.mpr ⟨by linarith, by linarith⟩
  exact absurd (hnearer.trans_le (le_abs_self _)) (h.nearest z hz).not_gt

/-- Values in order whose multiples are not would both be in the middle between
these, and so equal. -/
theorem mono (h : IsNearestMultiple unit x y) (h' : IsNearestMultiple unit x' y') (hle : x ≤ x') :
    y ≤ y' := by
  by_contra! hlt
  have hbeyond : y' + y ≤ 2 * x := h.add_le_two_mul h'.mem hlt
  have hbelow : -y + -y' ≤ 2 * -x' := h'.neg.add_le_two_mul (neg_mem h.mem) (neg_lt_neg hlt)
  obtain rfl : x = x' := by linarith
  exact hlt.ne' (h.unique h')

end IsNearestMultiple

variable [FloorRing K]

/-- Some multiple is within half a unit, so the nearest one is. -/
theorem IsNearestMultiple.abs_sub_le {unit x y : K} (h : IsNearestMultiple unit x y)
    (hunit : 0 < unit) : |y - x| ≤ unit / 2 := by
  have hmem : (round (x / unit) : K) * unit ∈ zmultiples unit :=
    mem_zmultiples_iff.mpr ⟨round (x / unit), zsmul_eq_mul _ _⟩
  calc |y - x| ≤ |round (x / unit) * unit - x| := h.nearest _ hmem
    _ = |x / unit - round (x / unit)| * unit := by
      rw [abs_sub_comm, ← abs_of_pos hunit, ← abs_mul, abs_of_pos hunit, sub_mul,
        div_mul_cancel₀ x hunit.ne']
    _ ≤ 1 / 2 * unit := mul_le_mul_of_nonneg_right (abs_sub_round _) hunit.le
    _ = unit / 2 := one_div_mul_eq_div 2 unit

/-- A half is rounded up, so of two whole numbers that are as near, the one
below has been passed. -/
theorem eq_or_eq_sub_one_of_abs_sub_eq {x : K} {n : ℤ} (h : |(n : K) - x| = |(round x : K) - x|) :
    n = round x ∨ (n = round x - 1 ∧ 2 * x = n + round x) := by
  rcases abs_eq_abs.mp h with heq | heq
  · exact .inl (Int.cast_injective (sub_left_injective heq))
  · have hsum : 2 * x = n + round x := by linarith
    have hlower : (round x : K) ≤ x + 1 / 2 := round_eq x ▸ Int.floor_le (x + 1 / 2)
    have hupper : x + 1 / 2 < (round x : K) + 1 := round_eq x ▸ Int.lt_floor_add_one (x + 1 / 2)
    have hle : round x ≤ n + 1 := by
      have hcast : (round x : K) ≤ n + 1 := by linarith
      exact_mod_cast hcast
    have hlt : n < round x + 1 := by
      have hcast : (n : K) < round x + 1 := by linarith
      exact_mod_cast hcast
    rcases eq_or_ne n (round x) with heq | hne
    · exact .inl heq
    · exact .inr ⟨by omega, hsum⟩

theorem isNearestMultiple_round_of_nonneg {x : K} (hx : 0 ≤ x) :
    IsNearestMultiple 1 x (round x : K) where
  mem := mem_zmultiples_iff.mpr ⟨round x, zsmul_one _⟩
  nearest z hz := by
    obtain ⟨n, rfl⟩ := mem_zmultiples_iff.mp hz
    rw [zsmul_one, abs_sub_comm, abs_sub_comm (n : K)]
    exact round_le x n
  tie z hz h := by
    obtain ⟨n, rfl⟩ := mem_zmultiples_iff.mp hz
    rw [zsmul_one] at h ⊢
    rcases eq_or_eq_sub_one_of_abs_sub_eq h with rfl | ⟨hn, hsum⟩
    · exact .inl rfl
    · -- The two add up to twice a value that is not negative, so neither is.
      have hnonneg : 0 ≤ n + round x := by
        have hcast : (0 : K) ≤ n + round x := by linarith
        exact_mod_cast hcast
      have habs : |n| < |round x| := by
        rw [abs_of_nonneg (by omega), abs_of_nonneg (by omega)]
        omega
      exact .inr (by exact_mod_cast habs)

/-- Values below zero are rounded as their opposites are. -/
theorem isNearestMultiple_round (x : K) : IsNearestMultiple 1 x (Scalar.round x) := by
  rw [Exact.round_eq]
  split_ifs with hx
  · exact isNearestMultiple_round_of_nonneg hx
  · have hneg := (isNearestMultiple_round_of_nonneg (neg_nonneg.mpr (not_le.mp hx).le)).neg
    rwa [neg_neg] at hneg

theorem isNearestMultiple_roundTo (places : ℤ) (x : K) :
    IsNearestMultiple (lastPlace places) x (Scalar.roundTo places x) := by
  have hpos : (0 : K) < lastPlace places := lastPlace_pos places
  have h := (isNearestMultiple_round (x / lastPlace places)).mul_right hpos
  rwa [one_mul, div_mul_cancel₀ x hpos.ne', ← Scalar.roundTo_eq] at h

/-- A value with no more places than are kept stays as it is. -/
theorem Scalar.roundTo_of_mem {places : ℤ} {x : K} (h : x ∈ zmultiples (lastPlace places)) :
    Scalar.roundTo places x = x :=
  (isNearestMultiple_roundTo places x).unique (.refl h)

/-- Rounding finds the nearest multiple of the last place, and of two that are as near the one of
larger absolute value. It moves no value by more than half a place, does not care for the sign,
keeps values in order, and keeps what has been rounded to as many places or fewer. -/
theorem roundTo_nearest (places : ℤ) :
    (∀ x : K, IsNearestMultiple (10 ^ (-max 0 (min places 6))) x (Scalar.roundTo places x)) ∧
    (∀ x : K, |Scalar.roundTo places x - x| ≤ 10 ^ (-max 0 (min places 6)) / 2) ∧
    (∀ x : K, Scalar.roundTo places (Scalar.roundTo places x) = Scalar.roundTo places x) ∧
    (∀ x : K, Scalar.roundTo places (-x) = -Scalar.roundTo places x) ∧
    Monotone (Scalar.roundTo places : K → K) ∧
    ∀ (more : ℕ) (x : K),
      Scalar.roundTo (places + more) (Scalar.roundTo places x) = Scalar.roundTo places x := by
  have hnearest (x : K) : IsNearestMultiple (lastPlace places) x (Scalar.roundTo places x) :=
    isNearestMultiple_roundTo places x
  refine ⟨hnearest, ?_, ?_, ?_, ?_, ?_⟩
  · intro x
    exact (hnearest x).abs_sub_le (lastPlace_pos places)
  · intro x
    exact Scalar.roundTo_of_mem (hnearest x).mem
  · intro x
    exact (hnearest (-x)).unique (hnearest x).neg
  · intro x y hle
    exact (hnearest x).mono (hnearest y) hle
  · intro more x
    have hunit : (lastPlace places : K) ∈ zmultiples (lastPlace (places + more)) :=
      lastPlace_mem_zmultiples places more
    exact Scalar.roundTo_of_mem (AddSubgroup.zmultiples_le_of_mem hunit (hnearest x).mem)

/-- Minus a quarter is in the middle between two tenths and goes to the one further from zero. -/
theorem roundTo_nearest_quarter : Scalar.roundTo 1 (-1 / 4 : ℚ) = -3 / 10 ∧
    IsNearestMultiple (10 ^ (-max 0 (min 1 6) : ℤ)) (-1 / 4 : ℚ) (Scalar.roundTo 1 (-1 / 4)) ∧
    |Scalar.roundTo 1 (-1 / 4 : ℚ) - -1 / 4| ≤ 10 ^ (-max 0 (min 1 6) : ℤ) / 2 ∧
    Scalar.roundTo 1 (Scalar.roundTo 1 (-1 / 4 : ℚ)) = Scalar.roundTo 1 (-1 / 4) ∧
    Scalar.roundTo 1 (-(-1 / 4) : ℚ) = -Scalar.roundTo 1 (-1 / 4) ∧
    Monotone (Scalar.roundTo 1 : ℚ → ℚ) ∧
    Scalar.roundTo (1 + (3 : ℕ)) (Scalar.roundTo 1 (-1 / 4 : ℚ)) = Scalar.roundTo 1 (-1 / 4) := by
  obtain ⟨hnearest, hmoved, hagain, hneg, hmono, hmore⟩ := roundTo_nearest (K := ℚ) 1
  exact ⟨by decide +kernel, hnearest _, hmoved _, hagain _, hneg _, hmono, hmore 3 _⟩

end PenStroke
