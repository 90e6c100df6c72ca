import PenStroke.Proofs.KnotEquations

/-! What the change of one value does to the slopes. It changes the slope at its knot and at the
neighbours by three times itself at most, and further away by half as much with every knot. -/
namespace PenStroke.Spline

variable {K : Type} [Field K]

theorem getD_modify_sub_getD {values : List K} {k : ℕ} (hk : k < values.length) (e : K) :
    ((values.modify k (· + e)).getD · 0) - (values.getD · 0) = Pi.single k e := by
  funext i
  rw [Pi.sub_apply]
  rcases eq_or_ne i k with rfl | hne
  · simp [List.getD_eq_getElem?_getD, hk]
  · simp [List.getD_eq_getElem?_getD, hne, hne.symm]

variable [LinearOrder K]

namespace Equations
variable [IsStrictOrderedRing K] {n k : ℕ} {e : K} {d : ℕ → K}

theorem abs_slope_le_of_single (h : Equations n (Pi.single k e) d) {i : ℕ} (hi : i ≤ n + 1) :
    |d i| ≤ 3 * |e| := by
  apply h.abs_slope_le _ i hi
  intro i _
  rcases eq_or_ne i k with rfl | hne
  · simp
  · rw [Pi.single_eq_of_ne hne, sub_zero]
    obtain rfl | hne := eq_or_ne (i + 1) k
    · simp
    · simp [hne]

/-- Before the changed value, the slopes fade from the neighbour on. -/
theorem abs_slope_le_of_lt (h : Equations n (Pi.single k e) d) {i j : ℕ} (hk : k ≤ n + 1)
    (hjk : j + i + 1 = k) : |d j| * 2 ^ i ≤ 3 * |e| := by
  have hzero : ∀ i < k, (Pi.single k e : ℕ → K) i = 0 := fun i hi => Pi.single_eq_of_ne hi.ne _
  exact (h.abs_slope_mul_two_pow_le hk hzero j i (by omega)).trans
    (h.abs_slope_le_of_single (by omega))

/-- After the changed value they do so too, since the system reads the same from both ends. -/
theorem abs_slope_le_of_gt (h : Equations n (Pi.single k e) d) {i j : ℕ} (hj : j ≤ n + 1)
    (hkj : k + i + 1 = j) : |d j| * 2 ^ i ≤ 3 * |e| := by
  obtain ⟨k', hk'⟩ : ∃ k', k' + k = n + 1 := ⟨n + 1 - k, by omega⟩
  obtain ⟨j', hj'⟩ : ∃ j', j' + j = n + 1 := ⟨n + 1 - j, by omega⟩
  have hback : Equations n (Pi.single k' e) (fun i => -d (n + 1 - i)) := by
    refine h.reverse (fun i j hij => ?_) (fun i j hij => ?_)
    · have hiff : i = k' ↔ j = k := by omega
      simp [Pi.single_apply, hiff]
    · rw [show n + 1 - i = j by omega]
  have hle := hback.abs_slope_le_of_lt (i := i) (j := j') (by omega) (by omega)
  rwa [show n + 1 - j' = j by omega, abs_neg] at hle

theorem abs_slope_le_of_ne (h : Equations n (Pi.single k e) d) {j : ℕ} (hk : k ≤ n + 1)
    (hj : j ≤ n + 1) (hne : j ≠ k) : |d j| ≤ 3 * |e| * 2 ^ (1 - |(j : ℤ) - k|) := by
  -- There are `i` knots between the two.
  obtain ⟨i, hi, hle⟩ : ∃ i : ℕ, |(j : ℤ) - k| = i + 1 ∧ |d j| * 2 ^ i ≤ 3 * |e| := by
    rcases lt_or_gt_of_ne hne with hlt | hgt
    · obtain ⟨i, hi⟩ : ∃ i, j + i + 1 = k := ⟨k - j - 1, by omega⟩
      exact ⟨i, (abs_eq (by omega)).mpr (.inr (by omega)), h.abs_slope_le_of_lt hk hi⟩
    · obtain ⟨i, hi⟩ : ∃ i, k + i + 1 = j := ⟨j - k - 1, by omega⟩
      exact ⟨i, (abs_eq (by omega)).mpr (.inl (by omega)), h.abs_slope_le_of_gt hj hi⟩
  have hexponent : (1 : ℤ) - (i + 1) = -i := by ring
  rw [hi, hexponent, zpow_neg, zpow_natCast]
  exact (le_mul_inv_iff₀ (by positivity)).mpr hle

end Equations

variable [FloorRing K] [IsStrictOrderedRing K]

/-- If one value changes by `e`, the slope at its knot changes by `3 |e|` at most, and the slope
`i + 1` knots away by the same divided by `2 ^ i`. -/
theorem knotSlopes?_modify (values : List K) (k : ℕ) (hk : k < values.length)
    (hn : 2 ≤ values.length) (e : K) : ∃ slopes changed,
    knotSlopes? values = some slopes ∧ slopes.length = values.length ∧
    knotSlopes? (values.modify k (· + e)) = some changed ∧ changed.length = values.length ∧
    ∀ j d d', slopes[j]? = some d → changed[j]? = some d' →
      (j = k → |d' - d| ≤ 3 * |e|) ∧
      (j ≠ k → |d' - d| ≤ 3 * |e| * 2 ^ (1 - |(j : ℤ) - k|)) := by
  obtain ⟨n, hv⟩ : ∃ n, values.length = n + 2 := ⟨values.length - 2, by omega⟩
  have hv' : (values.modify k (· + e)).length = n + 2 := by simpa using hv
  obtain ⟨slopes, hslopes, -⟩ := natural?_eq values hn
  obtain ⟨changed, hchanged, -⟩ := natural?_eq (values.modify k (· + e)) (by omega)
  obtain ⟨hd, hequations⟩ := equations_of_knotSlopes? hv hslopes
  obtain ⟨hd', hequations'⟩ := equations_of_knotSlopes? hv' hchanged
  have hdifference := hequations'.sub hequations
  rw [getD_modify_sub_getD hk] at hdifference
  refine ⟨slopes, changed, hslopes, hd.trans hv.symm, hchanged, hd'.trans hv.symm, ?_⟩
  intro j d d' hj hj'
  have hjn : j < n + 2 := hd ▸ (List.getElem?_eq_some_iff.mp hj).1
  have hchange : d' - d = ((changed.getD · 0) - (slopes.getD · 0)) j := by
    simp [List.getD_eq_getElem?_getD, hj, hj']
  rw [hchange]
  constructor
  · intro _
    exact hdifference.abs_slope_le_of_single (by omega)
  · intro hne
    exact hdifference.abs_slope_le_of_ne (by omega) (by omega) hne

/-- A spike at the second of four values. -/
theorem knotSlopes?_modify_spike :
    1 < ([3, 1, 4, 1] : List ℚ).length ∧ 2 ≤ ([3, 1, 4, 1] : List ℚ).length ∧
    ∃ slopes changed, knotSlopes? ([3, 1, 4, 1] : List ℚ) = some slopes ∧ slopes.length = 4 ∧
      knotSlopes? (([3, 1, 4, 1] : List ℚ).modify 1 (· + 5)) = some changed ∧
      changed.length = 4 ∧ ∀ (j : ℕ) (d d' : ℚ), slopes[j]? = some d → changed[j]? = some d' →
        (j = 1 → |d' - d| ≤ 3 * |5|) ∧
        (j ≠ 1 → |d' - d| ≤ 3 * |5| * 2 ^ (1 - |(j : ℤ) - (1 : ℕ)|)) :=
  ⟨by decide, by decide, knotSlopes?_modify [3, 1, 4, 1] 1 (by decide) (by decide) 5⟩

end PenStroke.Spline
