import PenStroke.Proofs.AffineMaps

/-! The system of the knot slopes, knot by knot. Solutions can be subtracted and read backwards. No
slope exceeds three times the largest step of the values, and where the values are zero the slopes
fade by half from knot to knot. -/
namespace PenStroke.Spline

variable {K : Type} [Field K]

/-- The equations of all knots but the first by number, for the values `v` and the slopes `d` at
the knots `0` to `n + 1`. -/
structure LaterEquations (n : ℕ) (v d : ℕ → K) : Prop where
  inner : ∀ i < n, d i + 4 * d (i + 1) + d (i + 2) = 3 * (v (i + 2) - v i)
  last : d n + 2 * d (n + 1) = 3 * (v (n + 1) - v n)

/-- The equations of all knots by number. -/
structure Equations (n : ℕ) (v d : ℕ → K) : Prop extends LaterEquations n v d where
  first : 2 * d 0 + d 1 = 3 * (v 1 - v 0)

section Lists

theorem getElem?_eq_some_getD {values : List K} {i : ℕ} (h : i < values.length) :
    values[i]? = some (values.getD i 0) := by
  rw [List.getD_eq_getElem _ _ h, List.getElem?_eq_getElem h]

theorem laterEquations_succ_iff {n : ℕ} {v d : ℕ → K} : LaterEquations (n + 1) v d ↔
    d 0 + 4 * d 1 + d 2 = 3 * (v 2 - v 0) ∧ LaterEquations n (v <| · + 1) (d <| · + 1) := by
  constructor
  · intro h
    exact ⟨h.inner 0 n.succ_pos, fun i hi => h.inner (i + 1) (Nat.succ_lt_succ hi), h.last⟩
  · rintro ⟨hfirst, h⟩
    exact ⟨Nat.forall_lt_succ_left.mpr ⟨hfirst, h.inner⟩, h.last⟩

theorem laterRows_iff_laterEquations {u v a b : K} {vs ds : List K} (h : ds.length = vs.length) :
    LaterRows (u :: v :: vs) (a :: b :: ds) ↔
      LaterEquations vs.length ((u :: v :: vs).getD · 0) ((a :: b :: ds).getD · 0) := by
  induction vs generalizing u v a b ds with
  | nil =>
    obtain rfl := List.length_eq_zero_iff.mp h
    exact ⟨fun h => ⟨nofun, h⟩, fun h => h.last⟩
  | cons w vs ih =>
    cases ds with
    | nil => simp at h
    | cons c ds =>
      rw [LaterRows, ih (by simpa using h), List.length_cons, laterEquations_succ_iff]
      rfl

theorem slopeSystem_iff_equations {values slopes : List K} {n : ℕ} (hv : values.length = n + 2)
    (hd : slopes.length = n + 2) : SlopeSystem values slopes ↔
      Equations n (values.getD · 0) (slopes.getD · 0) := by
  match values, slopes, hv, hd with
  | u :: v :: vs, a :: b :: ds, hv, hd =>
    obtain rfl : vs.length = n := by simpa using hv
    rw [SlopeSystem, laterRows_iff_laterEquations (by simpa using hd)]
    exact ⟨fun h => ⟨h.2, h.1⟩, fun h => ⟨h.first, h.toLaterEquations⟩⟩

variable [LinearOrder K] [FloorRing K] [IsStrictOrderedRing K]

theorem knotSlopes?_eq_some_iff_equations {values slopes : List K} {n : ℕ}
    (hv : values.length = n + 2) (hd : slopes.length = n + 2) :
    knotSlopes? values = some slopes ↔ Equations n (values.getD · 0) (slopes.getD · 0) := by
  rw [knotSlopes?_eq_some_iff (by omega), slopeSystem_iff_equations hv hd]

/-- The slopes found satisfy the equation of every knot. -/
theorem equations_of_knotSlopes? {values slopes : List K} {n : ℕ} (hv : values.length = n + 2)
    (hslopes : knotSlopes? values = some slopes) :
    slopes.length = n + 2 ∧ Equations n (values.getD · 0) (slopes.getD · 0) := by
  obtain ⟨slopes', hslopes', hlength, -⟩ := natural?_eq values (by omega)
  obtain rfl := Option.some.inj (hslopes.symm.trans hslopes')
  have hd : slopes.length = n + 2 := hlength.trans hv
  exact ⟨hd, (knotSlopes?_eq_some_iff_equations hv hd).mp hslopes⟩

end Lists

namespace Equations
variable {n : ℕ} {v w d e : ℕ → K}

theorem sub (h : Equations n v d) (h' : Equations n w e) : Equations n (v - w) (d - e) where
  first := by
    simp only [Pi.sub_apply]
    linear_combination h.first - h'.first
  inner i hi := by
    simp only [Pi.sub_apply]
    linear_combination h.inner i hi - h'.inner i hi
  last := by
    simp only [Pi.sub_apply]
    linear_combination h.last - h'.last

/-- The values read from the last to the first have the slopes read so,
with their signs changed. -/
theorem reverse (h : Equations n v d) (hv : ∀ i j, i + j = n + 1 → w i = v j)
    (hd : ∀ i j, i + j = n + 1 → e i = -d j) : Equations n w e where
  first := by
    rw [hv 0 (n + 1) (by omega), hv 1 n (by omega), hd 0 (n + 1) (by omega), hd 1 n (by omega)]
    linear_combination -h.last
  inner i hi := by
    obtain ⟨j, hj⟩ : ∃ j, i + j + 1 = n := ⟨n - i - 1, by omega⟩
    rw [hv i (j + 2) (by omega), hv (i + 2) j (by omega), hd i (j + 2) (by omega),
      hd (i + 1) (j + 1) (by omega), hd (i + 2) j (by omega)]
    linear_combination -h.inner j (by omega)
  last := by
    rw [hv n 1 (by omega), hv (n + 1) 0 (by omega), hd n 1 (by omega), hd (n + 1) 0 (by omega)]
    linear_combination -h.first

variable [LinearOrder K] [IsStrictOrderedRing K]

section Bound
variable {x y z s D : K}

theorem abs_le_of_end_row (h : 2 * x + y = 3 * s) (hy : |y| ≤ |x|) (hs : |s| ≤ D) :
    |x| ≤ 3 * D := by
  rw [abs_le] at hy hs
  have hrow : |2 * x| ≤ 3 * D + |x| := abs_le.mpr ⟨by linarith, by linarith⟩
  rw [abs_mul, abs_two] at hrow
  linarith

theorem abs_le_of_inner_row (h : y + 4 * x + z = 3 * s) (hy : |y| ≤ |x|) (hz : |z| ≤ |x|)
    (hs : |s| ≤ 2 * D) : |x| ≤ 3 * D := by
  rw [abs_le] at hy hz hs
  have hrow : |4 * x| ≤ 6 * D + 2 * |x| := abs_le.mpr ⟨by linarith, by linarith⟩
  rw [abs_mul, abs_of_pos (by norm_num : (0 : K) < 4)] at hrow
  linarith

/-- The coefficient of its own slope outweighs the others in every row, so the row of the largest
slope bounds them all. -/
theorem abs_slope_le (h : Equations n v d) {D : K} (hD : ∀ i ≤ n, |v (i + 1) - v i| ≤ D) :
    ∀ i ≤ n + 1, |d i| ≤ 3 * D := by
  obtain ⟨j, hj, hmax⟩ := Finset.exists_max_image (Finset.range (n + 2)) (|d ·|) ⟨0, by simp⟩
  have hle : ∀ i ≤ n + 1, |d i| ≤ |d j| := fun i hi => hmax i (Finset.mem_range.mpr (by omega))
  suffices hlargest : |d j| ≤ 3 * D from fun i hi => (hle i hi).trans hlargest
  -- The largest slope stands at the first knot, at the last one or between them.
  obtain rfl | hpos := Nat.eq_zero_or_pos j
  · exact abs_le_of_end_row h.first (hle 1 (by omega)) (hD 0 n.zero_le)
  obtain ⟨i, rfl⟩ : ∃ i, j = i + 1 := ⟨j - 1, by omega⟩
  obtain rfl | hlt := Nat.eq_or_lt_of_le (show i ≤ n by simpa using hj)
  · have hrow : 2 * d (i + 1) + d i = 3 * (v (i + 1) - v i) := by rw [← h.last, add_comm]
    exact abs_le_of_end_row hrow (hle i (by omega)) (hD i le_rfl)
  · have hsteps : |v (i + 2) - v i| ≤ 2 * D := by
      calc |v (i + 2) - v i| ≤ |v (i + 2) - v (i + 1)| + |v (i + 1) - v i| := abs_sub_le ..
        _ ≤ D + D := add_le_add (hD (i + 1) hlt) (hD i hlt.le)
        _ = 2 * D := (two_mul D).symm
    exact abs_le_of_inner_row (h.inner i hlt) (hle i (by omega)) (hle (i + 2) (by omega)) hsteps

end Bound

section Decay
variable {k : ℕ}

/-- Before the first value that is not zero, every slope is at most half the next one. -/
theorem two_mul_abs_slope_le (h : Equations n v d) (hk : k ≤ n + 1) (hv : ∀ i < k, v i = 0) {j : ℕ}
    (hj : j + 1 < k) : 2 * |d j| ≤ |d (j + 1)| := by
  induction j with
  | zero =>
    have hrow := h.first
    rw [hv 0 (by omega), hv 1 (by omega), sub_self, mul_zero] at hrow
    rw [← abs_two, ← abs_mul, eq_neg_of_add_eq_zero_left hrow, abs_neg]
  | succ j ih =>
    have hrow := h.inner j (by omega)
    rw [hv j (by omega), hv (j + 2) (by omega), sub_self, mul_zero] at hrow
    have hnext : 4 * |d (j + 1)| ≤ |d (j + 2)| + |d j| := by
      calc 4 * |d (j + 1)| = |4 * d (j + 1)| := by
            rw [abs_mul, abs_of_pos (by norm_num : (0 : K) < 4)]
        _ = |d (j + 2) + d j| := by
            rw [← abs_neg]
            congr 1
            linear_combination -hrow
        _ ≤ |d (j + 2)| + |d j| := abs_add_le ..
    have hprevious := ih (by omega)
    have hnonneg := abs_nonneg (d j)
    linarith

theorem abs_slope_mul_two_pow_le (h : Equations n v d) (hk : k ≤ n + 1) (hv : ∀ i < k, v i = 0)
    (j i : ℕ) (hj : j + i < k) : |d j| * 2 ^ i ≤ |d (j + i)| := by
  induction i with
  | zero => simp
  | succ i ih =>
    calc |d j| * 2 ^ (i + 1) = 2 * (|d j| * 2 ^ i) := by ring
      _ ≤ 2 * |d (j + i)| := mul_le_mul_of_nonneg_left (ih (by omega)) zero_le_two
      _ ≤ |d (j + (i + 1))| := h.two_mul_abs_slope_le hk hv hj

end Decay

end Equations

end PenStroke.Spline
