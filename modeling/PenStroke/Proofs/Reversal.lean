import PenStroke.Proofs.FigureEnds
import PenStroke.Proofs.KnotEquations
import PenStroke.Proofs.SampledPoints

/-! Strokes drawn backwards. Elimination runs one way and substitution the other, yet the slopes
are the only solution of a system that reads the same from both ends. So the curve through the
reversed points is the same curve run backwards, and so are its samples. -/
namespace PenStroke

section Curves
variable {α : Type}

/-- The same points, passed from the last to the first. -/
def Stroke.reverse (stroke : Stroke α) : Stroke α := ⟨stroke.points.reverse⟩

variable [Scalar α]

theorem PlaneSpline.through?_of_knotSlopes? {points : List (Point α)} {slopes : List (Offset α)}
    (hx : Spline.knotSlopes? (points.map (·.x)) = some (slopes.map (·.x)))
    (hy : Spline.knotSlopes? (points.map (·.y)) = some (slopes.map (·.y))) :
    through? points = some (hermite points slopes) := by
  simp only [through?, Spline.natural?, Point.coord, hx, hy]
  rfl

end Curves

variable {K : Type} [Field K] [LinearOrder K] [FloorRing K]

@[simp] theorem Offset.neg_x (d : Offset K) : (-d).x = -d.x := rfl

@[simp] theorem Offset.neg_y (d : Offset K) : (-d).y = -d.y := rfl

theorem PlaneSpline.Between.reverse {points : List (Point K)} {slopes : List (Offset K)}
    {n j k : ℕ} {p q : Point K} {d e : Offset K} (hp : points.length = n + 2)
    (hd : slopes.length = n + 2) (h : Between points slopes k p q d e) (hjk : j + k = n) :
    Between points.reverse (slopes.map (-·)).reverse j q p (-e) (-d) := by
  have hindex (i : ℕ) : n + 2 - 1 - i = n + 1 - i := rfl
  have hstart : n + 1 - j = k + 1 := by omega
  have hfinish : n + 1 - (j + 1) = k := by omega
  refine ⟨?_, ?_, ?_, ?_⟩
  · rw [List.getElem?_reverse (by omega), hp, hindex, hstart, h.finish]
  · rw [List.getElem?_reverse (by omega), hp, hindex, hfinish, h.start]
  · rw [List.getElem?_reverse (by simp; omega), List.length_map, hd, hindex, hstart,
      List.getElem?_map, h.arriving, Option.map_some]
  · rw [List.getElem?_reverse (by simp; omega), List.length_map, hd, hindex, hfinish,
      List.getElem?_map, h.leaving, Option.map_some]

theorem Cubic.eval_ofHermite_reverse (v w d e t : K) :
    (ofHermite w v (-e) (-d)).eval t = (ofHermite v w d e).eval (1 - t) := by
  rw [eval_eq, eval_eq, ofHermite_eq, ofHermite_eq]
  ring

theorem PlaneSpline.Between.onInterval?_reverse {points : List (Point K)}
    {slopes : List (Offset K)} {n j k : ℕ} {p q : Point K} {d e : Offset K}
    (hp : points.length = n + 2) (hd : slopes.length = n + 2) (h : Between points slopes k p q d e)
    (hjk : j + k = n) (t : K) :
    (hermite points.reverse (slopes.map (-·)).reverse).onInterval? j t =
      (hermite points slopes).onInterval? k (1 - t) := by
  rw [(h.reverse hp hd hjk).onInterval?_eq, h.onInterval?_eq, ← Cubic.eval_ofHermite_reverse,
    ← Cubic.eval_ofHermite_reverse]
  rfl

theorem parameter_reverse {count i j : ℕ} (h : i + j + 1 = max count 2) :
    (parameter count i : K) = 1 - parameter count j := by
  have hlast : max count 2 - 1 = i + j := by omega
  have hne : ((i + j : ℕ) : K) ≠ 0 := by
    rw [Nat.cast_ne_zero]
    omega
  rw [parameter_eq, parameter_eq, hlast, eq_sub_iff_add_eq, ← add_div, ← Nat.cast_add,
    div_self hne]

theorem SamplingOptions.samplePoints_reverse (options : SamplingOptions K)
    {curve back : PlaneSpline K} (h : ∀ u, back.eval u = curve.eval (1 - u)) :
    options.samplePoints back = (options.samplePoints curve).reverse := by
  apply List.ext_getElem
  · simp
  · intro i hi _
    have hi : i < max options.samples 2 := by simpa using hi
    rw [List.getElem_reverse]
    simp only [samplePoints, List.getElem_map, List.getElem_range, List.length_map,
      List.length_range, sample]
    rw [h, parameter_reverse (j := max options.samples 2 - 1 - i) (by omega), sub_sub_cancel]

variable [IsStrictOrderedRing K]

theorem Spline.knotSlopes?_reverse {values slopes : List K} (h : 2 ≤ values.length)
    (hslopes : knotSlopes? values = some slopes) :
    knotSlopes? values.reverse = some (slopes.map (-·)).reverse := by
  obtain ⟨n, hv⟩ : ∃ n, values.length = n + 2 := ⟨values.length - 2, by omega⟩
  obtain ⟨hd, hequations⟩ := equations_of_knotSlopes? hv hslopes
  rw [knotSlopes?_eq_some_iff_equations (by simpa using hv) (by simpa using hd)]
  apply hequations.reverse
  · intro i j hij
    rw [List.getD_reverse _ (by omega), show values.length - 1 - i = j by omega]
  · intro i j hij
    rw [List.getD_reverse _ (by simp; omega), List.length_map,
      show slopes.length - 1 - i = j by omega]
    simp [List.getD_eq_getElem?_getD, List.getElem?_eq_getElem (show j < slopes.length by omega)]

namespace PlaneSpline
variable {points : List (Point K)} {slopes : List (Offset K)}

/-- An interval that holds a parameter is, from the other end, one that holds
what remains to one. -/
theorem eval_hermite_reverse (h : slopes.length = points.length) (hn : 2 ≤ points.length) {u : K}
    (h₀ : 0 ≤ u) (h₁ : u ≤ 1) : (hermite points.reverse (slopes.map (-·)).reverse).eval u =
      (hermite points slopes).eval (1 - u) := by
  obtain ⟨n, hp⟩ : ∃ n, points.length = n + 2 := ⟨points.length - 2, by omega⟩
  have hcount : ((points.length - 1 : ℕ) : K) = n + 1 := by simp [hp]
  obtain ⟨j, hj, -, hlo, hhi⟩ := Spline.locate?_eq_some (n := n + 1) n.succ_pos h₀ h₁
  push_cast at hlo hhi
  -- The interval with `j` others before it has as many after it, read from the other end.
  obtain ⟨k, hjk⟩ : ∃ k, j + k = n := ⟨n - j, by omega⟩
  have hcast : (n : K) = j + k := by exact_mod_cast hjk.symm
  obtain ⟨p, q, d, e, hbetween⟩ := exists_between h (k := k) (by omega)
  have hlength : (slopes.map (-·)).reverse.length = points.reverse.length := by simpa using h
  have hback := eval_of_interval hlength (k := j) (by simp; omega) h₀ h₁
  have hcurve := eval_of_interval h (k := k) (u := 1 - u) (by omega) (by linarith) (by linarith)
  rw [List.length_reverse, hcount] at hback
  rw [hcount] at hcurve
  have hrest : 1 - (u * (n + 1) - j) = (1 - u) * (n + 1) - k := by rw [hcast]; ring
  apply Option.some.inj
  rw [← hback hlo hhi, ← hcurve (by linarith) (by linarith), ← hrest,
    hbetween.onInterval?_reverse hp (h.trans hp) hjk]

theorem through?_reverse (hn : 2 ≤ points.length) : ∃ curve back,
    through? points = some curve ∧ through? points.reverse = some back ∧
      ∀ u, back.eval u = curve.eval (1 - u) := by
  obtain ⟨slopes, h, hx, hy, hcurve⟩ := through?_eq_hermite hn
  have hbackx := Spline.knotSlopes?_reverse (by simpa using hn) hx
  have hbacky := Spline.knotSlopes?_reverse (by simpa using hn) hy
  refine ⟨_, hermite points.reverse (slopes.map (-·)).reverse, hcurve, ?_, fun u => ?_⟩
  · apply through?_of_knotSlopes?
    · simpa [Function.comp_def] using hbackx
    · simpa [Function.comp_def] using hbacky
  · obtain ⟨h₀, h₁⟩ := Exact.clamp_unit_mem u
    rw [← eval_clamp, eval_hermite_reverse h hn h₀ h₁, ← Exact.clamp_one_sub, eval_clamp]

end PlaneSpline

variable [Hypotenuse K]

/-- Backwards, values have their slopes read backwards with the signs changed, and the curve
through points is run from its end. So a stroke drawn backwards without waypoints has the same
samples in reverse order, and its path joins them. -/
theorem smoothing_reversed :
    (∀ values : List K, 2 ≤ values.length → ∃ slopes,
      Spline.knotSlopes? values = some slopes ∧ slopes.length = values.length ∧
      Spline.knotSlopes? values.reverse = some (slopes.map (-·)).reverse) ∧
    (∀ points : List (Point K), 2 ≤ points.length → ∃ curve back,
      PlaneSpline.through? points = some curve ∧
      PlaneSpline.through? points.reverse = some back ∧
      ∀ u, back.eval u = curve.eval (1 - u)) ∧
    ∀ (options : SamplingOptions K) (stroke : Stroke K), options.waypoints = false →
      2 ≤ stroke.points.length → ∃ samples, samples.length = max options.samples 2 ∧
        options.DrawsJoined stroke samples ∧
        options.DrawsJoined stroke.reverse samples.reverse := by
  refine ⟨fun values hn => ?_, fun points => PlaneSpline.through?_reverse,
    fun options stroke hoff hn => ?_⟩
  · obtain ⟨slopes, hslopes, hlength, -⟩ := Spline.natural?_eq values hn
    exact ⟨slopes, hslopes, hlength, Spline.knotSlopes?_reverse hn hslopes⟩
  · obtain ⟨curve, back, hcurve, hback, heval⟩ := PlaneSpline.through?_reverse hn
    have hn' : 2 ≤ stroke.reverse.points.length := by simpa [Stroke.reverse] using hn
    refine ⟨options.samplePoints curve, by simp,
      SamplingOptions.drawsJoined hoff hn (fun _ _ => rfl) hcurve, ?_⟩
    rw [← options.samplePoints_reverse heval]
    exact SamplingOptions.drawsJoined hoff hn' (fun _ _ => rfl) hback

/-- A stroke of three points drawn in both directions. -/
theorem smoothing_reversed_hook :
    let stroke : Stroke ℝ := ⟨[⟨0, 0⟩, ⟨30, 30⟩, ⟨60, 10⟩]⟩
    let options : SamplingOptions ℝ := ⟨4, false, 5, 1 / 5⟩
    options.waypoints = false ∧ 2 ≤ stroke.points.length ∧
    (∃ slopes, Spline.knotSlopes? ([0, 30, 10] : List ℝ) = some slopes ∧ slopes.length = 3 ∧
      Spline.knotSlopes? ([10, 30, 0] : List ℝ) = some (slopes.map (-·)).reverse) ∧
    (∃ curve back, PlaneSpline.through? stroke.points = some curve ∧
      PlaneSpline.through? [⟨60, 10⟩, ⟨30, 30⟩, ⟨0, 0⟩] = some back ∧
      ∀ u, back.eval u = curve.eval (1 - u)) ∧
    ∃ samples, samples.length = 4 ∧ options.DrawsJoined stroke samples ∧
      options.DrawsJoined ⟨[⟨60, 10⟩, ⟨30, 30⟩, ⟨0, 0⟩]⟩ samples.reverse := by
  intro stroke options
  have hn : 2 ≤ stroke.points.length := by decide
  obtain ⟨hslopes, hcurves, hsamples⟩ := smoothing_reversed (K := ℝ)
  exact ⟨rfl, hn, hslopes [0, 30, 10] (by decide), hcurves _ hn, hsamples options stroke rfl hn⟩

end PenStroke
