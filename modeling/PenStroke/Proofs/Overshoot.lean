import PenStroke.Proofs.KnotEquations
import PenStroke.Proofs.SampledPoints

/-! How far the natural spline swings out. Between two knots it stays within the largest step of
the values from the line that joins them, however many values there are. -/
namespace PenStroke

variable {K : Type} [Field K] [LinearOrder K]

namespace Spline

/-- The largest distance between neighbouring values. -/
def largestStep : List K → K
  | u :: v :: vs => max |v - u| (largestStep (v :: vs))
  | _ => 0

theorem abs_sub_le_largestStep {values : List K} {i : ℕ} {v w : K} (hv : values[i]? = some v)
    (hw : values[i + 1]? = some w) : |w - v| ≤ largestStep values := by
  match values, i with
  | [], _ => simp at hv
  | [_], _ => simp at hw
  | u₀ :: u₁ :: us, 0 =>
    obtain rfl : u₀ = v := by simpa using hv
    obtain rfl : u₁ = w := by simpa using hw
    exact le_max_left ..
  | u₀ :: u₁ :: us, i + 1 =>
    have ih : |w - v| ≤ largestStep (u₁ :: us) := abs_sub_le_largestStep hv hw
    exact ih.trans (le_max_right ..)

/-- Whether a value lies in the range of the values, or outside of it by no more than their largest
step. -/
def InWidenedRange (values : List K) (x : K) : Prop :=
  ∃ lo hi, values.min? = some lo ∧ values.max? = some hi ∧
    lo - largestStep values ≤ x ∧ x ≤ hi + largestStep values

/-- A value close to the line between two knots is close to the values at the knots. -/
theorem inWidenedRange_of_chord [IsStrictOrderedRing K] {values : List K} {k : ℕ} {v w t x : K}
    (hv : values[k]? = some v) (hw : values[k + 1]? = some w) (h₀ : 0 ≤ t) (h₁ : t ≤ 1)
    (hx : |x - (v + t * (w - v))| ≤ largestStep values) : InWidenedRange values x := by
  have hmemv := List.mem_of_getElem? hv
  have hmemw := List.mem_of_getElem? hw
  have hne : values ≠ [] := List.ne_nil_of_mem hmemv
  obtain ⟨hlo, hhi⟩ := abs_sub_le_iff.mp hx
  refine ⟨values.min hne, values.max hne, List.min?_eq_some_min hne, List.max?_eq_some_max hne,
    ?_, ?_⟩
  · have hv := mul_nonneg (sub_nonneg.mpr h₁) (sub_nonneg.mpr (List.min_le_of_mem hmemv))
    have hw := mul_nonneg h₀ (sub_nonneg.mpr (List.min_le_of_mem hmemw))
    linarith
  · have hv := mul_nonneg (sub_nonneg.mpr h₁) (sub_nonneg.mpr (List.le_max_of_mem hmemv))
    have hw := mul_nonneg h₀ (sub_nonneg.mpr (List.le_max_of_mem hmemw))
    linarith

end Spline

/-- Whether a point lies in the bounding box of a stroke, widened on each axis by the largest step
of the stroke along it. -/
def Stroke.InWidenedBox (stroke : Stroke K) (p : Point K) : Prop :=
  ∀ axis, Spline.InWidenedRange (stroke.onAxis axis) (p.coord axis)

variable [FloorRing K]

namespace Cubic
variable {v w d e t D : K}

theorem eval_ofHermite_sub_chord (v w d e t : K) :
    (ofHermite v w d e).eval t - (v + t * (w - v)) =
      t * (1 - t) * ((d - (w - v)) * (1 - t) - (e - (w - v)) * t) := by
  rw [eval_eq, ofHermite_eq]
  ring

variable [IsStrictOrderedRing K]

/-- The slopes differ from that of the chord by four steps at most, and `t (1 - t)` is at most a
quarter. -/
theorem abs_eval_sub_chord_le (hd : |d| ≤ 3 * D) (he : |e| ≤ 3 * D) (hstep : |w - v| ≤ D)
    (h₀ : 0 ≤ t) (h₁ : t ≤ 1) : |(ofHermite v w d e).eval t - (v + t * (w - v))| ≤ D := by
  have hD : 0 ≤ D := (abs_nonneg _).trans hstep
  have hslope {c : K} (hc : |c| ≤ 3 * D) : |c - (w - v)| ≤ 4 * D := by
    calc |c - (w - v)| ≤ |c| + |w - v| := abs_sub ..
      _ ≤ 3 * D + D := add_le_add hc hstep
      _ = 4 * D := by ring
  have hrest : 0 ≤ 1 - t := sub_nonneg.mpr h₁
  have hmean : |(d - (w - v)) * (1 - t) - (e - (w - v)) * t| ≤ 4 * D := by
    calc |(d - (w - v)) * (1 - t) - (e - (w - v)) * t|
        ≤ |(d - (w - v)) * (1 - t)| + |(e - (w - v)) * t| := abs_sub ..
      _ = |d - (w - v)| * (1 - t) + |e - (w - v)| * t := by
          rw [abs_mul, abs_mul, abs_of_nonneg hrest, abs_of_nonneg h₀]
      _ ≤ 4 * D * (1 - t) + 4 * D * t := by
          gcongr
          · exact hslope hd
          · exact hslope he
      _ = 4 * D := by ring
  have hquarter : t * (1 - t) ≤ 1 / 4 := by
    have hsq := sq_nonneg (t - 1 / 2)
    linarith
  rw [eval_ofHermite_sub_chord, abs_mul, abs_of_nonneg (mul_nonneg h₀ hrest)]
  calc t * (1 - t) * |(d - (w - v)) * (1 - t) - (e - (w - v)) * t|
      ≤ 1 / 4 * (4 * D) := mul_le_mul hquarter hmean (abs_nonneg _) (by norm_num)
    _ = D := by ring

end Cubic

variable [IsStrictOrderedRing K]

namespace Spline
variable {values slopes : List K}

theorem abs_le_of_mem_knotSlopes? (h : 2 ≤ values.length)
    (hslopes : knotSlopes? values = some slopes) : ∀ d ∈ slopes, |d| ≤ 3 * largestStep values := by
  obtain ⟨n, hv⟩ : ∃ n, values.length = n + 2 := ⟨values.length - 2, by omega⟩
  obtain ⟨hd, hequations⟩ := equations_of_knotSlopes? hv hslopes
  have hsteps : ∀ i ≤ n, |values.getD (i + 1) 0 - values.getD i 0| ≤ largestStep values := by
    intro i hi
    exact abs_sub_le_largestStep (getElem?_eq_some_getD (i := i) (by omega))
      (getElem?_eq_some_getD (by omega))
  intro d hd
  obtain ⟨i, hi, rfl⟩ := List.getElem_of_mem hd
  have hle := hequations.abs_slope_le hsteps i (by omega)
  rwa [List.getD_eq_getElem _ _ hi] at hle

/-- On every interval the spline stays within the largest step of the line between its knots. -/
theorem abs_eval_sub_le_largestStep (h : 2 ≤ values.length)
    (hslopes : knotSlopes? values = some slopes) {k : ℕ} {v w d e t : K}
    (hv : values[k]? = some v) (hw : values[k + 1]? = some w) (hd : slopes[k]? = some d)
    (he : slopes[k + 1]? = some e) (h₀ : 0 ≤ t) (h₁ : t ≤ 1) :
    |(Cubic.ofHermite v w d e).eval t - (v + t * (w - v))| ≤ largestStep values := by
  have hbound := abs_le_of_mem_knotSlopes? h hslopes
  exact Cubic.abs_eval_sub_chord_le (hbound d (List.mem_of_getElem? hd))
    (hbound e (List.mem_of_getElem? he)) (abs_sub_le_largestStep hv hw) h₀ h₁

end Spline

/-- On one axis, an interval of the curve stays in the widened range of the coordinates. -/
theorem PlaneSpline.Between.inWidenedRange {points : List (Point K)} {slopes : List (Offset K)}
    {k : ℕ} {p q : Point K} {d e : Offset K} (h : Between points slopes k p q d e)
    (hn : 2 ≤ points.length) {coordinate : Point K → K} {slope : Offset K → K}
    (hslopes : Spline.knotSlopes? (points.map coordinate) = some (slopes.map slope)) {t : K}
    (h₀ : 0 ≤ t) (h₁ : t ≤ 1) : Spline.InWidenedRange (points.map coordinate)
      ((Cubic.ofHermite (coordinate p) (coordinate q) (slope d) (slope e)).eval t) := by
  have hv : (points.map coordinate)[k]? = some (coordinate p) := by simp [h.start]
  have hw : (points.map coordinate)[k + 1]? = some (coordinate q) := by simp [h.finish]
  have hd : (slopes.map slope)[k]? = some (slope d) := by simp [h.leaving]
  have he : (slopes.map slope)[k + 1]? = some (slope e) := by simp [h.arriving]
  have hclose :=
    Spline.abs_eval_sub_le_largestStep (by simpa using hn) hslopes hv hw hd he h₀ h₁
  exact Spline.inWidenedRange_of_chord hv hw h₀ h₁ hclose

/-- The curve through the points of a stroke stays in its widened box. -/
theorem PlaneSpline.through?_inWidenedBox {stroke : Stroke K} (hn : 2 ≤ stroke.points.length) :
    ∃ curve, through? stroke.points = some curve ∧ ∀ u, stroke.InWidenedBox (curve.eval u) := by
  obtain ⟨slopes, h, hx, hy, hcurve⟩ := through?_eq_hermite hn
  refine ⟨_, hcurve, fun u => ?_⟩
  obtain ⟨h₀, h₁⟩ := Exact.clamp_unit_mem u
  obtain ⟨k, hk, -, hlo, hhi⟩ := Spline.locate?_eq_some (n := stroke.points.length - 1)
    (by omega) h₀ h₁
  obtain ⟨p, q, d, e, hbetween⟩ := exists_between h (k := k) (by omega)
  have heval := eval_of_interval h (by omega) h₀ h₁ hlo hhi
  rw [hbetween.onInterval?_eq, eval_clamp] at heval
  rw [← Option.some.inj heval]
  have ht₀ := sub_nonneg.mpr hlo
  have ht₁ := sub_le_iff_le_add'.mpr hhi
  intro axis
  cases axis with
  | horizontal => exact hbetween.inWidenedRange hn hx ht₀ ht₁
  | vertical => exact hbetween.inWidenedRange hn hy ht₀ ht₁

variable [Hypotenuse K]

/-- No slope exceeds three times the largest step of the values, and between two knots the spline
stays within that step of the line that joins them. So all samples of a stroke lie in its bounding
box, widened on each axis by the largest step along it. -/
theorem overshoot_le_largestStep :
    (∀ values : List K, 2 ≤ values.length → ∃ slopes segments,
      Spline.knotSlopes? values = some slopes ∧ slopes.length = values.length ∧
      Spline.natural? values = some ⟨segments⟩ ∧ segments.length = values.length - 1 ∧
      (∀ d ∈ slopes, |d| ≤ 3 * Spline.largestStep values) ∧
      ∀ i v w s, values[i]? = some v → values[i + 1]? = some w → segments[i]? = some s →
        ∀ t, 0 ≤ t → t ≤ 1 → |s.eval t - (v + t * (w - v))| ≤ Spline.largestStep values) ∧
    ∀ (options : SamplingOptions K) (canvas : Canvas K) (stroke : Stroke K),
      2 ≤ stroke.points.length → ∃ drawn events,
        options.drawRecorded canvas stroke = .ok (drawn, events) ∧
        (sampledPoints events).length = max options.samples 2 ∧
        ∀ p ∈ sampledPoints events, stroke.InWidenedBox p := by
  constructor
  · intro values hn
    obtain ⟨slopes, hslopes, hlength, hnatural⟩ := Spline.natural?_eq values hn
    refine ⟨slopes, _, hslopes, hlength, hnatural, Spline.length_hermiteSegments _ _ hlength,
      Spline.abs_le_of_mem_knotSlopes? hn hslopes, fun i v w s hv hw hs t h₀ h₁ => ?_⟩
    have hi : i + 1 < values.length := (List.getElem?_eq_some_iff.mp hw).1
    have hd : slopes[i]? = some (slopes.getD i 0) := Spline.getElem?_eq_some_getD (by omega)
    have he : slopes[i + 1]? = some (slopes.getD (i + 1) 0) :=
      Spline.getElem?_eq_some_getD (by omega)
    rw [Spline.getElem?_hermiteSegments hv hw hd he, Option.some.injEq] at hs
    rw [← hs]
    exact Spline.abs_eval_sub_le_largestStep hn hslopes hv hw hd he h₀ h₁
  · intro options canvas stroke hn
    obtain ⟨curve, hcurve, hbox⟩ := PlaneSpline.through?_inWidenedBox hn
    obtain ⟨drawn, events, hdrawn, hsampled⟩ :=
      options.exists_sampledPoints hn (fun _ _ => rfl) hcurve canvas
    refine ⟨drawn, events, hdrawn, by simp [hsampled], fun p hp => ?_⟩
    rw [hsampled] at hp
    obtain ⟨k, -, rfl⟩ := List.mem_map.mp hp
    exact hbox _

/-- Values that jump once, and a stroke with a sharp corner. -/
theorem overshoot_le_largestStep_jump :
    let stroke : Stroke ℝ := ⟨[⟨0, 0⟩, ⟨30, 30⟩, ⟨60, 0⟩]⟩
    2 ≤ ([0, 0, 1, 1] : List ℝ).length ∧ 2 ≤ stroke.points.length ∧
    (∃ slopes segments, Spline.knotSlopes? ([0, 0, 1, 1] : List ℝ) = some slopes ∧
      slopes.length = 4 ∧ Spline.natural? ([0, 0, 1, 1] : List ℝ) = some ⟨segments⟩ ∧
      segments.length = 3 ∧ (∀ d ∈ slopes, |d| ≤ 3 * Spline.largestStep [0, 0, 1, 1]) ∧
      ∀ i v w s, ([0, 0, 1, 1] : List ℝ)[i]? = some v →
        ([0, 0, 1, 1] : List ℝ)[i + 1]? = some w → segments[i]? = some s →
        ∀ t, 0 ≤ t → t ≤ 1 →
          |s.eval t - (v + t * (w - v))| ≤ Spline.largestStep [0, 0, 1, 1]) ∧
    ∃ drawn events,
      (⟨4, true, 5, 1 / 5⟩ : SamplingOptions ℝ).drawRecorded {} stroke = .ok (drawn, events) ∧
      (sampledPoints events).length = 4 ∧ ∀ p ∈ sampledPoints events, stroke.InWidenedBox p := by
  intro stroke
  have hvalues : 2 ≤ ([0, 0, 1, 1] : List ℝ).length := by decide
  have hn : 2 ≤ stroke.points.length := by decide
  obtain ⟨hsplines, hstrokes⟩ := overshoot_le_largestStep (K := ℝ)
  exact ⟨hvalues, hn, hsplines _ hvalues, hstrokes ⟨4, true, 5, 1 / 5⟩ {} stroke hn⟩

end PenStroke
