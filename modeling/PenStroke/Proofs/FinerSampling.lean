import PenStroke.Proofs.FigureEnds
import PenStroke.Proofs.SampledPoints

/-! Sampling more finely. Each step between samples is divided into equal parts, so the samples
there were are found again among more of them. Where the intervals of the curve are divided evenly,
the captured points are among the samples too. -/
namespace PenStroke

section Parts
variable {α : Type}

/-- The options with every step between samples divided into that many parts. -/
def SamplingOptions.inParts (options : SamplingOptions α) (parts : ℕ) : SamplingOptions α :=
  { options with samples := parts * (options.samples - 1) + 1 }

end Parts

variable {K : Type} [Field K] [LinearOrder K] [FloorRing K]

theorem SamplingOptions.getElem?_samplePoints (options : SamplingOptions K) (curve : PlaneSpline K)
    {k : ℕ} (hk : k < max options.samples 2) :
    (options.samplePoints curve)[k]? = some (options.sample curve k) := by
  rw [samplePoints, List.getElem?_map, List.getElem?_range hk, Option.map_some]

theorem natCast_pred_ne_zero {n : ℕ} (h : 2 ≤ n) : ((n - 1 : ℕ) : K) ≠ 0 := by
  rw [Nat.cast_ne_zero]
  omega

/-- A fraction of the index is the same fraction of more samples. -/
theorem parameter_inParts {n parts : ℕ} (hn : 2 ≤ n) (hparts : 1 ≤ parts) (k : ℕ) :
    (parameter (parts * (n - 1) + 1) (parts * k) : K) = parameter n k := by
  have hpos : 1 ≤ parts * (n - 1) := Nat.mul_pos hparts (by omega)
  have hlast : max (parts * (n - 1) + 1) 2 - 1 = parts * (n - 1) := by omega
  have hne : (parts : K) ≠ 0 := by
    rw [Nat.cast_ne_zero]
    omega
  rw [parameter_eq, parameter_eq, hlast, max_eq_left hn, Nat.cast_mul, Nat.cast_mul,
    mul_div_mul_left _ _ hne]

/-- Where each interval has as many samples as the others, a knot is met by every so many. -/
theorem parameter_knot {n m : ℕ} (hn : 2 ≤ n) (hm : 1 ≤ m) (hdvd : m ∣ n - 1) (i : ℕ) :
    (parameter n (i * (n - 1) / m) : K) = i / m := by
  have hm' : (m : K) ≠ 0 := by
    rw [Nat.cast_ne_zero]
    omega
  rw [parameter_eq, max_eq_left hn, Nat.cast_div (hdvd.mul_left i) hm', Nat.cast_mul,
    div_div, mul_comm (m : K), ← div_div, mul_div_cancel_right₀ _ (natCast_pred_ne_zero hn)]

namespace SamplingOptions
variable (options : SamplingOptions K) (curve : PlaneSpline K)

theorem sample_inParts {parts : ℕ} (hn : 2 ≤ options.samples) (hparts : 1 ≤ parts) (k : ℕ) :
    (options.inParts parts).sample curve (parts * k) = options.sample curve k :=
  congrArg curve.eval (parameter_inParts hn hparts k)

theorem length_samplePoints_inParts {parts : ℕ} (hn : 2 ≤ options.samples) (hparts : 1 ≤ parts) :
    ((options.inParts parts).samplePoints curve).length = parts * (options.samples - 1) + 1 := by
  have hpos : 1 ≤ parts * (options.samples - 1) := Nat.mul_pos hparts (by omega)
  rw [length_samplePoints]
  exact max_eq_left (Nat.succ_le_succ hpos)

/-- Every so many of the finer samples are the samples there were, and there
are none after them. -/
theorem getElem?_samplePoints_inParts {parts : ℕ} (hn : 2 ≤ options.samples) (hparts : 1 ≤ parts)
    (k : ℕ) : ((options.inParts parts).samplePoints curve)[parts * k]? =
      (options.samplePoints curve)[k]? := by
  have hfine := options.length_samplePoints_inParts curve hn hparts
  have hcoarse : (options.samplePoints curve).length = options.samples := by
    rw [length_samplePoints, max_eq_left hn]
  rcases lt_or_ge k options.samples with hk | hk
  · have hk' : parts * k < max (options.inParts parts).samples 2 := by
      have hle : parts * k ≤ parts * (options.samples - 1) := Nat.mul_le_mul_left _ (by omega)
      rw [← length_samplePoints, hfine]
      exact Nat.lt_succ_of_le hle
    rw [getElem?_samplePoints _ _ hk', getElem?_samplePoints _ _ (by omega),
      options.sample_inParts curve hn hparts]
  · have hend : parts * (options.samples - 1) + 1 ≤ parts * k := by
      have hstep : parts * (options.samples - 1 + 1) ≤ parts * k :=
        Nat.mul_le_mul_left _ (by omega)
      rw [Nat.mul_succ] at hstep
      omega
    rw [List.getElem?_eq_none (hfine.trans_le hend), List.getElem?_eq_none (hcoarse.trans_le hk)]

variable [IsStrictOrderedRing K]

/-- Samples meet the captured points where the intervals are divided evenly. -/
theorem getElem?_samplePoints_knot {points : List (Point K)} {slopes : List (Offset K)}
    (h : slopes.length = points.length) (hp : 2 ≤ points.length) (hn : 2 ≤ options.samples)
    (hdvd : points.length - 1 ∣ options.samples - 1) {i : ℕ} (hi : i < points.length) :
    (options.samplePoints (.hermite points slopes))[i * (options.samples - 1) /
      (points.length - 1)]? = points[i]? := by
  have hm : 1 ≤ points.length - 1 := by omega
  have hindex : i * (options.samples - 1) / (points.length - 1) ≤ options.samples - 1 := by
    apply Nat.div_le_of_le_mul
    exact Nat.mul_le_mul_right _ (by omega)
  rw [getElem?_samplePoints _ _ (by omega), sample, parameter_knot hn hm hdvd,
    PlaneSpline.eval_knot h hp hi]

end SamplingOptions

variable [IsStrictOrderedRing K] [Hypotenuse K]

/-- Without waypoints a stroke of two points or more is drawn by joining its samples. Divided into
equal parts, the steps between them have the samples there were at their ends, in order. Where each
interval between captured points has a whole number of steps, every captured point is the sample
after as many intervals of steps as there are before it. -/
theorem sampled_more_finely (options : SamplingOptions K) (hoff : options.waypoints = false)
    (hn : 2 ≤ options.samples) {stroke : Stroke K} (hp : 2 ≤ stroke.points.length) {parts : ℕ}
    (hparts : 1 ≤ parts) :
    ∃ samples finer, options.DrawsJoined stroke samples ∧ samples.length = options.samples ∧
      (options.inParts parts).DrawsJoined stroke finer ∧
      finer.length = parts * (options.samples - 1) + 1 ∧
      (∀ k, finer[parts * k]? = samples[k]?) ∧
      (stroke.points.length - 1 ∣ options.samples - 1 → ∀ i < stroke.points.length,
        samples[i * (options.samples - 1) / (stroke.points.length - 1)]? = stroke.points[i]?) := by
  obtain ⟨slopes, h, -, -, hcurve⟩ := PlaneSpline.through?_eq_hermite hp
  have hoff' : (options.inParts parts).waypoints = false := hoff
  have hf : ∀ p ∈ stroke.points, p.isFinite := fun _ _ => rfl
  refine ⟨_, _, SamplingOptions.drawsJoined hoff hp hf hcurve, ?_,
    SamplingOptions.drawsJoined hoff' hp hf hcurve,
    options.length_samplePoints_inParts _ hn hparts,
    options.getElem?_samplePoints_inParts _ hn hparts,
    fun hdvd i => options.getElem?_samplePoints_knot h hp hn hdvd⟩
  rw [SamplingOptions.length_samplePoints, max_eq_left hn]

/-- A corner drawn by two steps to each interval, and by three times as many. -/
theorem sampled_more_finely_corner :
    let options : SamplingOptions ℝ := ⟨5, false, 5, 1 / 5⟩
    let stroke : Stroke ℝ := ⟨[⟨0, 0⟩, ⟨30, 30⟩, ⟨60, 10⟩]⟩
    options.waypoints = false ∧ 2 ≤ options.samples ∧ 2 ≤ stroke.points.length ∧ 1 ≤ 3 ∧
    ∃ samples finer, options.DrawsJoined stroke samples ∧ samples.length = 5 ∧
      (options.inParts 3).DrawsJoined stroke finer ∧ finer.length = 13 ∧
      finer[9]? = samples[3]? ∧ samples[2]? = some ⟨30, 30⟩ := by
  intro options stroke
  have hp : 2 ≤ stroke.points.length := by decide
  have hthree : 1 ≤ 3 := by decide
  obtain ⟨samples, finer, hsamples, hlength, hfiner, hlength', hparts, hknots⟩ :=
    sampled_more_finely options rfl (by decide) hp hthree
  have hdvd : stroke.points.length - 1 ∣ options.samples - 1 := by decide
  have hknot := hknots hdvd 1 (by decide)
  rw [show 1 * (options.samples - 1) / (stroke.points.length - 1) = 2 by decide] at hknot
  exact ⟨rfl, by decide, hp, hthree, samples, finer, hsamples, hlength, hfiner, hlength',
    hparts 3, hknot⟩

end PenStroke
