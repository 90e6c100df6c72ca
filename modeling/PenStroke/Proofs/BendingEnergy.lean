import PenStroke.Proofs.AffineMaps

/-! The natural spline bends least. Among all curves made of cubics through the same values with
slopes that agree, the energy of one exceeds that of the natural spline by the energy of their
difference. -/
namespace PenStroke

section Definition
open scoped Scalar

/-- The bending energy of a cubic: what its squared second derivative adds up to over the unit
interval. -/
def Cubic.energy {α : Type} [Scalar α] (s : Cubic α) : α :=
  12 * s.a * s.a + 12 * s.a * s.b + 4 * s.b * s.b

end Definition

variable {K : Type} [Field K] [LinearOrder K] [FloorRing K]

namespace Cubic

theorem energy_eq (s : Cubic K) : s.energy = 12 * s.a * s.a + 12 * s.a * s.b + 4 * s.b * s.b := rfl

theorem integral_bend_sq (s : Cubic ℝ) : ∫ t in (0 : ℝ)..1, s.bend t ^ 2 = s.energy := by
  have hderiv (t : ℝ) : HasDerivAt
      (fun t => 12 * s.a ^ 2 * t ^ 3 + 12 * s.a * s.b * t ^ 2 + 4 * s.b ^ 2 * t)
      (s.bend t ^ 2) t := by
    have hcubic := (hasDerivAt_pow 3 t).const_mul (12 * s.a ^ 2)
    have hsquare := (hasDerivAt_pow 2 t).const_mul (12 * s.a * s.b)
    have hlinear := (hasDerivAt_id t).const_mul (4 * s.b ^ 2)
    refine ((hcubic.add hsquare).add hlinear).congr_deriv ?_
    rw [bend_eq]
    push_cast
    ring
  have hcontinuous : Continuous fun t => s.bend t ^ 2 := by
    simp only [bend_eq]
    fun_prop
  rw [intervalIntegral.integral_eq_sub_of_hasDerivAt (fun t _ => hderiv t)
    (hcontinuous.intervalIntegrable 0 1), energy_eq]
  ring

/-- How the energy grows when the end slopes change from `d`, `e` to `d'`, `e'`. -/
theorem energy_ofHermite (v w d e d' e' : K) : (ofHermite v w d' e').energy =
    (ofHermite v w d e).energy + (ofHermite 0 0 (d' - d) (e' - e)).energy +
      4 * ((d' - d) * (2 * d + e - 3 * (w - v)) + (e' - e) * (d + 2 * e - 3 * (w - v))) := by
  simp only [energy_eq, ofHermite_eq]
  ring

theorem energy_eq_add_sq (s : Cubic K) : s.energy = 3 * (2 * s.a + s.b) ^ 2 + s.b ^ 2 := by
  rw [energy_eq]
  ring

variable [IsStrictOrderedRing K]

theorem energy_nonneg (s : Cubic K) : 0 ≤ s.energy := by
  rw [energy_eq_add_sq]
  positivity

theorem ofHermite_zero_energy_eq_zero {d e : K} (h : (ofHermite 0 0 d e).energy = 0) :
    d = 0 ∧ e = 0 := by
  rw [energy_eq_add_sq, add_eq_zero_iff_of_nonneg (by positivity) (sq_nonneg _)] at h
  obtain ⟨hsum, hb⟩ := h
  have hsum := pow_eq_zero_iff two_ne_zero |>.mp ((mul_eq_zero_iff_left three_ne_zero).mp hsum)
  have hb := pow_eq_zero_iff two_ne_zero |>.mp hb
  rw [ofHermite_eq] at hsum hb
  dsimp only at hsum hb
  constructor <;> linarith

end Cubic

namespace Spline

/-- The energy of cubics one after the other. -/
def energy (segments : List (Cubic K)) : K := (segments.map Cubic.energy).sum

/-- The cubics through zeros whose slopes are those in which two splines through the same values
differ. -/
def difference (slopes others : List K) : List (Cubic K) :=
  hermiteSegments (slopes.map fun _ => 0) (List.zipWith (· - ·) others slopes)

theorem energy_nil : energy ([] : List (Cubic K)) = 0 := rfl

theorem energy_cons (s : Cubic K) (segments : List (Cubic K)) :
    energy (s :: segments) = s.energy + energy segments := rfl

theorem difference_cons (a b a' b' : K) (ds es : List K) :
    difference (a :: b :: ds) (a' :: b' :: es) =
      .ofHermite 0 0 (a' - a) (b' - b) :: difference (b :: ds) (b' :: es) := rfl

theorem difference_singleton (a : K) (es : List K) : difference [a] es = [] :=
  hermiteSegments_singleton 0 _

/-- For slopes that satisfy the later rows, what is left to account for is
the first slope alone. -/
theorem energy_of_laterRows {u v a b a' b' : K} {vs ds es : List K}
    (h : LaterRows (u :: v :: vs) (a :: b :: ds)) (hes : es.length = vs.length) :
    energy (hermiteSegments (u :: v :: vs) (a' :: b' :: es)) =
      energy (hermiteSegments (u :: v :: vs) (a :: b :: ds)) +
        energy (difference (a :: b :: ds) (a' :: b' :: es)) +
        4 * ((a' - a) * (2 * a + b - 3 * (v - u))) := by
  induction vs generalizing u v a b a' b' ds es with
  | nil =>
    cases ds with
    | nil =>
      rw [LaterRows] at h
      rw [hermiteSegments_cons, hermiteSegments_cons, difference_cons, difference_singleton,
        hermiteSegments_singleton, hermiteSegments_singleton, energy_cons, energy_cons,
        energy_cons, energy_nil, Cubic.energy_ofHermite u v a b a' b']
      linear_combination 4 * (b' - b) * h
    | cons c ds => simp [LaterRows] at h
  | cons w vs ih =>
    obtain ⟨c', es, rfl⟩ := List.exists_cons_of_length_eq_add_one hes
    cases ds with
    | nil => simp [LaterRows] at h
    | cons c ds =>
      rw [LaterRows] at h
      obtain ⟨hrow, hlater⟩ := h
      rw [hermiteSegments_cons u v a' b', hermiteSegments_cons u v a b, difference_cons,
        energy_cons, energy_cons, energy_cons, Cubic.energy_ofHermite u v a b a' b',
        ih hlater (by simpa using hes)]
      -- What is left over at the second knot on either side of it cancels by its row.
      linear_combination 4 * (b' - b) * hrow

/-- The energy of any other spline is that of the natural one and that of their difference. -/
theorem energy_of_slopeSystem {values slopes others : List K} (h : SlopeSystem values slopes)
    (hothers : others.length = values.length) : energy (hermiteSegments values others) =
      energy (hermiteSegments values slopes) + energy (difference slopes others) := by
  match values, slopes, others, hothers with
  | u :: v :: vs, a :: b :: ds, a' :: b' :: es, hothers =>
    obtain ⟨hfirst, hlater⟩ := h
    rw [energy_of_laterRows hlater (by simpa using hothers), hfirst]
    ring

variable [IsStrictOrderedRing K]

theorem energy_nonneg (segments : List (Cubic K)) : 0 ≤ energy segments := by
  apply List.sum_nonneg
  intro x hx
  obtain ⟨s, -, rfl⟩ := List.mem_map.mp hx
  exact s.energy_nonneg

theorem energy_cons_eq_zero_iff (s : Cubic K) (segments : List (Cubic K)) :
    energy (s :: segments) = 0 ↔ s.energy = 0 ∧ energy segments = 0 := by
  rw [energy_cons, add_eq_zero_iff_of_nonneg s.energy_nonneg (energy_nonneg segments)]

/-- A difference without energy is none. -/
theorem eq_of_energy_difference_eq_zero {slopes others : List K} (hn : 2 ≤ slopes.length)
    (hothers : others.length = slopes.length) (h : energy (difference slopes others) = 0) :
    others = slopes := by
  match slopes, others, hn with
  | a :: b :: ds, a' :: b' :: es, _ =>
    rw [difference_cons, energy_cons_eq_zero_iff] at h
    obtain ⟨ha, hb⟩ := Cubic.ofHermite_zero_energy_eq_zero h.1
    have hrest : b' :: es = b :: ds := by
      cases ds with
      | nil =>
        obtain rfl : es = [] := by simpa using hothers
        rw [sub_eq_zero.mp hb]
      | cons c ds =>
        exact eq_of_energy_difference_eq_zero (Nat.le_add_left 2 _) (by simpa using hothers) h.2
    rw [sub_eq_zero.mp ha, hrest]

end Spline

variable [IsStrictOrderedRing K]

/-- The energy of a cubic is the integral of its squared second derivative. For given values, that
of the natural spline is least among all choices of slopes, and every other choice has more. -/
theorem natural?_bends_least :
    (∀ s : Cubic ℝ, ∫ t in (0 : ℝ)..1, s.bend t ^ 2 = s.energy) ∧
    ∀ values : List K, 2 ≤ values.length → ∃ slopes,
      Spline.knotSlopes? values = some slopes ∧ slopes.length = values.length ∧
      Spline.natural? values = some ⟨Spline.hermiteSegments values slopes⟩ ∧
      ∀ others, others.length = values.length →
        Spline.energy (Spline.hermiteSegments values slopes) ≤
          Spline.energy (Spline.hermiteSegments values others) ∧
        (Spline.energy (Spline.hermiteSegments values others) =
          Spline.energy (Spline.hermiteSegments values slopes) ↔ others = slopes) := by
  refine ⟨Cubic.integral_bend_sq, fun values hn => ?_⟩
  obtain ⟨slopes, hslopes, hlength, hnatural⟩ := Spline.natural?_eq values hn
  refine ⟨slopes, hslopes, hlength, hnatural, fun others hothers => ?_⟩
  have henergy := Spline.energy_of_slopeSystem ((Spline.knotSlopes?_eq_some_iff hn).mp hslopes)
    hothers
  have hnonneg := Spline.energy_nonneg (Spline.difference slopes others)
  refine ⟨by linarith, fun heq => ?_, fun heq => heq ▸ rfl⟩
  exact Spline.eq_of_energy_difference_eq_zero (hlength ▸ hn) (hothers.trans hlength.symm)
    (by linarith)

/-- Up to a peak and down again, against slopes that are all the same. -/
theorem natural?_bends_least_peak :
    let energy (slopes : List ℝ) := Spline.energy (Spline.hermiteSegments [0, 1, 0] slopes)
    2 ≤ ([0, 1, 0] : List ℝ).length ∧ ([1, 1, 1] : List ℝ).length = ([0, 1, 0] : List ℝ).length ∧
    ∃ slopes, Spline.knotSlopes? ([0, 1, 0] : List ℝ) = some slopes ∧ slopes.length = 3 ∧
      Spline.natural? ([0, 1, 0] : List ℝ) = some ⟨Spline.hermiteSegments [0, 1, 0] slopes⟩ ∧
      energy slopes ≤ energy [1, 1, 1] ∧
      (energy [1, 1, 1] = energy slopes ↔ [1, 1, 1] = slopes) := by
  intro energy
  obtain ⟨slopes, hslopes, hlength, hnatural, hleast⟩ :=
    (natural?_bends_least (K := ℝ)).2 [0, 1, 0] (by decide)
  exact ⟨by decide, rfl, slopes, hslopes, hlength, hnatural, hleast [1, 1, 1] rfl⟩

end PenStroke
