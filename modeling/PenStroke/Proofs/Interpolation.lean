import PenStroke.Proofs.NaturalSpline

/-! The natural spline through points passes through them. Each interval has an equal share of the
parameter. A parameter that falls on a knot belongs to two intervals, which agree there. -/
namespace PenStroke

section Between
variable {α : Type}

/-- Interval `k` leads from `p` to `q`, and the slopes at its ends are `d` and `e`. -/
structure PlaneSpline.Between (points : List (Point α)) (slopes : List (Offset α)) (k : ℕ)
    (p q : Point α) (d e : Offset α) : Prop where
  start : points[k]? = some p
  finish : points[k + 1]? = some q
  leaving : slopes[k]? = some d
  arriving : slopes[k + 1]? = some e

theorem PlaneSpline.exists_between {points : List (Point α)} {slopes : List (Offset α)}
    (h : slopes.length = points.length) {k : ℕ} (hk : k + 1 < points.length) :
    ∃ p q d e, Between points slopes k p q d e := by
  have hp : k < points.length := by omega
  have hd : k < slopes.length := by omega
  have he : k + 1 < slopes.length := by omega
  exact ⟨points[k], points[k + 1], slopes[k], slopes[k + 1], List.getElem?_eq_getElem hp,
    List.getElem?_eq_getElem hk, List.getElem?_eq_getElem hd, List.getElem?_eq_getElem he⟩

end Between

section Intervals
variable {α : Type} [Scalar α]

namespace Spline

theorem length_hermiteSegments (values slopes : List α) (h : slopes.length = values.length) :
    (hermiteSegments values slopes).length = values.length - 1 := by
  match values, slopes, h with
  | [], _, _ | [_], [_], _ => rfl
  | u :: v :: vs, a :: b :: ds, h =>
    have ih := length_hermiteSegments (v :: vs) (b :: ds) (by simpa using h)
    rw [hermiteSegments, List.length_cons, ih]
    rfl

theorem getElem?_hermiteSegments {values slopes : List α} {k : ℕ} {v w d e : α}
    (hv : values[k]? = some v) (hw : values[k + 1]? = some w) (hd : slopes[k]? = some d)
    (he : slopes[k + 1]? = some e) :
    (hermiteSegments values slopes)[k]? = some (.ofHermite v w d e) := by
  match values, slopes, k with
  | v₀ :: v₁ :: vs, d₀ :: d₁ :: ds, 0 =>
    simp only [List.getElem?_cons_zero, List.getElem?_cons_succ, Option.some.injEq] at hv hw hd he
    rw [hermiteSegments, List.getElem?_cons_zero, hv, hw, hd, he]
  | v₀ :: v₁ :: vs, d₀ :: d₁ :: ds, k + 1 =>
    rw [hermiteSegments, List.getElem?_cons_succ]
    exact getElem?_hermiteSegments hv hw hd he
  | [], _, _ => simp at hv
  | [_], _, _ => simp at hw
  | _ :: _ :: _, [], _ => simp at hd
  | _ :: _ :: _, [_], _ => simp at he

end Spline

namespace PlaneSpline

/-- The point at parameter `t` of interval `k`, if both axes have that interval. -/
def onInterval? (curve : PlaneSpline α) (k : ℕ) (t : α) : Option (Point α) := do
  let x ← curve.x.segments[k]?
  let y ← curve.y.segments[k]?
  pure ⟨x.eval t, y.eval t⟩

theorem eval_of_locate? (curve : PlaneSpline α) {u t : α} {k : ℕ} {p : Point α}
    (hk : Spline.locate? curve.size u = some (k, t)) (hp : curve.onInterval? k t = some p) :
    curve.eval u = p := by
  simp only [eval, hk]
  exact congrArg (Option.getD · _) hp

/-- The curve that joins neighbouring points by cubics with the given slopes. -/
def hermite (points : List (Point α)) (slopes : List (Offset α)) : PlaneSpline α :=
  ⟨⟨Spline.hermiteSegments (points.map (·.x)) (slopes.map (·.x))⟩,
    ⟨Spline.hermiteSegments (points.map (·.y)) (slopes.map (·.y))⟩⟩

section Hermite
variable {points : List (Point α)} {slopes : List (Offset α)}

theorem length_hermite (h : slopes.length = points.length) :
    (hermite points slopes).x.segments.length = points.length - 1 ∧
      (hermite points slopes).y.segments.length = points.length - 1 := by
  constructor
  · exact (Spline.length_hermiteSegments _ _ (by simpa using h)).trans (by simp)
  · exact (Spline.length_hermiteSegments _ _ (by simpa using h)).trans (by simp)

variable {k : ℕ} {p q : Point α} {d e : Offset α}

theorem Between.segments (h : Between points slopes k p q d e) :
    (hermite points slopes).x.segments[k]? = some (.ofHermite p.x q.x d.x e.x) ∧
      (hermite points slopes).y.segments[k]? = some (.ofHermite p.y q.y d.y e.y) := by
  constructor
  · apply Spline.getElem?_hermiteSegments <;>
      simp [h.start, h.finish, h.leaving, h.arriving]
  · apply Spline.getElem?_hermiteSegments <;>
      simp [h.start, h.finish, h.leaving, h.arriving]

end Hermite

end PlaneSpline

end Intervals

variable {K : Type} [Field K] [LinearOrder K] [FloorRing K]

namespace Spline

/-- The slopes are found for two values or more, and the segments have them. -/
theorem natural?_eq (values : List K) (h : 2 ≤ values.length) :
    ∃ slopes, knotSlopes? values = some slopes ∧ slopes.length = values.length ∧
      natural? values = some ⟨hermiteSegments values slopes⟩ := by
  obtain ⟨u, v, vs, rfl⟩ := exists_cons_cons h
  refine ⟨_, knotSlopes?_eq u v vs, by simp [eliminate], ?_⟩
  rw [natural?, knotSlopes?_eq, Option.map_some]

/-- The parameter is counted in intervals, and the last one keeps its end. -/
theorem locate?_succ (last : ℕ) (u : K) :
    let scaled := Scalar.clamp u 0 1 * ((last + 1 : ℕ) : K)
    let k := ⌊min scaled last⌋₊
    locate? (last + 1) u = some (k, scaled - k) := by
  simp only [locate?, Exact.numeral_zero, Exact.numeral_one, Exact.least_eq]
  rfl

theorem locate?_congr {u v : K} (h : Scalar.clamp u 0 1 = Scalar.clamp v 0 1) (n : ℕ) :
    locate? n u = locate? n v := by
  cases n with
  | zero => rfl
  | succ last => rw [locate?_succ, locate?_succ, h]

variable [IsStrictOrderedRing K]

/-- A parameter between zero and one falls on an interval that holds it. -/
theorem locate?_eq_some {n : ℕ} (hn : 0 < n) {u : K} (h₀ : 0 ≤ u) (h₁ : u ≤ 1) :
    ∃ k < n, locate? n u = some (k, u * n - k) ∧ (k : K) ≤ u * n ∧ u * n ≤ k + 1 := by
  obtain ⟨last, rfl⟩ := Nat.exists_eq_succ_of_ne_zero hn.ne'
  have hscaled : 0 ≤ u * (last + 1 : ℕ) := mul_nonneg h₀ (Nat.cast_nonneg _)
  have hend : u * (last + 1 : ℕ) ≤ (last : K) + 1 := by
    rw [Nat.cast_succ]
    exact mul_le_of_le_one_left (by positivity) h₁
  have hfloor := Nat.floor_le (le_min hscaled (Nat.cast_nonneg (α := K) last))
  refine ⟨⌊min (u * (last + 1 : ℕ)) last⌋₊, ?_, ?_, hfloor.trans (min_le_left _ _), ?_⟩
  · exact Nat.lt_succ_of_le (Nat.floor_le_of_le (min_le_right _ _))
  · rw [locate?_succ, Exact.clamp_of_mem h₀ h₁]
  · rcases le_total (u * (last + 1 : ℕ)) last with h | h
    · rw [min_eq_left h]
      exact (Nat.lt_floor_add_one _).le
    · rwa [min_eq_right h, Nat.floor_natCast]

end Spline

namespace PlaneSpline

/-- Through two points or more there is a curve, and it has the slopes found on each axis. -/
theorem through?_eq_hermite {points : List (Point K)} (h : 2 ≤ points.length) :
    ∃ slopes : List (Offset K), slopes.length = points.length ∧
      Spline.knotSlopes? (points.map (·.x)) = some (slopes.map (·.x)) ∧
      Spline.knotSlopes? (points.map (·.y)) = some (slopes.map (·.y)) ∧
      through? points = some (hermite points slopes) := by
  obtain ⟨dx, hdx, hlx, hx⟩ := Spline.natural?_eq (points.map (·.x)) (by simpa using h)
  obtain ⟨dy, hdy, hly, hy⟩ := Spline.natural?_eq (points.map (·.y)) (by simpa using h)
  rw [List.length_map] at hlx hly
  have hmapx : ((dx.zip dy).map fun d => Offset.mk d.1 d.2).map (·.x) = dx := by
    rw [List.map_map]
    exact List.map_fst_zip (hlx.trans hly.symm).le
  have hmapy : ((dx.zip dy).map fun d => Offset.mk d.1 d.2).map (·.y) = dy := by
    rw [List.map_map]
    exact List.map_snd_zip (hly.trans hlx.symm).le
  refine ⟨(dx.zip dy).map fun d => ⟨d.1, d.2⟩, ?_, ?_, ?_, ?_⟩
  · simp [hlx, hly]
  · rw [hmapx, hdx]
  · rw [hmapy, hdy]
  · rw [hermite, hmapx, hmapy]
    simp only [through?, Point.coord, hx, hy]
    rfl

theorem eval_congr {u v : K} (h : Scalar.clamp u 0 1 = Scalar.clamp v 0 1)
    (curve : PlaneSpline K) : curve.eval u = curve.eval v := by
  rw [eval, eval, Spline.locate?_congr h]

/-- A parameter outside the unit interval counts as the end it lies beyond. -/
theorem eval_clamp (curve : PlaneSpline K) (u : K) :
    curve.eval (Scalar.clamp u 0 1) = curve.eval u := by
  obtain ⟨h₀, h₁⟩ := Exact.clamp_unit_mem u
  exact eval_congr (Exact.clamp_of_mem h₀ h₁) curve

section Hermite
variable {points : List (Point K)} {slopes : List (Offset K)}

theorem Between.onInterval?_eq {k : ℕ} {p q : Point K} {d e : Offset K}
    (h : Between points slopes k p q d e) (t : K) : (hermite points slopes).onInterval? k t =
      some ⟨(Cubic.ofHermite p.x q.x d.x e.x).eval t,
        (Cubic.ofHermite p.y q.y d.y e.y).eval t⟩ := by
  obtain ⟨hx, hy⟩ := h.segments
  simp [onInterval?, hx, hy]

/-- An interval starts at the knot before it. -/
theorem onInterval?_zero (h : slopes.length = points.length) {k : ℕ} (hk : k + 1 < points.length) :
    (hermite points slopes).onInterval? k 0 = points[k]? := by
  obtain ⟨p, q, d, e, hbetween⟩ := exists_between h hk
  simp [hbetween.onInterval?_eq, hbetween.start]

/-- An interval ends at the knot after it. -/
theorem onInterval?_one (h : slopes.length = points.length) {k : ℕ} (hk : k + 1 < points.length) :
    (hermite points slopes).onInterval? k 1 = points[k + 1]? := by
  obtain ⟨p, q, d, e, hbetween⟩ := exists_between h hk
  simp [hbetween.onInterval?_eq, hbetween.finish]

variable [IsStrictOrderedRing K]

/-- Intervals that hold the same parameter have the same point there. -/
theorem onInterval?_congr (h : slopes.length = points.length) {j k : ℕ}
    (hk : k + 1 < points.length) (hjk : j ≤ k) {s : K} (hj : s ≤ j + 1) (hs : (k : K) ≤ s) :
    (hermite points slopes).onInterval? j (s - j) =
      (hermite points slopes).onInterval? k (s - k) := by
  obtain rfl | hlt := hjk.eq_or_lt
  · rfl
  · have hle : k ≤ j + 1 := by exact_mod_cast hs.trans hj
    obtain rfl : k = j + 1 := by omega
    rw [Nat.cast_succ] at hs ⊢
    obtain rfl : s = j + 1 := le_antisymm hj hs
    rw [add_sub_cancel_left, sub_self, onInterval?_one h (by omega), onInterval?_zero h hk]

theorem eval_of_interval (h : slopes.length = points.length) {k : ℕ} (hk : k + 1 < points.length)
    {u : K} (h₀ : 0 ≤ u) (h₁ : u ≤ 1) (hlo : (k : K) ≤ u * (points.length - 1 : ℕ))
    (hhi : u * (points.length - 1 : ℕ) ≤ k + 1) :
    (hermite points slopes).onInterval? k (u * (points.length - 1 : ℕ) - k) =
      some ((hermite points slopes).eval u) := by
  obtain ⟨j, hj, hlocate, hlo', hhi'⟩ :=
    Spline.locate?_eq_some (n := points.length - 1) (by omega) h₀ h₁
  have hagree : (hermite points slopes).onInterval? k (u * (points.length - 1 : ℕ) - k) =
      (hermite points slopes).onInterval? j (u * (points.length - 1 : ℕ) - j) := by
    rcases le_total k j with hkj | hjk
    · exact onInterval?_congr h (by omega) hkj hhi hlo'
    · exact (onInterval?_congr h hk hjk hhi' hlo).symm
  rw [← (length_hermite h).1] at hlocate
  obtain ⟨p, q, d, e, hbetween⟩ := exists_between h (k := j) (by omega)
  have hp := hbetween.onInterval?_eq (u * (points.length - 1 : ℕ) - j)
  rw [hagree, hp, eval_of_locate? _ hlocate]
  rwa [(length_hermite h).1]

theorem eval_knot (h : slopes.length = points.length) (hn : 2 ≤ points.length) {i : ℕ}
    (hi : i < points.length) :
    points[i]? = some ((hermite points slopes).eval (i / (points.length - 1 : ℕ))) := by
  have hpos : (0 : K) < (points.length - 1 : ℕ) := by
    rw [Nat.cast_pos]
    omega
  have hle : (i : K) ≤ (points.length - 1 : ℕ) := by
    rw [Nat.cast_le]
    omega
  have h₀ : (0 : K) ≤ i / (points.length - 1 : ℕ) := by positivity
  have h₁ : (i : K) / (points.length - 1 : ℕ) ≤ 1 := (div_le_one hpos).mpr hle
  have hscaled : (i : K) / (points.length - 1 : ℕ) * (points.length - 1 : ℕ) = i :=
    div_mul_cancel₀ _ hpos.ne'
  have hinterval {k : ℕ} (hk : k + 1 < points.length) :=
    eval_of_interval h hk h₀ h₁
  simp only [hscaled] at hinterval
  by_cases hlast : i + 1 < points.length
  · have hstart := hinterval hlast le_rfl (by linarith)
    rwa [sub_self, onInterval?_zero h hlast] at hstart
  · -- The last knot has no interval after it, so it is the end of the one before.
    obtain ⟨k, rfl⟩ : ∃ k, i = k + 1 := ⟨i - 1, by omega⟩
    have hstep : ((k + 1 : ℕ) : K) - k = 1 := by push_cast; ring
    have hend := hinterval hi (by linarith) (by linarith)
    rwa [hstep, onInterval?_one h hi] at hend

theorem eval_zero (h : slopes.length = points.length) (hn : 2 ≤ points.length) :
    points.head? = some ((hermite points slopes).eval 0) := by
  have hknot := eval_knot h hn (i := 0) (by omega)
  rwa [Nat.cast_zero, zero_div, ← List.head?_eq_getElem?] at hknot

theorem eval_one (h : slopes.length = points.length) (hn : 2 ≤ points.length) :
    points.getLast? = some ((hermite points slopes).eval 1) := by
  have hne : ((points.length - 1 : ℕ) : K) ≠ 0 := by
    rw [Nat.cast_ne_zero]
    omega
  have hknot := eval_knot h hn (i := points.length - 1) (by omega)
  rwa [div_self hne, ← List.getLast?_eq_getElem?] at hknot

end Hermite

/-- A curve passes through points: each interval has an equal share of the parameter, a parameter
has the point that any interval holding it gives, and the curve rests at its ends before and
after. -/
structure PassesThrough (points : List (Point K)) (curve : PlaneSpline K) : Prop where
  intervals : curve.x.segments.length = points.length - 1 ∧
    curve.y.segments.length = points.length - 1
  inside : ∀ u, 0 ≤ u → u ≤ 1 → ∀ k < points.length - 1,
    (k : K) ≤ u * (points.length - 1 : ℕ) → u * (points.length - 1 : ℕ) ≤ k + 1 →
    curve.onInterval? k (u * (points.length - 1 : ℕ) - k) = some (curve.eval u)
  knot : ∀ i < points.length, points[i]? = some (curve.eval (i / (points.length - 1 : ℕ)))
  before : ∀ u < 0, points.head? = some (curve.eval u)
  after : ∀ u > 1, points.getLast? = some (curve.eval u)

variable [IsStrictOrderedRing K]

/-- The natural curve through two points or more passes through them. -/
theorem through?_passesThrough (points : List (Point K)) (hn : 2 ≤ points.length) :
    ∃ curve, through? points = some curve ∧ PassesThrough points curve := by
  obtain ⟨slopes, h, -, -, hcurve⟩ := through?_eq_hermite hn
  refine ⟨_, hcurve, length_hermite h, fun u h₀ h₁ k hk => eval_of_interval h (by omega) h₀ h₁,
    fun i => eval_knot h hn, fun u hu => ?_, fun u hu => ?_⟩
  · have hclamp : Scalar.clamp u 0 1 = Scalar.clamp (0 : K) 0 1 := by
      rw [Exact.clamp_of_mem le_rfl zero_le_one, Exact.clamp_eq, if_pos hu]
    rw [eval_congr hclamp, eval_zero h hn]
  · have hclamp : Scalar.clamp u 0 1 = Scalar.clamp (1 : K) 0 1 := by
      rw [Exact.clamp_of_mem zero_le_one le_rfl, Exact.clamp_eq, if_neg (by linarith),
        if_pos hu]
    rw [eval_congr hclamp, eval_one h hn]

/-- A stroke with a repeated point that turns back. -/
theorem through?_passesThrough_turn :
    2 ≤ ([⟨0, 0⟩, ⟨3, 1⟩, ⟨3, 1⟩, ⟨-1, 4⟩] : List (Point ℚ)).length ∧
    ∃ curve, through? ([⟨0, 0⟩, ⟨3, 1⟩, ⟨3, 1⟩, ⟨-1, 4⟩] : List (Point ℚ)) = some curve ∧
      PassesThrough [⟨0, 0⟩, ⟨3, 1⟩, ⟨3, 1⟩, ⟨-1, 4⟩] curve :=
  ⟨by decide, through?_passesThrough _ (by decide)⟩

end PlaneSpline
end PenStroke
