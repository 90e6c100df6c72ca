import PenStroke.Proofs.BezierForm
import PenStroke.Proofs.DoubleArithmetic

/-! The interval that a parameter falls on. There is always one, whatever double the parameter is,
so a spline is evaluated on an interval that it has. A plane curve need not have axes of one size;
it is undefined where one of them has no interval. -/
namespace PenStroke

open Float.Model Float.Model.UnpackedFloat Binary64

namespace Binary64
variable {u x : Float} {n : ℕ}

/-- Only values above zero have a whole part. -/
theorem natFloor_eq_zero (h : ¬ InRange .positive (parts x)) : natFloor x = 0 := by
  cases hx : parts x with
  | finite s m e hm =>
    cases s with
    | negative => simp only [natFloor, hx]
    | positive => exact absurd (hx ▸ .finite hm (canonical_of_parts hx)) h
  | infinity s | notANumber | zero s => simp only [natFloor, hx]

/-- The whole part of the smaller of two values is at most that of the second. -/
theorem natFloor_least_le (h : n ≤ 2 ^ 53) :
    natFloor (Scalar.least x (Float.ofNat n)) ≤ n := by
  obtain ⟨hfinite, hmagnitude⟩ := inRange_ofNat h
  unfold Scalar.least
  split_ifs with hlt
  · by_cases hx : InRange .positive (parts x)
    · have hlt := (lt_iff_magnitude hx hfinite).mp hlt
      rw [natFloor_eq hx]
      exact Nat.floor_le_of_le (hlt.le.trans hmagnitude.le)
    · rw [natFloor_eq_zero hx]
      exact n.zero_le
  · rw [natFloor_eq hfinite, hmagnitude, Nat.floor_natCast]

/-- A value that is neither below zero nor above one is finite and has no negative sign. -/
theorem inRange_of_not_lt (h : ¬ u.isNaN) (hbelow : ¬ u < Float.ofNat 0)
    (habove : ¬ Float.ofNat 1 < u) : InRange .positive (parts u) := by
  have hzero : parts (Float.ofNat 0) = .zero .positive := rfl
  have hone : parts (Float.ofNat 1) = .finite .positive (2 ^ 52) (-52) (by decide) := rfl
  rw [isNaN_iff] at h
  rw [lt_iff, hzero] at hbelow
  rw [lt_iff, hone] at habove
  cases hu : parts u with
  | notANumber => exact absurd hu h
  | zero s => exact .zero s
  | infinity s =>
    rw [hu] at hbelow habove
    cases s with
    | negative =>
      exact absurd ⟨by simp, by simp, by simp [standing, Prod.Lex.toLex_lt_toLex]⟩ hbelow
    | positive =>
      exact absurd ⟨by simp, by simp, by simp [standing, Prod.Lex.toLex_lt_toLex]⟩ habove
  | finite s m e hm =>
    rw [hu] at hbelow
    cases s with
    | negative =>
      exact absurd ⟨by simp, by simp, by simp [standing, Prod.Lex.toLex_lt_toLex]⟩ hbelow
    | positive => exact .finite hm (canonical_of_parts hu)

/-- Held between zero and one, a parameter that is not undefined is finite. -/
theorem inRange_clamp_unit (h : ¬ u.isNaN) :
    InRange .positive (parts (Scalar.clamp u (Float.ofNat 0) (Float.ofNat 1))) ∧
      magnitude (parts (Scalar.clamp u (Float.ofNat 0) (Float.ofNat 1))) ≤ 1 := by
  have hzero : parts (Float.ofNat 0) = .zero .positive := rfl
  obtain ⟨hone, hone'⟩ := inRange_ofNat (n := 1) (by decide)
  rw [Nat.cast_one] at hone'
  unfold Scalar.clamp
  split_ifs with hbelow habove
  · rw [hzero]
    exact ⟨.zero _, zero_le_one⟩
  · exact ⟨hone, hone'.le⟩
  · have hinRange := inRange_of_not_lt h hbelow habove
    rw [lt_iff_magnitude hone hinRange, hone', not_lt] at habove
    exact ⟨hinRange, habove⟩

end Binary64

namespace Spline
variable {last : ℕ} {u : Float}

/-- The parameter counted in intervals. -/
def counted (count : ℕ) (u : Float) : Float :=
  Scalar.clamp u (Float.ofNat 0) (Float.ofNat 1) * Float.ofNat count

theorem locate?_eq (last : ℕ) (u : Float) :
    let k := natFloor (Scalar.least (counted (last + 1) u) (Float.ofNat last))
    locate? (last + 1) u = some (k, counted (last + 1) u - Float.ofNat k) :=
  rfl

theorem inRange_counted {count : ℕ} (h : count ≤ 2 ^ 53) (hu : ¬ u.isNaN) :
    InRange .positive (parts (counted count u)) ∧ magnitude (parts (counted count u)) ≤ count := by
  obtain ⟨hclamp, hclamp'⟩ := inRange_clamp_unit hu
  obtain ⟨hcount, hcount'⟩ := inRange_ofNat h
  have hb := isMagnitude_natCast h
  have hle : magnitude (parts (Scalar.clamp u (Float.ofNat 0) (Float.ofNat 1))) *
      magnitude (parts (Float.ofNat count)) ≤ count := by
    rw [hcount']
    exact mul_le_of_le_one_left (Nat.cast_nonneg _) hclamp'
  have hrounded := rounded_mul hclamp hcount hb hle
  exact ⟨hrounded.inRange hb hle, hrounded.le hb hle⟩

/-- The interval that a parameter falls on holds it; the last one holds its end too. -/
theorem counted_mem (h : last + 1 ≤ 2 ^ 53) (hu : ¬ u.isNaN) :
    let k := natFloor (Scalar.least (counted (last + 1) u) (Float.ofNat last))
    (k : ℚ) ≤ magnitude (parts (counted (last + 1) u)) ∧
      magnitude (parts (counted (last + 1) u)) ≤ k + 1 := by
  intro k
  obtain ⟨hcounted, hend⟩ := inRange_counted h hu
  obtain ⟨hlast, hlast'⟩ := inRange_ofNat (n := last) (by omega)
  simp only [k, Scalar.least]
  split_ifs with hlt
  · rw [natFloor_eq hcounted]
    exact ⟨Nat.floor_le (magnitude_nonneg _), (Nat.lt_floor_add_one _).le⟩
  · rw [lt_iff_magnitude hcounted hlast, hlast', not_lt] at hlt
    rw [natFloor_eq hlast, hlast', Nat.floor_natCast]
    exact ⟨hlt, by exact_mod_cast hend⟩

/-- The parameter within the interval is in the unit interval, also when it has been rounded. -/
theorem local_mem_unit (h : last + 1 ≤ 2 ^ 53) (hu : ¬ u.isNaN) :
    let k := natFloor (Scalar.least (counted (last + 1) u) (Float.ofNat last))
    0 ≤ counted (last + 1) u - Float.ofNat k ∧ counted (last + 1) u - Float.ofNat k ≤ 1 := by
  intro k
  obtain ⟨hcounted, -⟩ := inRange_counted h hu
  obtain ⟨hlow, hhigh⟩ := counted_mem h hu
  have hk : k ≤ last := natFloor_least_le (by omega)
  obtain ⟨hindex, hindex'⟩ := inRange_ofNat (n := k) (by omega)
  obtain ⟨hone, hone'⟩ := inRange_ofNat (n := 1) (by decide)
  have hb := isMagnitude_natCast (n := 1) (by decide)
  have hrounded := rounded_sub hcounted hindex (by rw [hindex']; exact hlow)
  have hunit : magnitude (parts (counted (last + 1) u)) - magnitude (parts (Float.ofNat k)) ≤
      (1 : ℕ) := by
    rw [hindex', Nat.cast_one]
    linarith
  have hlocal := hrounded.inRange hb hunit
  constructor
  · exact (le_iff_magnitude (InRange.zero .positive) hlocal).mpr (magnitude_nonneg _)
  · exact (le_iff_magnitude hlocal hone).mpr (hone'.symm ▸ hrounded.le hb hunit)

/-- An undefined parameter is undefined within its interval. -/
theorem isNaN_local (hu : u.isNaN) (count k : ℕ) : (counted count u - Float.ofNat k).isNaN := by
  have hclamp : Scalar.clamp u (Float.ofNat 0) (Float.ofNat 1) = u := by
    rw [Scalar.clamp, if_neg, if_neg (not_lt_of_isNaN hu _)]
    exact fun hlt => (not_isNaN_of_lt hlt).1 hu
  rw [counted, hclamp]
  exact isNaN_sub (isNaN_mul hu _) _

/-- A parameter falls on an interval that there is, and in the unit interval there unless it is
undefined. -/
theorem exists_locate?_double {count : ℕ} (hpos : 0 < count) (h : count ≤ 2 ^ 53) (u : Float) :
    ∃ k t, locate? count u = some (k, t) ∧ k < count ∧ (0 ≤ t ∧ t ≤ 1 ↔ ¬ u.isNaN) := by
  obtain ⟨last, rfl⟩ := Nat.exists_eq_succ_of_ne_zero hpos.ne'
  refine ⟨_, _, locate?_eq last u, Nat.lt_succ_of_le (natFloor_least_le (by omega)), ?_, ?_⟩
  · rintro ⟨hlow, -⟩ hu
    exact (le_iff.mp hlow).2.1 (Binary64.isNaN_iff.mp (isNaN_local hu _ _))
  · exact local_mem_unit h

end Spline

namespace PlaneSpline
variable {curve : PlaneSpline Float} {u : Float}

/-- What a curve gives at a parameter: the point on the interval that the parameter falls on along
the first axis, if both axes have that interval, and an undefined point if not. -/
structure AnswersAt (curve : PlaneSpline Float) (u : Float) (p : Point Float) : Prop where
  defined : ∀ k t x y, Spline.locate? curve.x.size u = some (k, t) →
    curve.x.segments[k]? = some x → curve.y.segments[k]? = some y → p = ⟨x.eval t, y.eval t⟩
  undefined : (¬ ∃ k t x y, Spline.locate? curve.x.size u = some (k, t) ∧
    curve.x.segments[k]? = some x ∧ curve.y.segments[k]? = some y) → p.x.isNaN ∧ p.y.isNaN

theorem eval_of_no_interval
    (h : ∀ k t, Spline.locate? curve.size u = some (k, t) → curve.onInterval? k t = none) :
    curve.eval u = ⟨Scalar.undefined, Scalar.undefined⟩ := by
  unfold eval
  cases hlocate : Spline.locate? curve.size u with
  | none => rfl
  | some located => exact congrArg (Option.getD · _) (h located.1 located.2 hlocate)

theorem answersAt_eval (curve : PlaneSpline Float) (u : Float) :
    curve.AnswersAt u (curve.eval u) := by
  constructor
  · intro k t x y hk hx hy
    refine curve.eval_of_locate? hk ?_
    simp [onInterval?, hx, hy]
  · intro hnone
    have hinterval : ∀ k t, Spline.locate? curve.size u = some (k, t) →
        curve.onInterval? k t = none := by
      intro k t hk
      by_contra hp
      obtain ⟨p, hp⟩ := Option.ne_none_iff_exists'.mp hp
      simp only [onInterval?, Option.bind_eq_bind, Option.bind_eq_some_iff] at hp
      obtain ⟨x, hx, y, hy, -⟩ := hp
      exact hnone ⟨k, t, x, y, hk, hx, hy⟩
    rw [eval_of_no_interval hinterval]
    exact ⟨rfl, rfl⟩

/-- Axes of one size answer each for its own coordinate. -/
theorem eval_of_size_eq (h : curve.x.size = curve.y.size) (u : Float) :
    curve.eval u = ⟨curve.x.eval u, curve.y.eval u⟩ := by
  unfold eval Spline.eval PlaneSpline.size
  rw [← h]
  cases hlocate : Spline.locate? curve.x.size u with
  | none => rfl
  | some located =>
    obtain ⟨k, t⟩ := located
    by_cases hk : k < curve.x.segments.length
    · have hk' : k < curve.y.segments.length := by
        rwa [← Spline.size, ← h]
      simp [hk, hk']
    · have hk' : ¬ k < curve.y.segments.length := by
        rwa [← Spline.size, ← h]
      simp [hk, hk']

/-- Nothing is drawn for a curve without Bézier curves. -/
theorem drawOn_of_beziers_eq_nil (h : curve.beziers = []) (path : Path Float) :
    curve.drawOn path = path := by
  rw [drawOn, h]

/-- A curve has an answer at every parameter and can always be drawn, whatever its axes are. -/
structure AnswersEverywhere (curve : PlaneSpline Float) : Prop where
  eval : ∀ u, curve.AnswersAt u (curve.eval u)
  start : curve.AnswersAt 0 curve.start
  finish : curve.AnswersAt 1 curve.finish
  coordinates : curve.x.size = curve.y.size → ∀ u, curve.eval u = ⟨curve.x.eval u, curve.y.eval u⟩
  beziers : curve.beziers.length = min curve.x.size curve.y.size
  empty : curve.beziers = [] → ∀ path, curve.drawOn path = path
  drawn : ∀ b, curve.beziers.head? = some b → ∀ path, (curve.drawOn path).toList =
    path.toList ++ .moveTo b.start :: curve.beziers.map Bezier.command

theorem answersEverywhere (curve : PlaneSpline Float) : curve.AnswersEverywhere where
  eval := curve.answersAt_eval
  start := curve.answersAt_eval 0
  finish := curve.answersAt_eval 1
  coordinates := eval_of_size_eq
  beziers := curve.length_beziers
  empty := drawOn_of_beziers_eq_nil
  drawn _ h := toList_drawOn (List.head?_eq_getElem?.symm.trans h)

/-- Every parameter falls on an interval that there is, and on the unit interval there unless it is
undefined. A spline is so evaluated on an interval of its own, and a plane curve answers also where
its axes have different sizes. -/
theorem located_everywhere :
    (∀ (count : ℕ) (u : Float), 0 < count → count ≤ 2 ^ 53 → ∃ k t,
      Spline.locate? count u = some (k, t) ∧ k < count ∧ (0 ≤ t ∧ t ≤ 1 ↔ ¬ u.isNaN)) ∧
    (∀ (s : Spline Float) (u : Float), s.size ≤ 2 ^ 53 → ∀ k t,
      Spline.locate? s.size u = some (k, t) →
      ∃ segment, s.segments[k]? = some segment ∧ s.eval u = segment.eval t) ∧
    ∀ curve : PlaneSpline Float, curve.AnswersEverywhere := by
  refine ⟨fun count u hpos h => Spline.exists_locate?_double hpos h u, ?_, answersEverywhere⟩
  intro s u h k t hlocate
  have hpos : 0 < s.size := by
    rw [Nat.pos_iff_ne_zero]
    intro hzero
    rw [hzero] at hlocate
    cases hlocate
  obtain ⟨k', t', hlocate', hk, -⟩ := Spline.exists_locate?_double hpos h u
  obtain ⟨rfl, rfl⟩ : k = k' ∧ t = t' := by simpa [hlocate] using hlocate'
  have hsegment : s.segments[k]? = some s.segments[k] := List.getElem?_eq_getElem hk
  refine ⟨_, hsegment, ?_⟩
  simp [Spline.eval, hlocate, hsegment]

/-- Three intervals at an undefined parameter, a line at its end, and axes of two sizes. -/
theorem located_everywhere_uneven :
    (∃ k t, Spline.locate? 3 (0 / 0 : Float) = some (k, t) ∧ k < 3 ∧
      (0 ≤ t ∧ t ≤ 1 ↔ ¬ (0 / 0 : Float).isNaN)) ∧
    (∃ segment : Cubic Float, ([⟨0, 0, 5, 0⟩] : List (Cubic Float))[0]? = some segment ∧
      (⟨[⟨0, 0, 5, 0⟩]⟩ : Spline Float).eval 1 = segment.eval 1) ∧
    (⟨⟨[⟨0, 0, 1, 0⟩, ⟨0, 0, 1, 0⟩]⟩, ⟨[⟨0, 0, 1, 0⟩]⟩⟩ : PlaneSpline Float).AnswersEverywhere :=
  ⟨located_everywhere.1 3 (0 / 0) (by decide) (by decide),
    located_everywhere.2.1 ⟨[⟨0, 0, 5, 0⟩]⟩ 1 (by decide) 0 1 (by decide +kernel),
    located_everywhere.2.2 _⟩

end PlaneSpline

end PenStroke
