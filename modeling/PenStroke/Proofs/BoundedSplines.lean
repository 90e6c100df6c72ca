import PenStroke.Proofs.Hypotenuses
import PenStroke.Proofs.KnotSlopes
import PenStroke.Proofs.LocatedIntervals

/-! Splines over doubles through bounded values. The factors of the eliminated system stay below
one half, so that the slopes at the knots are bounded by the values however many there are, and so
are the cubics between the knots and all they evaluate to. -/
namespace PenStroke

open Float.Model Float.Model.UnpackedFloat Binary64

namespace Binary64

/-- Not negative, and one half at most. -/
structure AtMostHalf (x : Float) : Prop where
  range : InRange .positive (parts x)
  le : magnitude (parts x) ≤ 1 / 2

variable {g x y : Float} {p n : ℕ} {d : ℚ}

theorem AtMostHalf.finite (h : AtMostHalf g) : g.isFinite = true := isFinite_iff.mpr ⟨_, h.range⟩

/-- The reciprocal of a value that is not below a bound. -/
theorem reciprocal_le (hx : InRange .positive (parts x)) (hd : 0 < d)
    (hle : d ≤ magnitude (parts x)) (hb : IsMagnitude (1 / d)) :
    InRange .positive (parts (1 / x)) ∧ magnitude (parts (1 / x)) ≤ 1 / d := by
  obtain ⟨hone, hone'⟩ := inRange_one
  have hquotient : magnitude (parts 1) / magnitude (parts x) ≤ 1 / d := by
    rw [hone']
    exact one_div_le_one_div_of_le hd hle
  have hrounded := rounded_div hone hx (hd.trans_le hle).ne' hb hquotient
  exact ⟨hrounded.inRange hb hquotient, hrounded.le hb hquotient⟩

theorem atMostHalf_half : AtMostHalf (1 / 2) := by
  obtain ⟨htwo, htwo'⟩ := inRange_ofNat (n := 2) (by decide)
  have hb : IsMagnitude (1 / 2) := ⟨1, -1, by decide, by decide, by decide, by norm_num⟩
  obtain ⟨hrange, hle⟩ := reciprocal_le htwo two_pos htwo'.ge hb
  exact ⟨hrange, hle⟩

/-- A whole number less a value of one half at most. -/
theorem le_sub_atMostHalf (hg : AtMostHalf g) (hn : n ≤ 2 ^ 53) (hd : IsMagnitude d)
    (hle : d + 1 / 2 ≤ n) : InRange .positive (parts (Float.ofNat n - g)) ∧
      d ≤ magnitude (parts (Float.ofNat n - g)) := by
  obtain ⟨hrange, hvalue⟩ := inRange_ofNat hn
  have hless := hg.le
  have hpos := hd.nonneg
  have hrounded := rounded_sub hrange hg.range (by rw [hvalue]; linarith)
  rw [hvalue] at hrounded
  have hmost : (n : ℚ) - magnitude (parts g) ≤ n := sub_le_self _ (magnitude_nonneg _)
  exact ⟨hrounded.inRange (isMagnitude_natCast hn) hmost, hrounded.ge hd (by linarith)⟩

/-- A factor of one half at most takes off a place. -/
theorem Within.mul_half (hx : Within (p + 1) x) (hy : AtMostHalf y) (hp : p ≤ 1023) :
    Within p (x * y) := by
  refine hx.mul_of_le hy.finite ?_ hp
  calc magnitude (parts x) * magnitude (parts y) ≤ 2 ^ (p + 1) * (1 / 2) :=
        mul_le_mul hx.le hy.le (magnitude_nonneg _) (by positivity)
    _ = 2 ^ p := by ring

theorem AtMostHalf.mul (hx : AtMostHalf x) (hy : Within (p + 1) y) (hp : p ≤ 1023) :
    Within p (x * y) := by
  refine Within.mul_of_le (p := 0) ⟨hx.finite, hx.le.trans (by norm_num)⟩ hy.finite ?_ hp
  calc magnitude (parts x) * magnitude (parts y) ≤ 1 / 2 * 2 ^ (p + 1) :=
        mul_le_mul hx.le hy.le (magnitude_nonneg _) (by positivity)
    _ = 2 ^ p := by ring

end Binary64

namespace Spline

section Rows
variable {p : ℕ} {u v w : Float} {above row : Row Float} {rows : List (Row Float)}

/-- A row of an inner knot through values within `2 ^ p`. -/
structure Row.Within (p : ℕ) (row : Row Float) : Prop where
  factor : AtMostHalf row.factor
  rhs : Binary64.Within (p + 3) row.rhs

/-- All rows from some knot on. The factor of the last one is not used. -/
inductive RowsWithin (p : ℕ) : List (Row Float) → Prop where
  | last {row : Row Float} (h : Binary64.Within (p + 4) row.rhs) : RowsWithin p [row]
  | cons {row : Row Float} {rows : List (Row Float)} (h : row.Within p) (hs : RowsWithin p rows) :
      RowsWithin p (row :: rows)

theorem within_three_mul_sub (hp : p + 3 ≤ 1023) (hu : Binary64.Within p u)
    (hv : Binary64.Within p v) : Binary64.Within (p + 3) (3 * (v - u)) := by
  have hthree : Binary64.Within 2 3 := within_ofNat (n := 3) (by decide) (by decide)
  have hdiff : Binary64.Within (p + 1) (v - u) := hv.sub hu (by omega)
  exact hthree.mul hdiff (by omega)

theorem within_firstRow (hp : p + 4 ≤ 1023) (hu : Binary64.Within p u) (hv : Binary64.Within p v) :
    (firstRow u v).Within p :=
  ⟨atMostHalf_half,
    ((within_three_mul_sub (by omega) hu hv).mono (by omega)).mul_half atMostHalf_half (by omega)⟩

/-- Elimination keeps the bounds from one row to the next. -/
theorem rowsWithin_eliminateBelow {rest : List Float} (hp : p + 5 ≤ 1023) (habove : above.Within p)
    (hu : Binary64.Within p u) (hv : Binary64.Within p v)
    (hrest : ∀ w ∈ rest, Binary64.Within p w) : RowsWithin p (eliminateBelow above u v rest) := by
  have hrhs {a b : Float} {row : Row Float} (ha : Binary64.Within p a) (hb : Binary64.Within p b)
      (hrow : row.Within p) : Binary64.Within (p + 4) (3 * (b - a) - row.rhs) :=
    (within_three_mul_sub (by omega) ha hb).sub hrow.rhs (by omega)
  induction rest generalizing above u v with
  | nil =>
    have hone : IsMagnitude 1 := isMagnitude_natCast (n := 1) (by decide)
    obtain ⟨hrange, hle⟩ := le_sub_atMostHalf (n := 2) habove.factor (by decide) hone (by norm_num)
    obtain ⟨hfactor, hfactor'⟩ := reciprocal_le hrange one_pos hle (by rwa [div_one])
    rw [div_one] at hfactor'
    have hunit : Binary64.Within 0 (1 / (Float.ofNat 2 - above.factor)) :=
      ⟨isFinite_iff.mpr ⟨_, hfactor⟩, hfactor'⟩
    exact .last ((hrhs hu hv habove).mul hunit (by omega))
  | cons w rest ih =>
    have htwo : IsMagnitude 2 := isMagnitude_natCast (n := 2) (by decide)
    have hhalf : IsMagnitude (1 / 2) := ⟨1, -1, by decide, by decide, by decide, by norm_num⟩
    obtain ⟨hrange, hle⟩ := le_sub_atMostHalf (n := 4) habove.factor (by decide) htwo (by norm_num)
    obtain ⟨hfactor, hfactor'⟩ := reciprocal_le hrange two_pos hle hhalf
    have hrow : Row.Within p ⟨1 / (Float.ofNat 4 - above.factor),
        (3 * (w - u) - above.rhs) * (1 / (Float.ofNat 4 - above.factor))⟩ :=
      ⟨⟨hfactor, hfactor'⟩,
        (hrhs hu (hrest w (by simp)) habove).mul_half ⟨hfactor, hfactor'⟩ (by omega)⟩
    exact .cons hrow (ih hrow hv (hrest w (by simp)) fun x hx => hrest x (by simp [hx]))

/-- Back substitution keeps the bounds from the last row upwards. -/
theorem within_backSubstitute (hp : p + 4 ≤ 1023) (h : RowsWithin p rows) :
    ∀ d ∈ backSubstitute rows, Binary64.Within (p + 4) d := by
  induction h with
  | last h =>
    intro d hd
    obtain rfl : d = _ := List.mem_singleton.mp hd
    exact h
  | @cons row rows h hs ih =>
    rw [backSubstitute_cons]
    cases hbelow : backSubstitute rows with
    | nil =>
      intro d hd
      obtain rfl : d = row.rhs := List.mem_singleton.mp hd
      exact h.rhs.mono (by omega)
    | cons e below =>
      have he := ih e (by simp [hbelow])
      rw [List.forall_mem_cons, ← hbelow]
      exact ⟨h.rhs.sub (h.factor.mul he (by omega)) (by omega), ih⟩

theorem within_knotSlopes? {values slopes : List Float} (hp : p + 5 ≤ 1023)
    (hvalues : ∀ v ∈ values, Binary64.Within p v) (h : knotSlopes? values = some slopes) :
    slopes.length = values.length ∧ ∀ d ∈ slopes, Binary64.Within (p + 4) d := by
  unfold knotSlopes? at h
  split_ifs at h with hnone
  have hshort : 2 ≤ values.length := by
    by_contra! hlt
    exact hnone (by simp [hlt])
  obtain ⟨u, v, rest, rfl⟩ := exists_cons_cons hshort
  obtain rfl : backSubstitute (eliminate (u :: v :: rest)) = slopes := Option.some.inj h
  have hu := hvalues u (by simp)
  have hv := hvalues v (by simp)
  have hfirst := within_firstRow (by omega) hu hv
  refine ⟨by simp [eliminate], within_backSubstitute (by omega) (.cons hfirst ?_)⟩
  exact rowsWithin_eliminateBelow hp hfirst hu hv fun w hw => hvalues w (by simp [hw])

end Rows

end Spline

/-- The coefficients of a cubic between values within `2 ^ p`. -/
structure Cubic.Within (p : ℕ) (s : Cubic Float) : Prop where
  a : Binary64.Within (p + 6) s.a
  b : Binary64.Within (p + 7) s.b
  c : Binary64.Within (p + 4) s.c
  d : Binary64.Within p s.d

namespace Cubic
variable {p : ℕ} {v₀ v₁ d₀ d₁ t : Float} {s : Cubic Float}

theorem within_ofHermite (hp : p + 7 ≤ 1023) (h₀ : Binary64.Within p v₀)
    (h₁ : Binary64.Within p v₁) (hd₀ : Binary64.Within (p + 4) d₀)
    (hd₁ : Binary64.Within (p + 4) d₁) : (ofHermite v₀ v₁ d₀ d₁).Within p := by
  have htwo : Binary64.Within 1 2 := within_ofNat (n := 2) (by decide) (by decide)
  have hdrop : Binary64.Within (p + 1) (v₀ - v₁) := h₀.sub h₁ (by omega)
  have hdouble : Binary64.Within (p + 2) (2 * (v₀ - v₁)) := htwo.mul hdrop (by omega)
  have hsum : Binary64.Within (p + 5) (2 * (v₀ - v₁) + d₀) := hdouble.add hd₀ (by omega)
  have hrise := Spline.within_three_mul_sub (by omega) h₀ h₁
  have hslope : Binary64.Within (p + 5) (2 * d₀) := htwo.mul hd₀ (by omega)
  have hless : Binary64.Within (p + 6) (3 * (v₁ - v₀) - 2 * d₀) := hrise.sub hslope (by omega)
  exact ⟨hsum.add hd₁ (by omega), hless.sub hd₁ (by omega), hd₀, h₀⟩

theorem Within.eval (h : s.Within p) (ht : Binary64.Within 0 t) (hp : p + 10 ≤ 1023) :
    Binary64.Within (p + 10) (s.eval t) := by
  have hcubic : Binary64.Within (p + 6) (s.a * t) := h.a.mul ht (by omega)
  have hsum : Binary64.Within (p + 8) (s.a * t + s.b) := hcubic.add h.b (by omega)
  have hsquare : Binary64.Within (p + 8) ((s.a * t + s.b) * t) := hsum.mul ht (by omega)
  have hsum' : Binary64.Within (p + 9) ((s.a * t + s.b) * t + s.c) := hsquare.add h.c (by omega)
  have hline : Binary64.Within (p + 9) (((s.a * t + s.b) * t + s.c) * t) := hsum'.mul ht (by omega)
  exact hline.add h.d (by omega)

end Cubic

section Curves
variable {p : ℕ} {u : Float}

namespace Spline
variable {s : Spline Float} {values slopes : List Float}

theorem within_hermiteSegments (hp : p + 7 ≤ 1023) (hvalues : ∀ v ∈ values, Binary64.Within p v)
    (hslopes : ∀ d ∈ slopes, Binary64.Within (p + 4) d) :
    ∀ c ∈ hermiteSegments values slopes, c.Within p := by
  fun_induction hermiteSegments values slopes with
  | case1 v₀ v₁ vs d₀ d₁ ds ih =>
    rw [List.forall_mem_cons, List.forall_mem_cons] at hvalues hslopes
    rw [List.forall_mem_cons]
    exact ⟨Cubic.within_ofHermite hp hvalues.1 hvalues.2.1 hslopes.1 hslopes.2.1,
      ih (List.forall_mem_cons.mpr hvalues.2) (List.forall_mem_cons.mpr hslopes.2)⟩
  | case2 => simp

theorem within_natural? (hp : p + 7 ≤ 1023) (hvalues : ∀ v ∈ values, Binary64.Within p v)
    (h : natural? values = some s) :
    s.size = values.length - 1 ∧ ∀ c ∈ s.segments, c.Within p := by
  obtain ⟨slopes, hslopes, rfl⟩ := Option.map_eq_some_iff.mp h
  obtain ⟨hlength, hwithin⟩ := within_knotSlopes? (by omega) hvalues hslopes
  exact ⟨length_hermiteSegments values slopes hlength, within_hermiteSegments hp hvalues hwithin⟩

theorem within_eval (hp : p + 10 ≤ 1023) (hpos : 0 < s.size) (hsize : s.size ≤ 2 ^ 53)
    (hs : ∀ c ∈ s.segments, c.Within p) (hu : ¬ u.isNaN) :
    Binary64.Within (p + 10) (s.eval u) := by
  obtain ⟨k, t, hlocate, hk, ht⟩ := exists_locate?_double hpos hsize u
  obtain ⟨hzero, hone⟩ := ht.mpr hu
  obtain ⟨c, hc⟩ : ∃ c, s.segments[k]? = some c := ⟨_, List.getElem?_eq_getElem hk⟩
  have heval : s.eval u = c.eval t := by simp [eval, hlocate, hc]
  rw [heval]
  exact (hs c (List.mem_of_getElem? hc)).eval (within_of_mem_unit hzero hone) hp

end Spline

/-- The curve through points within bounds stays within bounds, at every parameter. -/
theorem PlaneSpline.within_eval {points : List (Point Float)} {curve : PlaneSpline Float}
    (hp : p + 10 ≤ 1023) (hn : 2 ≤ points.length) (hlength : points.length ≤ 2 ^ 53)
    (hpoints : ∀ q ∈ points, q.Within p) (hcurve : through? points = some curve) (hu : ¬ u.isNaN) :
    (curve.eval u).Within (p + 10) := by
  obtain ⟨x, hx, hcurve⟩ := Option.bind_eq_some_iff.mp hcurve
  obtain ⟨y, hy, hcurve⟩ := Option.bind_eq_some_iff.mp hcurve
  obtain rfl : ⟨x, y⟩ = curve := Option.some.inj hcurve
  obtain ⟨hsize, hx⟩ := Spline.within_natural? (by omega)
    (List.forall_mem_map.mpr fun q hq => (hpoints q hq).x) hx
  obtain ⟨hsize', hy⟩ := Spline.within_natural? (by omega)
    (List.forall_mem_map.mpr fun q hq => (hpoints q hq).y) hy
  rw [List.length_map] at hsize hsize'
  have heval : eval ⟨x, y⟩ u = ⟨x.eval u, y.eval u⟩ := eval_of_size_eq (hsize.trans hsize'.symm) u
  rw [heval]
  exact ⟨Spline.within_eval hp (by omega) (by omega) hx hu,
    Spline.within_eval hp (by omega) (by omega) hy hu⟩

end Curves

end PenStroke
