import PenStroke.Proofs.Interpolation

/-! The natural spline depends linearly on the values it runs through. Both axes are solved with
the same pivots, so the curve through points follows every affine map of the plane. -/
namespace PenStroke

/-- The form `x * p.x + y * p.y + constant` in the coordinates of a point `p`. -/
structure AffineForm (K : Type) where
  x : K
  y : K
  constant : K

/-- An affine map of the plane: a form for each coordinate of the image. -/
structure PlaneMap (K : Type) where
  x : AffineForm K
  y : AffineForm K

variable {K : Type} [Field K]

namespace AffineForm
variable (f : AffineForm K)

def value (p : Point K) : K := f.x * p.x + f.y * p.y + f.constant

/-- The form of a displacement, in which the constant cancels. -/
def change (d : Offset K) : K := f.x * d.x + f.y * d.y

/-- The form of a point whose coordinates are cubics, coefficient by coefficient. -/
def cubic (s t : Cubic K) : Cubic K where
  a := f.x * s.a + f.y * t.a
  b := f.x * s.b + f.y * t.b
  c := f.x * s.c + f.y * t.c
  d := f.x * s.d + f.y * t.d + f.constant

/-- The equations of the later knots hold of a form of the values if they hold on both axes. -/
theorem laterRows_map {points : List (Point K)} {slopes : List (Offset K)}
    (hx : Spline.LaterRows (points.map (·.x)) (slopes.map (·.x)))
    (hy : Spline.LaterRows (points.map (·.y)) (slopes.map (·.y))) :
    Spline.LaterRows (points.map f.value) (slopes.map f.change) := by
  match points, slopes, hx with
  | [p, q], [d, e], hx =>
    simp only [List.map_cons, List.map_nil, Spline.LaterRows] at hx hy ⊢
    simp only [value, change]
    linear_combination f.x * hx + f.y * hy
  | p :: q :: r :: ps, d :: e :: i :: ds, hx =>
    simp only [List.map_cons, Spline.LaterRows] at hx hy ⊢
    have ih : Spline.LaterRows ((q :: r :: ps).map f.value) ((e :: i :: ds).map f.change) :=
      laterRows_map hx.2 hy.2
    refine ⟨?_, ih⟩
    simp only [value, change]
    linear_combination f.x * hx.1 + f.y * hy.1

theorem slopeSystem_map {points : List (Point K)} {slopes : List (Offset K)}
    (hx : Spline.SlopeSystem (points.map (·.x)) (slopes.map (·.x)))
    (hy : Spline.SlopeSystem (points.map (·.y)) (slopes.map (·.y))) :
    Spline.SlopeSystem (points.map f.value) (slopes.map f.change) := by
  match points, slopes, hx with
  | p :: q :: ps, d :: e :: ds, hx =>
    have hlater : Spline.LaterRows ((p :: q :: ps).map f.value) ((d :: e :: ds).map f.change) :=
      f.laterRows_map hx.2 hy.2
    refine ⟨?_, hlater⟩
    simp only [List.map_cons, Spline.SlopeSystem] at hx hy
    simp only [value, change]
    linear_combination f.x * hx.1 + f.y * hy.1

variable [LinearOrder K] [FloorRing K]

theorem eval_cubic (s t : Cubic K) (u : K) :
    (f.cubic s t).eval u = f.value ⟨s.eval u, t.eval u⟩ := by
  simp only [cubic, value, Cubic.eval_eq]
  ring

theorem cubic_ofHermite (p q : Point K) (d e : Offset K) :
    f.cubic (.ofHermite p.x q.x d.x e.x) (.ofHermite p.y q.y d.y e.y) =
      .ofHermite (f.value p) (f.value q) (f.change d) (f.change e) := by
  simp only [cubic, value, change, Cubic.ofHermite_eq, Cubic.mk.injEq, and_true]
  constructor <;> ring

theorem hermiteSegments_map (points : List (Point K)) (slopes : List (Offset K)) :
    Spline.hermiteSegments (points.map f.value) (slopes.map f.change) =
      List.zipWith f.cubic (Spline.hermiteSegments (points.map (·.x)) (slopes.map (·.x)))
        (Spline.hermiteSegments (points.map (·.y)) (slopes.map (·.y))) := by
  match points, slopes with
  | [], _ => rfl
  | [_], _ => simp
  | _ :: _ :: _, [] => rfl
  | _ :: _ :: _, [_] => rfl
  | p :: q :: ps, d :: e :: ds =>
    have ih := hermiteSegments_map (q :: ps) (e :: ds)
    simp only [List.map_cons, Spline.hermiteSegments_cons, List.zipWith_cons_cons,
      cubic_ofHermite] at ih ⊢
    rw [ih]

end AffineForm

variable [LinearOrder K] [FloorRing K]

namespace PlaneMap
variable (g : PlaneMap K)

def onPoint (p : Point K) : Point K := ⟨g.x.value p, g.y.value p⟩

/-- The image of a curve, interval by interval. -/
def onCurve (curve : PlaneSpline K) : PlaneSpline K :=
  ⟨⟨List.zipWith g.x.cubic curve.x.segments curve.y.segments⟩,
    ⟨List.zipWith g.y.cubic curve.x.segments curve.y.segments⟩⟩

theorem onInterval?_onCurve (curve : PlaneSpline K) (k : ℕ) (t : K) :
    (g.onCurve curve).onInterval? k t = (curve.onInterval? k t).map g.onPoint := by
  simp only [PlaneSpline.onInterval?, onCurve, List.getElem?_zipWith]
  cases curve.x.segments[k]? with
  | none => rfl
  | some s =>
    cases curve.y.segments[k]? with
    | none => rfl
    | some r => simp [AffineForm.eval_cubic, onPoint]

end PlaneMap

variable [IsStrictOrderedRing K]

/-- The slopes found are those that solve the system. -/
theorem Spline.knotSlopes?_eq_some_iff {values slopes : List K} (h : 2 ≤ values.length) :
    knotSlopes? values = some slopes ↔ SlopeSystem values slopes := by
  obtain ⟨u, v, vs, rfl⟩ := exists_cons_cons h
  rw [knotSlopes?_eq, slopeSystem_iff, Option.some.injEq, eq_comm]

/-- The natural spline through a form of the points is the form of the splines through their
coordinates. -/
theorem AffineForm.natural?_map {points : List (Point K)} (h : 2 ≤ points.length) :
    ∃ xs ys, Spline.natural? (points.map (·.x)) = some ⟨xs⟩ ∧
      Spline.natural? (points.map (·.y)) = some ⟨ys⟩ ∧
      xs.length = points.length - 1 ∧ ys.length = points.length - 1 ∧
      ∀ f : AffineForm K, Spline.natural? (points.map f.value) =
        some ⟨List.zipWith f.cubic xs ys⟩ := by
  obtain ⟨slopes, hlength, hx, hy, -⟩ := PlaneSpline.through?_eq_hermite h
  obtain ⟨hlx, hly⟩ := PlaneSpline.length_hermite hlength
  refine ⟨_, _, ?_, ?_, hlx, hly, fun f => ?_⟩
  · rw [Spline.natural?, hx]
    rfl
  · rw [Spline.natural?, hy]
    rfl
  · rw [Spline.knotSlopes?_eq_some_iff (by simpa using h)] at hx hy
    have hslopes : Spline.knotSlopes? (points.map f.value) = some (slopes.map f.change) :=
      (Spline.knotSlopes?_eq_some_iff (by simpa using h)).mpr (f.slopeSystem_map hx hy)
    rw [Spline.natural?, hslopes, Option.map_some, f.hermiteSegments_map]
    rfl

/-- The cubic `p * s + q * t`, coefficient by coefficient. -/
def Cubic.combine (p q : K) (s t : Cubic K) : Cubic K :=
  ⟨p * s.a + q * t.a, p * s.b + q * t.b, p * s.c + q * t.c, p * s.d + q * t.d⟩

theorem Spline.natural?_combine (p q : K) {vs ws : List K} (hlength : vs.length = ws.length)
    (h : 2 ≤ vs.length) : ∃ s t, natural? vs = some ⟨s⟩ ∧ natural? ws = some ⟨t⟩ ∧
      s.length = vs.length - 1 ∧ t.length = vs.length - 1 ∧
      natural? (List.zipWith (fun v w => p * v + q * w) vs ws) =
        some ⟨List.zipWith (Cubic.combine p q) s t⟩ := by
  -- The values are the coordinates of points.
  let points := (vs.zip ws).map fun v => Point.mk v.1 v.2
  have hpoints : points.length = vs.length := by simp [points, hlength]
  have hx : points.map (·.x) = vs := by
    rw [List.map_map]
    exact List.map_fst_zip hlength.le
  have hy : points.map (·.y) = ws := by
    rw [List.map_map]
    exact List.map_snd_zip hlength.ge
  have hvalue : points.map (AffineForm.value ⟨p, q, 0⟩) =
      List.zipWith (fun v w => p * v + q * w) vs ws := by
    rw [List.map_map, ← List.map_uncurry_zip_eq_zipWith]
    exact List.map_congr_left fun v _ => add_zero _
  have hcubic : AffineForm.cubic ⟨p, q, 0⟩ = Cubic.combine p q := by
    funext s t
    simp [AffineForm.cubic, Cubic.combine]
  obtain ⟨s, t, hs, ht, hls, hlt, hform⟩ := AffineForm.natural?_map (hpoints ▸ h)
  have hcombined := hform ⟨p, q, 0⟩
  rw [hx] at hs
  rw [hy] at ht
  rw [hvalue, hcubic] at hcombined
  exact ⟨s, t, hs, ht, hpoints ▸ hls, hpoints ▸ hlt, hcombined⟩

theorem Spline.natural?_replicate (c : K) {n : ℕ} (h : 2 ≤ n) :
    natural? (List.replicate n c) = some ⟨List.replicate (n - 1) ⟨0, 0, 0, c⟩⟩ := by
  -- A constant is a form of any points.
  let points : List (Point K) := List.replicate n ⟨c, c⟩
  have hpoints : 2 ≤ points.length := by simpa [points] using h
  obtain ⟨s, t, -, -, hs, ht, hform⟩ := AffineForm.natural?_map hpoints
  have hconstant := hform ⟨0, 0, c⟩
  have hvalue : points.map (AffineForm.value ⟨0, 0, c⟩) = List.replicate n c := by
    simp [points, AffineForm.value]
  have hcubic : List.zipWith (AffineForm.cubic ⟨0, 0, c⟩) s t =
      List.replicate (n - 1) ⟨0, 0, 0, c⟩ := by
    rw [List.eq_replicate_iff, ← List.map_uncurry_zip_eq_zipWith]
    constructor
    · simp [hs, ht, points]
    · intro b hb
      obtain ⟨v, -, rfl⟩ := List.mem_map.mp hb
      simp [Function.uncurry, AffineForm.cubic]
  rwa [hvalue, hcubic] at hconstant

/-- Every parameter falls on an interval. -/
theorem Spline.exists_locate? {n : ℕ} (hn : 0 < n) (u : K) :
    ∃ k < n, ∃ t, locate? n u = some (k, t) := by
  obtain ⟨last, rfl⟩ := Nat.exists_eq_succ_of_ne_zero hn.ne'
  exact ⟨_, Nat.lt_succ_of_le (Nat.floor_le_of_le (min_le_right _ _)), _, locate?_succ last u⟩

namespace PlaneMap
variable (g : PlaneMap K)

/-- On a curve with the same intervals on both axes, an image of a point is a
point of the image. -/
theorem eval_onCurve {curve : PlaneSpline K} (hpos : 0 < curve.x.segments.length)
    (hlength : curve.y.segments.length = curve.x.segments.length) (u : K) :
    (g.onCurve curve).eval u = g.onPoint (curve.eval u) := by
  obtain ⟨k, hk, t, hlocate⟩ := Spline.exists_locate? hpos u
  obtain ⟨p, hp⟩ : ∃ p, curve.onInterval? k t = some p := by
    rw [PlaneSpline.onInterval?, List.getElem?_eq_getElem hk,
      List.getElem?_eq_getElem (hlength ▸ hk)]
    exact ⟨_, rfl⟩
  have hsize : (g.onCurve curve).size = curve.x.segments.length := by
    simp [PlaneSpline.size, Spline.size, onCurve, hlength]
  rw [PlaneSpline.eval_of_locate? curve hlocate hp]
  apply PlaneSpline.eval_of_locate?
  · rwa [hsize]
  · rw [onInterval?_onCurve, hp, Option.map_some]

/-- The curve through the images of points is the image of the curve through them. -/
theorem through?_map {points : List (Point K)} (h : 2 ≤ points.length) :
    ∃ curve, PlaneSpline.through? points = some curve ∧
      PlaneSpline.through? (points.map g.onPoint) = some (g.onCurve curve) ∧
      ∀ u, (g.onCurve curve).eval u = g.onPoint (curve.eval u) := by
  obtain ⟨xs, ys, hx, hy, hlx, hly, hform⟩ := AffineForm.natural?_map h
  have hcoord (f : Point K → K) :
      (points.map g.onPoint).map f = points.map fun p => f (g.onPoint p) := List.map_map
  refine ⟨⟨⟨xs⟩, ⟨ys⟩⟩, ?_, ?_, g.eval_onCurve ?_ ?_⟩
  · exact Option.bind_eq_some_iff.mpr ⟨_, hx, Option.bind_eq_some_iff.mpr ⟨_, hy, rfl⟩⟩
  · rw [PlaneSpline.through?, hcoord, hcoord]
    exact Option.bind_eq_some_iff.mpr
      ⟨_, hform g.x, Option.bind_eq_some_iff.mpr ⟨_, hform g.y, rfl⟩⟩
  · change 0 < xs.length
    omega
  · exact hly.trans hlx.symm

end PlaneMap

end PenStroke
