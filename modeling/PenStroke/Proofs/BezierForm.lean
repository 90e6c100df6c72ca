import PenStroke.Proofs.Independence
import PenStroke.Proofs.Interpolation

/-! Splines in Bézier form. Each interval is traced by one Bézier curve. A curve is drawn without
its first control point, the place where the pen is; along the natural spline the pen is always
there. -/
namespace PenStroke

section Drawing
variable {α : Type}

/-- The curves that commands draw, each from where the pen is. -/
def Command.curvesFrom (pen : Point α) : List (Command α) → List (Bezier α)
  | [] => []
  | .curveTo first second p :: cs => ⟨pen, first, second, p⟩ :: curvesFrom p cs
  | c :: cs => curvesFrom (c.destination?.getD pen) cs

/-- Curves that follow each other are drawn as they are. -/
theorem Command.curvesFrom_map_command {pen : Point α} {bs : List (Bezier α)}
    (hstart : ∀ b ∈ bs.head?, b.start = pen) (hchain : bs.IsChain fun b c => b.finish = c.start) :
    curvesFrom pen (bs.map Bezier.command) = bs := by
  induction bs generalizing pen with
  | nil => rfl
  | cons b bs ih =>
    obtain rfl := hstart b rfl
    rw [List.isChain_cons] at hchain
    have htail := ih (fun c hc => (hchain.1 c hc).symm) hchain.2
    rw [List.map_cons, Bezier.command, curvesFrom, htail]

namespace PlaneSpline

theorem make_eq_ok {x y : Spline α} (h : x.size = y.size) (hpos : 0 < x.size) :
    make x y = .ok ⟨x, y⟩ := by
  have hempty : x.isEmpty = false := by
    rw [Spline.isEmpty, List.isEmpty_eq_false_iff, ← List.length_pos_iff]
    exact hpos
  rw [make, if_neg (not_not_intro h), hempty]
  rfl

variable [Scalar α]

theorem length_beziers (curve : PlaneSpline α) : curve.beziers.length =
    min curve.x.segments.length curve.y.segments.length :=
  List.length_zipWith

theorem getElem?_beziers {curve : PlaneSpline α} {k : ℕ} {x y : Cubic α}
    (hx : curve.x.segments[k]? = some x) (hy : curve.y.segments[k]? = some y) :
    curve.beziers[k]? = some (.ofOrdinates x.ordinates y.ordinates) := by
  rw [beziers, List.getElem?_zipWith, hx, hy]

theorem toList_drawOn {curve : PlaneSpline α} {b : Bezier α} (h : curve.beziers[0]? = some b)
    (path : Path α) : (curve.drawOn path).toList =
      path.toList ++ .moveTo b.start :: curve.beziers.map Bezier.command := by
  unfold drawOn
  cases hb : curve.beziers with
  | nil => simp [hb] at h
  | cons c rest =>
    obtain rfl : c = b := by simpa [hb] using h
    simp [Bezier.toList_foldl_push]

end PlaneSpline

end Drawing

variable {K : Type} [Field K] [LinearOrder K] [FloorRing K]

/-- The nested Bernstein form, one coordinate at a time. -/
theorem Bezier.eval_eq (b : Bezier K) (t : K) : b.eval t =
    ⟨b.start.x * ((1 - t) * (1 - t) * (1 - t)) + (b.first.x * ((1 - t) * (1 - t) * 3) +
        (b.second.x * ((1 - t) * 3) + b.finish.x * t) * t) * t,
      b.start.y * ((1 - t) * (1 - t) * (1 - t)) + (b.first.y * ((1 - t) * (1 - t) * 3) +
        (b.second.y * ((1 - t) * 3) + b.finish.y * t) * t) * t⟩ := by
  simp only [Bezier.eval, Exact.numeral_one]
  rfl

theorem Cubic.ordinates_eq (s : Cubic K) : s.ordinates =
    ⟨s.d, s.d + s.c * (1 / 3), s.a + s.b + s.c + s.d - (3 * s.a + 2 * s.b + s.c) * (1 / 3),
      s.a + s.b + s.c + s.d⟩ := by
  simp only [Cubic.ordinates, Exact.numeral_one]

theorem Bezier.eval_ofOrdinates (x y : Cubic K) (t : K) :
    (Bezier.ofOrdinates x.ordinates y.ordinates).eval t = ⟨x.eval t, y.eval t⟩ := by
  simp only [Bezier.eval_eq, Bezier.ofOrdinates, Cubic.ordinates_eq, Cubic.eval_eq, Point.mk.injEq]
  constructor <;> ring

theorem Cubic.ordinates_ofHermite (v w d e : K) :
    (Cubic.ofHermite v w d e).ordinates = ⟨v, v + d * (1 / 3), w - e * (1 / 3), w⟩ := by
  simp only [Cubic.ordinates_eq, Cubic.ofHermite_eq, Ordinates.mk.injEq]
  refine ⟨trivial, trivial, ?_, ?_⟩ <;> ring

namespace PlaneSpline

section Hermite
variable {points : List (Point K)} {slopes : List (Offset K)}

/-- The inner control points lie a third of the slopes away from the knots. -/
theorem Between.bezier {k : ℕ} {p q : Point K} {d e : Offset K}
    (h : Between points slopes k p q d e) :
    (hermite points slopes).beziers[k]? = some ⟨p, p + d / (3 : K), q - e / (3 : K), q⟩ := by
  obtain ⟨hx, hy⟩ := h.segments
  rw [getElem?_beziers hx hy, Cubic.ordinates_ofHermite, Cubic.ordinates_ofHermite,
    Bezier.ofOrdinates, ← Exact.numeral_one]
  rfl

theorem length_beziers_hermite (h : slopes.length = points.length) :
    (hermite points slopes).beziers.length = points.length - 1 := by
  rw [length_beziers, (length_hermite h).1, (length_hermite h).2, min_self]

theorem isChain_beziers_hermite (h : slopes.length = points.length) :
    (hermite points slopes).beziers.IsChain fun b c => b.finish = c.start := by
  have hlength := length_beziers_hermite h
  rw [List.isChain_iff_getElem]
  intro k hk
  obtain ⟨p, q, d, e, hbefore⟩ := exists_between h (k := k) (by omega)
  obtain ⟨q', r, e', f, hafter⟩ := exists_between h (k := k + 1) (by omega)
  have hfirst := hbefore.bezier
  have hsecond := hafter.bezier
  rw [List.getElem?_eq_getElem (by omega), Option.some.injEq] at hfirst hsecond
  rw [hfirst, hsecond]
  exact Option.some.inj (hbefore.finish.symm.trans hafter.start)

/-- The first curve starts at the first point. -/
theorem head?_beziers_hermite (h : slopes.length = points.length) (hn : 2 ≤ points.length)
    {p : Point K} (hp : points.head? = some p) :
    ∃ b, (hermite points slopes).beziers[0]? = some b ∧ b.start = p := by
  obtain ⟨p', q, d, e, hbetween⟩ := exists_between h (k := 0) hn
  refine ⟨_, hbetween.bezier, ?_⟩
  rw [List.head?_eq_getElem?] at hp
  exact Option.some.inj (hbetween.start.symm.trans hp)

/-- The commands that draw the curve: a move to the first point and a curve to each later one. -/
theorem toList_drawOn_hermite (h : slopes.length = points.length) {p : Point K}
    (hp : points.head? = some p) (hn : 2 ≤ points.length) (path : Path K) :
    ((hermite points slopes).drawOn path).toList =
      path.toList ++ .moveTo p :: (hermite points slopes).beziers.map Bezier.command := by
  obtain ⟨b, hb, rfl⟩ := head?_beziers_hermite h hn hp
  exact toList_drawOn hb path

/-- Whatever the pen was at, the commands draw the Bézier curves of the spline. -/
theorem curvesFrom_drawOn_hermite (h : slopes.length = points.length) {p : Point K}
    (hp : points.head? = some p) (hn : 2 ≤ points.length) (pen : Point K) :
    Command.curvesFrom pen (.moveTo p :: (hermite points slopes).beziers.map Bezier.command) =
      (hermite points slopes).beziers := by
  obtain ⟨b, hb, hstart⟩ := head?_beziers_hermite h hn hp
  apply Command.curvesFrom_map_command _ (isChain_beziers_hermite h)
  intro c hc
  rw [List.head?_eq_getElem?, hb, Option.mem_some_iff] at hc
  rw [← hc]
  exact hstart

end Hermite

theorem eval_beziers (curve : PlaneSpline K) {k : ℕ} (hx : k < curve.x.segments.length)
    (hy : k < curve.y.segments.length) (hb : k < curve.beziers.length) (t : K) :
    curve.beziers[k].eval t = ⟨curve.x.segments[k].eval t, curve.y.segments[k].eval t⟩ := by
  have hget := getElem?_beziers (List.getElem?_eq_getElem hx) (List.getElem?_eq_getElem hy)
  rw [List.getElem?_eq_getElem hb, Option.some.injEq] at hget
  rw [hget, Bezier.eval_ofOrdinates]

variable [IsStrictOrderedRing K]

/-- Where axes have equally many intervals, each point of the curve lies on the Bézier curve of the
interval that its parameter falls on. -/
theorem eval_on_bezier (curve : PlaneSpline K) (hsize : curve.x.size = curve.y.size)
    (hpos : 0 < curve.x.size) {u : K} (h₀ : 0 ≤ u) (h₁ : u ≤ 1) :
    ∃ k t, ∃ hb : k < curve.beziers.length, Spline.locate? curve.x.size u = some (k, t) ∧
      t = u * curve.x.size - k ∧ curve.beziers[k].eval t = curve.eval u := by
  obtain ⟨k, hk, hlocate, -, -⟩ := Spline.locate?_eq_some hpos h₀ h₁
  have hx : k < curve.x.segments.length := hk
  have hy : k < curve.y.segments.length := by
    rw [hsize] at hk
    exact hk
  have hb : k < curve.beziers.length := by
    rw [length_beziers]
    exact lt_min hx hy
  refine ⟨k, _, hb, hlocate, rfl, ?_⟩
  rw [eval_beziers curve hx hy]
  refine (eval_of_locate? curve hlocate ?_).symm
  simp [onInterval?, hx, hy]

/-- The Bézier curves of a plane curve: one for each interval, the same as the cubics on it. -/
structure TracedByBeziers (curve : PlaneSpline K) : Prop where
  length : curve.beziers.length = curve.x.size
  interval : ∀ k (hx : k < curve.x.segments.length) (hy : k < curve.y.segments.length)
    (hb : k < curve.beziers.length) (t : K),
    curve.beziers[k].eval t = ⟨curve.x.segments[k].eval t, curve.y.segments[k].eval t⟩
  located : ∀ u : K, 0 ≤ u → u ≤ 1 → ∃ k t, ∃ hb : k < curve.beziers.length,
    Spline.locate? curve.x.size u = some (k, t) ∧ t = u * curve.x.size - k ∧
    curve.beziers[k].eval t = curve.eval u

/-- Commands that draw a curve through points with the given slopes: a move to the first point, and
a curve to each later one whose control points lie a third of the slopes away from its ends. What a
renderer draws are the Bézier curves of the curve. -/
structure DrawnByCommands (points : List (Point K)) (slopes : List (Offset K))
    (curve : PlaneSpline K) (commands : List (Command K)) : Prop where
  drawOn : ∀ path, (curve.drawOn path).toList = path.toList ++ commands
  length : commands.length = points.length
  start : commands.head? = points.head?.map .moveTo
  curves : ∀ k p q d e, Between points slopes k p q d e →
    commands[k + 1]? = some (.curveTo (p + d / (3 : K)) (q - e / (3 : K)) q)
  drawn : ∀ pen, Command.curvesFrom pen commands = curve.beziers

/-- Splines over as many intervals are traced by Bézier curves, and the natural curve through
points is drawn as its Bézier curves. -/
theorem beziers_trace :
    (∀ x y : Spline K, x.size = y.size → 0 < x.size →
      ∃ curve, make x y = .ok curve ∧ curve.x = x ∧ curve.y = y ∧ curve.TracedByBeziers) ∧
    ∀ points : List (Point K), 2 ≤ points.length →
      ∃ (curve : PlaneSpline K) (slopes : List (Offset K)) (commands : List (Command K)),
        through? points = some curve ∧
        Spline.knotSlopes? (points.map (·.x)) = some (slopes.map (·.x)) ∧
        Spline.knotSlopes? (points.map (·.y)) = some (slopes.map (·.y)) ∧
        slopes.length = points.length ∧ DrawnByCommands points slopes curve commands := by
  constructor
  · intro x y hsize hpos
    refine ⟨⟨x, y⟩, make_eq_ok hsize hpos, rfl, rfl, ?_, fun k => eval_beziers ⟨x, y⟩,
      fun u => eval_on_bezier ⟨x, y⟩ hsize hpos⟩
    rw [length_beziers]
    exact min_eq_left hsize.le
  · intro points hn
    obtain ⟨slopes, h, hdx, hdy, hcurve⟩ := through?_eq_hermite hn
    obtain ⟨p, hp⟩ : ∃ p, points.head? = some p :=
      ⟨points[0], by rw [List.head?_eq_getElem?, List.getElem?_eq_getElem]⟩
    refine ⟨_, slopes, _, hcurve, hdx, hdy, h, toList_drawOn_hermite h hp hn, ?_, ?_, ?_,
      curvesFrom_drawOn_hermite h hp hn⟩
    · rw [List.length_cons, List.length_map, length_beziers_hermite h]
      omega
    · rw [hp]
      rfl
    · intro k p q d e hbetween
      rw [List.getElem?_cons_succ, List.getElem?_map, hbetween.bezier]
      rfl

/-- Two cubics on each axis that do not meet, and a stroke that turns. -/
theorem beziers_trace_turn :
    (∃ curve : PlaneSpline ℚ,
      make ⟨[⟨1, 0, 2, 0⟩, ⟨0, 5, -1, 7⟩]⟩ ⟨[⟨0, 1, 0, 3⟩, ⟨4, 0, 0, 1⟩]⟩ = .ok curve ∧
      curve.x = ⟨[⟨1, 0, 2, 0⟩, ⟨0, 5, -1, 7⟩]⟩ ∧ curve.y = ⟨[⟨0, 1, 0, 3⟩, ⟨4, 0, 0, 1⟩]⟩ ∧
      curve.TracedByBeziers) ∧
    ∃ (curve : PlaneSpline ℚ) (slopes : List (Offset ℚ)) (commands : List (Command ℚ)),
      through? [⟨0, 0⟩, ⟨3, 1⟩, ⟨-1, 4⟩] = some curve ∧
      Spline.knotSlopes? [0, 3, -1] = some (slopes.map (·.x)) ∧
      Spline.knotSlopes? [0, 1, 4] = some (slopes.map (·.y)) ∧
      slopes.length = 3 ∧ DrawnByCommands [⟨0, 0⟩, ⟨3, 1⟩, ⟨-1, 4⟩] slopes curve commands :=
  ⟨beziers_trace.1 _ _ rfl (by decide), beziers_trace.2 [⟨0, 0⟩, ⟨3, 1⟩, ⟨-1, 4⟩] (by decide)⟩

end PlaneSpline

end PenStroke
