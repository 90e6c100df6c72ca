import PenStroke.Proofs.BoundedSplines
import PenStroke.Proofs.Directions
import PenStroke.Proofs.FigureEnds
import PenStroke.Proofs.PdfNumbers
import PenStroke.Proofs.Waypoints

/-! Figures with finite coordinates. Whatever is computed for a stroke within bounds stays below
the largest double: the samples of its spline, the waypoints, and the control points beside chords
that have a direction. Straight lines add no coordinates of their own. -/
namespace PenStroke

open Float.Model Float.Model.UnpackedFloat Binary64

namespace Binary64
variable {x y : Float}

theorem not_isNaN_of_isFinite (h : x.isFinite = true) : ¬ x.isNaN := by
  obtain ⟨s, hx⟩ := isFinite_iff.mp h
  exact mt isNaN_iff.mp hx.ne_notANumber

/-- A quotient of finite values is finite or infinite where the divisor is above zero. -/
theorem not_isNaN_div (hx : x.isFinite = true) (hpos : 0 < y) (hy : y.isFinite = true) :
    ¬ (x / y).isNaN := by
  obtain ⟨s, hx⟩ := isFinite_iff.mp hx
  have hrounded := hx.div (inRange_of_pos hpos hy) (magnitude_pos hpos hy).ne'
  rw [isNaN_iff]
  change UnpackedFloat.unpack _
    (UnpackedFloat.pack _ (UnpackedFloat.div _ (parts x) (parts y))) ≠ _
  rcases hrounded.inRange_or_infinite with hrange | hinfinite
  · rw [hrange.unpack_pack]
    exact hrange.ne_notANumber
  · rw [hinfinite]
    simp

/-- What lies between a value and its negative is no further from zero. -/
theorem standing_abs_le {a : UnpackedFloat} {n : ℕ} {f : ℤ} {hn : 0 < n}
    (hlow : standing (.finite .negative n f hn) ≤ standing a)
    (hhigh : standing a ≤ standing (.finite .positive n f hn)) :
    standing a.abs ≤ standing (.finite .positive n f hn) := by
  rcases a with ⟨_ | _⟩ | _ | s | ⟨_ | _, m, e, hm⟩ <;>
    simp [standing, UnpackedFloat.abs, Prod.Lex.toLex_le_toLex] at hlow hhigh ⊢
  · omega
  · exact hhigh

/-- Held between minus one and one, a value that is not undefined is bounded by one. -/
theorem within_clamp_sine (h : ¬ x.isNaN) :
    Within 0 (Scalar.clamp x (-Float.ofNat 1) (Float.ofNat 1)) := by
  have hone : parts (Float.ofNat 1) = .finite .positive (2 ^ 52) (-52) (by decide) := rfl
  have hminus : parts (-Float.ofNat 1) = .finite .negative (2 ^ 52) (-52) (by decide) := rfl
  rw [isNaN_iff] at h
  unfold Scalar.clamp
  split_ifs with hbelow habove
  · exact within_one.neg
  · exact within_one
  · rw [lt_iff, hminus] at hbelow
    rw [lt_iff, hone] at habove
    have hlow := not_lt.mp fun hlt => hbelow ⟨h, by simp, hlt⟩
    have hhigh := not_lt.mp fun hlt => habove ⟨by simp, h, hlt⟩
    have habs : x.abs ≤ Float.ofNat 1 := by
      rw [le_iff, parts_abs, hone]
      refine ⟨?_, by simp, standing_abs_le hlow hhigh⟩
      cases hx : parts x <;> simp [UnpackedFloat.abs]
      exact absurd hx h
    exact within_one.of_abs_le habs

end Binary64

section Waypoints
variable [Hypotenuse Float] {k : ℕ} {before step : Offset Float} {p q r w : Point Float}
  {threshold fraction : Float}

/-- The sine of a turn is never undefined, as lengths are divided by only where
they are above zero. -/
theorem within_turnSine (laws : HypotenuseLaws) (hk : 2 * k + 2 ≤ 1023)
    (hbefore : before.Within k) (hstep : step.Within k) :
    Binary64.Within 0 (turnSine before step) := by
  have hcross : Binary64.Within (2 * k + 1) (before.cross step) := hbefore.cross hstep (by omega)
  have hstep' : Binary64.Within (k + 1) step.length := hstep.length laws (by omega)
  have hbefore' : Binary64.Within (k + 1) before.length := hbefore.length laws (by omega)
  have hlengths : Binary64.Within (2 * k + 2) (step.length * before.length) :=
    hstep'.mul hbefore' (by omega)
  unfold turnSine
  dsimp only
  split_ifs with hpos
  · exact within_clamp_sine (not_isNaN_div hcross.finite hpos hlengths.finite)
  · exact within_ofNat (n := 0) (by decide) (by decide)

theorem within_waypoint? (laws : HypotenuseLaws) (hk : 2 * k + 4 ≤ 1023)
    (hfraction : Binary64.Within 0 fraction) (hp : p.Within k) (hq : q.Within k) (hr : r.Within k)
    (h : waypoint? p q r threshold fraction = some w) : w.Within (k + 3) := by
  have hstep : (r - q).Within (k + 1) := hr.sub hq (by omega)
  have hbefore : (q - p).Within (k + 1) := hq.sub hp (by omega)
  have hsine := within_turnSine laws (by omega) hbefore hstep
  have halong : (fraction • (r - q)).Within (k + 1) := hstep.smul hfraction (by omega)
  have hshare : Binary64.Within 0 (fraction * turnSine (q - p) (r - q)) :=
    hfraction.mul hsine (by omega)
  have haside : ((fraction * turnSine (q - p) (r - q)) • (r - q).turnLeft).Within (k + 1) :=
    hstep.turnLeft.smul hshare (by omega)
  have hpoint : (q + fraction • (r - q)).Within (k + 2) := hq.add_offset halong (by omega)
  unfold waypoint? at h
  dsimp only at h
  split_ifs at h
  obtain rfl := Option.some.inj h
  exact hpoint.add_offset haside (by omega)

end Waypoints

/-- The coordinates of a command are finite. -/
def Command.IsFinite (c : Command Float) : Prop := ∀ x ∈ c.numbers, x.isFinite

instance (c : Command Float) : Decidable c.IsFinite :=
  inferInstanceAs (Decidable (∀ x ∈ c.numbers, x.isFinite))

theorem Point.forall_mem_numbers {p : Point Float} :
    (∀ x ∈ p.numbers, x.isFinite) ↔ p.isFinite := by
  have hfinite : p.isFinite = (p.x.isFinite && p.y.isFinite) := rfl
  rw [hfinite, Bool.and_eq_true]
  simp [numbers]

namespace Command
variable {p q r : Point Float}

theorem isFinite_moveTo_iff : (moveTo p).IsFinite ↔ p.isFinite := Point.forall_mem_numbers

theorem isFinite_lineTo_iff : (lineTo p).IsFinite ↔ p.isFinite := Point.forall_mem_numbers

theorem isFinite_curveTo_iff :
    (curveTo p q r).IsFinite ↔ p.isFinite ∧ q.isFinite ∧ r.isFinite := by
  rw [← Point.forall_mem_numbers, ← Point.forall_mem_numbers (p := q),
    ← Point.forall_mem_numbers (p := r)]
  simp only [IsFinite, numbers, List.forall_mem_append, and_assoc]

theorem isFinite_stroke : (stroke : Command Float).IsFinite := by
  simp [IsFinite, numbers]

/-- A line from one point to another. -/
theorem isFinite_of_mem_line (hp : p.isFinite) (hq : q.isFinite) :
    ∀ c ∈ [moveTo p, lineTo q, stroke], c.IsFinite := by
  simp only [List.forall_mem_cons, isFinite_moveTo_iff, isFinite_lineTo_iff]
  exact ⟨hp, hq, isFinite_stroke, by simp⟩

end Command

theorem Leg.isFinite_of_mem_commands {leg : Leg Float} (hpoint : leg.point.isFinite)
    (hwaypoint : ∀ w, leg.waypoint = some w → w.isFinite) : ∀ c ∈ leg.commands, c.IsFinite := by
  have hlines : ∀ c ∈ leg.lines, c.IsFinite := by
    intro c hc
    rcases List.mem_append.mp hc with hc | hc
    · obtain ⟨w, hw, rfl⟩ := List.mem_map.mp hc
      exact Command.isFinite_lineTo_iff.mpr (hwaypoint w (Option.mem_toList.mp hw))
    · obtain rfl : c = .lineTo leg.point := List.mem_singleton.mp hc
      exact Command.isFinite_lineTo_iff.mpr hpoint
  unfold commands
  split_ifs
  · intro c hc
    obtain rfl : c = .moveTo leg.point := List.mem_singleton.mp hc
    exact Command.isFinite_moveTo_iff.mpr hpoint
  · exact hlines

namespace Smoothing
variable [Hypotenuse Float] {smoothing : Smoothing Float} {stroke : Stroke Float}

/-- All commands that a stroke adds to a drawing have finite coordinates. -/
def AddsFinite (smoothing : Smoothing Float) (stroke : Stroke Float) : Prop :=
  ∀ canvas : Canvas Float, ∃ added,
    (smoothing.draw canvas stroke).path.toList = canvas.path.toList ++ added ∧
      ∀ c ∈ added, c.IsFinite

theorem addsFinite_iff :
    smoothing.AddsFinite stroke ↔ ∀ c ∈ smoothing.figure stroke, c.IsFinite := by
  constructor
  · intro h
    obtain ⟨added, hadded, hfinite⟩ := h {}
    rw [smoothing.toList_draw] at hadded
    rwa [List.append_cancel_left hadded]
  · exact fun h canvas => ⟨_, smoothing.toList_draw canvas stroke, h⟩

/-- A dot is finite where its point is. -/
theorem addsFinite_of_length_lt_two (hf : ∀ q ∈ stroke.points, q.isFinite)
    (hshort : stroke.points.length < 2) : smoothing.AddsFinite stroke := by
  rw [addsFinite_iff]
  rcases Nat.lt_or_ge 0 stroke.points.length with hpos | hzero
  · obtain ⟨p, hp⟩ := List.length_eq_one_iff.mp (show stroke.points.length = 1 by omega)
    have hdrawable := Stroke.isDrawable_iff.mpr ⟨List.ne_nil_of_length_pos hpos, hf⟩
    have hfinite : p.isFinite := hf p (by simp [hp])
    rw [smoothing.figure_single hdrawable hp]
    exact Command.isFinite_of_mem_line hfinite hfinite
  · rw [smoothing.figure_of_nil (List.length_eq_zero_iff.mp (Nat.le_zero.mp hzero))]
    simp

end Smoothing

namespace SamplingOptions
variable {options : SamplingOptions Float} {curve : PlaneSpline Float} {stroke : Stroke Float}
  {p k : ℕ}

theorem not_isNaN_parameter {count : ℕ} (hcount : count ≤ 2 ^ 53) (hk : k < max count 2) :
    ¬ (parameter count k : Float).isNaN := by
  obtain ⟨hindex, -⟩ := inRange_ofNat (n := k) (by omega)
  exact not_isNaN_of_isFinite
    (isFinite_div_ofNat (isFinite_iff.mpr ⟨_, hindex⟩) (by omega) (by omega))

/-- The samples of a stroke within bounds are bounded. -/
theorem within_sample (hp : p + 10 ≤ 1023) (hs : options.samples ≤ 2 ^ 53)
    (hn : 2 ≤ stroke.points.length) (hlength : stroke.points.length ≤ 2 ^ 53)
    (hpoints : ∀ q ∈ stroke.points, q.Within p)
    (hcurve : PlaneSpline.through? stroke.points = some curve) (hk : k < max options.samples 2) :
    (options.sample curve k).Within (p + 10) :=
  PlaneSpline.within_eval hp hn hlength hpoints hcurve (not_isNaN_parameter hs hk)

variable [Hypotenuse Float]

theorem within_waypointAt? {w : Point Float} (laws : HypotenuseLaws) (hp : 2 * p + 4 ≤ 1023)
    (hfraction : Binary64.Within 0 options.fraction)
    (hsamples : ∀ j ≤ k, (options.sample curve j).Within p)
    (h : options.waypointAt? curve k = some w) : w.Within (p + 3) := by
  obtain ⟨hw, hk⟩ := options.two_le_of_waypointAt? curve (Option.isSome_of_eq_some h)
  rw [options.waypointAt?_eq curve hw hk] at h
  exact within_waypoint? laws hp hfraction (hsamples _ (by omega)) (hsamples _ (by omega))
    (hsamples k le_rfl) h

theorem figure_of_curve (hn : 2 ≤ stroke.points.length) (hf : ∀ q ∈ stroke.points, q.isFinite)
    (hcurve : PlaneSpline.through? stroke.points = some curve) :
    (Smoothing.spline options).figure stroke =
      (options.legs curve).flatMap Leg.commands ++ [.stroke] :=
  Smoothing.figure_of_draw _ _ fun canvas =>
    options.draw_of_ok (options.drawRecorded_eq hn hf hcurve canvas)

/-- Sampled strokes within bounds are drawn with finite coordinates. -/
theorem addsFinite (laws : HypotenuseLaws) (hs : options.samples ≤ 2 ^ 53)
    (hfraction : Binary64.Within 0 options.fraction)
    (hlength : stroke.points.length ≤ 2 ^ 53) (hpoints : ∀ q ∈ stroke.points, q.Within 499) :
    (Smoothing.spline options).AddsFinite stroke := by
  have hf : ∀ q ∈ stroke.points, q.isFinite := fun q hq => (hpoints q hq).isFinite
  rcases Nat.lt_or_ge stroke.points.length 2 with hshort | hn
  · exact Smoothing.addsFinite_of_length_lt_two hf hshort
  · obtain ⟨curve, hcurve⟩ := PlaneSpline.through?_isSome hn hf
    have hsample (k : ℕ) (hk : k < max options.samples 2) : (options.sample curve k).Within 509 :=
      within_sample (by decide) hs hn hlength hpoints hcurve hk
    rw [Smoothing.addsFinite_iff, figure_of_curve hn hf hcurve]
    intro c hc
    rcases List.mem_append.mp hc with hc | hc
    · obtain ⟨leg, hleg, hc⟩ := List.mem_flatMap.mp hc
      obtain ⟨k, hk, rfl⟩ := List.mem_map.mp hleg
      have hk := List.mem_range.mp hk
      have hpoint : (options.leg curve k).point = options.sample curve k := rfl
      have hwaypoint : (options.leg curve k).waypoint = options.waypointAt? curve k := rfl
      refine Leg.isFinite_of_mem_commands ?_ (fun w hw => ?_) c hc
      · rw [hpoint]
        exact (hsample k hk).isFinite
      · rw [hwaypoint] at hw
        have hwithin := within_waypointAt? laws (by decide) hfraction
          (fun j hj => hsample j (by omega)) hw
        exact hwithin.isFinite
    · obtain rfl : c = .stroke := List.mem_singleton.mp hc
      exact Command.isFinite_stroke

end SamplingOptions

section Joined
variable {points : List (Point Float)} {hs : List (Handles Float)} {bs : List (Bezier Float)}

/-- Each handle is a control point of one of the curves. -/
theorem CurvesThrough.isFinite_handles (h : CurvesThrough points hs bs)
    (hlength : hs.length = points.length - 2)
    (hcurves : ∀ b ∈ bs, b.first.isFinite ∧ b.second.isFinite ∧ b.finish.isFinite) :
    ∀ g ∈ hs, g.incoming.isFinite ∧ g.outgoing.isFinite := by
  intro g hg
  obtain ⟨k, hk⟩ := List.mem_iff_getElem?.mp hg
  obtain ⟨hbound, -⟩ := List.getElem?_eq_some_iff.mp hk
  obtain ⟨b, hb, hjoins⟩ := h.joins k (by omega)
  obtain ⟨b', hb', hjoins'⟩ := h.joins (k + 1) (by omega)
  have hcurve := hcurves b (List.mem_of_getElem? hb)
  have hcurve' := hcurves b' (List.mem_of_getElem? hb')
  have hincoming := hjoins.arrives (by omega)
  rw [hk, Option.map_some, Option.some_inj] at hincoming
  refine ⟨hincoming ▸ hcurve.2.1, ?_⟩
  -- The last handle leads to the second control point of the last curve.
  by_cases hlast : k + 1 + 2 = points.length
  · have houtgoing := hjoins'.arrives_last hlast
    rw [Nat.add_sub_cancel, hk, Option.map_some, Option.some_inj] at houtgoing
    exact houtgoing ▸ hcurve'.2.1
  · have houtgoing := hjoins'.leaves (by omega) hlast
    rw [Nat.add_sub_cancel, hk, Option.map_some, Option.some_inj] at houtgoing
    exact houtgoing ▸ hcurve'.1

/-- Each control point of a curve is a handle or a point that is joined. -/
theorem CurvesThrough.isFinite_of_handles (h : CurvesThrough points hs bs)
    (hf : ∀ q ∈ points, q.isFinite)
    (hhandles : ∀ g ∈ hs, g.incoming.isFinite ∧ g.outgoing.isFinite) :
    ∀ b ∈ bs, b.first.isFinite ∧ b.second.isFinite ∧ b.finish.isFinite := by
  intro b hb
  obtain ⟨k, hk⟩ := List.mem_iff_getElem?.mp hb
  obtain ⟨hbound, -⟩ := List.getElem?_eq_some_iff.mp hk
  obtain ⟨b', hb', hjoins⟩ := h.joins k (h.length ▸ hbound)
  obtain rfl : b' = b := Option.some.inj (hb'.symm.trans hk)
  have hincoming {j : ℕ} {q : Point Float} (hq : hs[j]?.map Handles.incoming = some q) :
      q.isFinite := by
    obtain ⟨g, hg, rfl⟩ := Option.map_eq_some_iff.mp hq
    exact (hhandles g (List.mem_of_getElem? hg)).1
  have houtgoing {j : ℕ} {q : Point Float} (hq : hs[j]?.map Handles.outgoing = some q) :
      q.isFinite := by
    obtain ⟨g, hg, rfl⟩ := Option.map_eq_some_iff.mp hq
    exact (hhandles g (List.mem_of_getElem? hg)).2
  refine ⟨?_, ?_, hf _ (List.mem_of_getElem? hjoins.finish)⟩
  · by_cases hstart : k = 0 ∨ k + 2 = points.length
    · rw [hjoins.leaves_start hstart]
      exact hf _ (List.mem_of_getElem? hjoins.start)
    · exact houtgoing (hjoins.leaves (by omega) (by omega))
  · by_cases hlast : k + 2 = points.length
    · exact houtgoing (hjoins.arrives_last hlast)
    · exact hincoming (hjoins.arrives hlast)

end Joined

namespace CurveOptions
variable [Hypotenuse Float] {options : CurveOptions Float} {stroke : Stroke Float}

/-- Without a point between others there are no control points. -/
theorem addsFinite_of_length_lt_three (hf : ∀ q ∈ stroke.points, q.isFinite)
    (hshort : stroke.points.length < 3) : (Smoothing.bezier options).AddsFinite stroke := by
  rw [Smoothing.addsFinite_iff]
  rcases hp : stroke.points with _ | ⟨p, rest⟩
  · rw [Smoothing.figure_of_nil _ hp]
    simp
  · have hnone : (handles options.tightness (p :: rest)).length = 0 := by
      rw [length_handles, ← hp]
      omega
    have hknots : rest.zip (handles options.tightness (p :: rest)) = [] := by
      rw [List.length_eq_zero_iff.mp hnone, List.zip_nil_right]
    have hfigure : (Smoothing.bezier options).figure stroke =
        [.moveTo p, .lineTo (rest.getLastD p), .stroke] :=
      Smoothing.figure_of_draw _ [] fun canvas => by
        rw [Smoothing.draw, options.draw_of_finite hf, hp]
        exact options.drawPoints_of_no_knots p hknots canvas
    rw [hp] at hf
    rw [hfigure]
    exact Command.isFinite_of_mem_line (hf _ List.mem_cons_self) (hf _ List.getLastD_mem_cons)

/-- Curves through finite points have finite coordinates if and only if all control points have. -/
theorem addsFinite_iff (hf : ∀ q ∈ stroke.points, q.isFinite) :
    (Smoothing.bezier options).AddsFinite stroke ↔
      ∀ h ∈ handles options.tightness stroke.points,
        h.incoming.isFinite ∧ h.outgoing.isFinite := by
  rcases Nat.lt_or_ge stroke.points.length 3 with hshort | hn
  · have hnone : handles options.tightness stroke.points = [] := by
      rw [← List.length_eq_zero_iff, length_handles]
      omega
    rw [hnone]
    exact iff_of_true (addsFinite_of_length_lt_three hf hshort) (by simp)
  · obtain ⟨first, bs, hfirst, hcurves, hdraw⟩ := options.draw_eq_curves hn hf
    have hmove : (Command.moveTo first).IsFinite :=
      Command.isFinite_moveTo_iff.mpr (hf first (List.mem_of_mem_head? hfirst))
    have hcurve : (∀ c ∈ (Smoothing.bezier options).figure stroke, c.IsFinite) ↔
        ∀ b ∈ bs, b.first.isFinite ∧ b.second.isFinite ∧ b.finish.isFinite := by
      rw [Smoothing.figure_of_draw _ [] hdraw]
      simp only [List.cons_append, List.forall_mem_cons, List.forall_mem_append,
        List.forall_mem_map, Bezier.command, Command.isFinite_curveTo_iff, hmove,
        Command.isFinite_stroke, true_and]
      simp
    rw [Smoothing.addsFinite_iff, hcurve]
    exact ⟨hcurves.isFinite_handles (length_handles _ _), hcurves.isFinite_of_handles hf⟩

end CurveOptions

namespace Smoothing

/-- Straight lines add the points of the stroke, which is skipped where these are not finite. -/
theorem addsFinite_polyline [Hypotenuse Float] (stroke : Stroke Float) :
    (polyline : Smoothing Float).AddsFinite stroke := by
  rw [addsFinite_iff]
  exact fun _ hc _ hx => isFinite_of_figure_polyline hc hx

theorem within_curveBound : Binary64.Within 997 1e300 := by decide +kernel

/-- Straight lines are finite for every stroke. However closely lengths are computed, samples and
waypoints of the standard spline are for strokes within bounds, and the standard curves of such
strokes are if and only if the neighbours of every point coincide or are far enough apart for their
chord to have a direction. -/
theorem finite_within_bounds [Hypotenuse Float] (laws : HypotenuseLaws) (stroke : Stroke Float) :
    (polyline : Smoothing Float).AddsFinite stroke ∧
    (stroke.points.length ≤ 2 ^ 53 → (∀ p ∈ stroke.points, p.x.abs ≤ 1e150 ∧ p.y.abs ≤ 1e150) →
      (standard : Smoothing Float).AddsFinite stroke) ∧
    ((∀ p ∈ stroke.points, p.x.abs ≤ 1e300 ∧ p.y.abs ≤ 1e300) →
      ((bezier .standard : Smoothing Float).AddsFinite stroke ↔
        ∀ (k : ℕ) (a c : Point Float), stroke.points[k]? = some a →
          stroke.points[k + 2]? = some c → ¬ (c - a).IsTiny)) := by
  have hfraction :
      Binary64.Within 0 (SamplingOptions.standard : SamplingOptions Float).fraction := by
    decide +kernel
  have htightness : Binary64.Within 0 (CurveOptions.standard : CurveOptions Float).tightness := by
    decide +kernel
  refine ⟨addsFinite_polyline stroke, fun hlength hbound => ?_, fun hbound => ?_⟩
  · exact SamplingOptions.addsFinite laws (by decide) hfraction hlength fun p hp =>
      .of_abs_le within_coordinateBound (hbound p hp)
  · have hpoints : ∀ p ∈ stroke.points, p.Within 997 := fun p hp =>
      .of_abs_le within_curveBound (hbound p hp)
    rw [CurveOptions.addsFinite_iff fun p hp => (hpoints p hp).isFinite]
    exact handles_finite_iff laws htightness (by decide) hpoints

/-- Back and forth on a line, far out. -/
theorem finite_within_bounds_far :
    let stroke : Stroke Float := ⟨[⟨0, 0⟩, ⟨1e150, 0⟩, ⟨-1e150, 0⟩, ⟨1e150, 0⟩]⟩
    HypotenuseLaws ∧ stroke.points.length ≤ 2 ^ 53 ∧
    (∀ p ∈ stroke.points, p.x.abs ≤ 1e150 ∧ p.y.abs ≤ 1e150) ∧
    (∀ p ∈ stroke.points, p.x.abs ≤ 1e300 ∧ p.y.abs ≤ 1e300) ∧
    (polyline : Smoothing Float).AddsFinite stroke ∧
    (standard : Smoothing Float).AddsFinite stroke ∧
    ((bezier .standard : Smoothing Float).AddsFinite stroke ↔
      ∀ (k : ℕ) (a c : Point Float), stroke.points[k]? = some a → stroke.points[k + 2]? = some c →
        ¬ (c - a).IsTiny) := by
  intro stroke
  have hlength : stroke.points.length ≤ 2 ^ 53 := by decide
  have hnear : ∀ p ∈ stroke.points, p.x.abs ≤ 1e150 ∧ p.y.abs ≤ 1e150 := by decide +kernel
  have hbound : ∀ p ∈ stroke.points, p.x.abs ≤ 1e300 ∧ p.y.abs ≤ 1e300 := by decide +kernel
  obtain ⟨hlines, hspline, hcurves⟩ := finite_within_bounds hypotenuseLaws_hypot stroke
  exact ⟨hypotenuseLaws_hypot, hlength, hnear, hbound, hlines, hspline hlength hnear,
    hcurves hbound⟩

/-- Differences overflow where points are finite and too far apart: those of a spline's values, and
those to the neighbours of a point, even where these coincide. -/
theorem not_addsFinite_of_largest :
    let line : Stroke Float := ⟨[⟨0, 0⟩, ⟨1e308, 0⟩]⟩
    let loop : Stroke Float := ⟨[⟨1e308, 0⟩, ⟨-1e308, 0⟩, ⟨1e308, 0⟩]⟩
    (∀ p ∈ line.points, p.isFinite) ∧ ¬ (standard : Smoothing Float).AddsFinite line ∧
    (∀ p ∈ loop.points, p.isFinite) ∧
    ¬ (bezier .standard : Smoothing Float).AddsFinite loop := by
  simp only [addsFinite_iff]
  decide +kernel

end Smoothing

end PenStroke
