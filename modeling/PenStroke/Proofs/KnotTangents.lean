import PenStroke.Proofs.KnotCurves
import PenStroke.Proofs.PlaneGeometry

/-! Tangents at knots. Both control points of a knot lie on the line through it in the direction of
the chord between its neighbours, one behind the knot and one ahead, so the curves that meet at the
knot have the same tangent there. -/
namespace PenStroke

namespace Offset
variable (v d : Offset ℝ)

theorem div_eq (s : ℝ) : v / s = (1 / s) • v := by
  rw [← Exact.numeral_one]
  rfl

/-- A displacement without length has no direction, as a quotient by zero is zero. -/
theorem direction_eq : v.direction = (1 / v.length) • v := by
  simp only [direction, Exact.numeral_zero, Exact.isFinite_eq, and_true, div_eq]
  split_ifs with hpos
  · rfl
  · have hlength : v.length = 0 := le_antisymm (not_lt.mp hpos) v.length_nonneg
    rw [length_eq_zero_iff.mp hlength]
    simp [zero, smul_eq]

theorem dot_neg : v.dot (-d) = -v.dot d := by
  simp only [neg_eq, dot_eq]
  ring

theorem abs_dot_direction : |v.dot d.direction| = |v.dot d| / d.length := by
  have hdot : v.dot d.direction = v.dot d / d.length := by
    simp only [direction_eq, smul_eq, dot_eq]
    ring
  rw [hdot, abs_div, abs_of_nonneg d.length_nonneg]

/-- How far a control point lies from its knot, as a share of the chord `d`: the tightness times
the length that the way `v` to a neighbour has along the chord. -/
noncomputable def reach (tightness : ℝ) : ℝ := tightness * |v.dot d| / d.length ^ 2

variable (tightness : ℝ)

theorem smul_direction_eq :
    (tightness * |v.dot d.direction|) • d.direction = v.reach d tightness • d := by
  rw [abs_dot_direction, direction_eq, smul_smul, reach]
  congr 1
  ring

variable {tightness}

theorem reach_nonneg (h : 0 ≤ tightness) : 0 ≤ v.reach d tightness := by
  unfold reach
  positivity

/-- A control point is no further away than the neighbour it reaches towards, times the
tightness. -/
theorem length_reach_le (h : 0 ≤ tightness) :
    (v.reach d tightness • d).length ≤ tightness * v.length := by
  rw [length_smul, abs_of_nonneg (v.reach_nonneg d h), reach]
  by_cases hzero : d.length = 0
  · rw [hzero, mul_zero]
    exact mul_nonneg h v.length_nonneg
  · calc tightness * |v.dot d| / d.length ^ 2 * d.length
        = tightness * (|v.dot d| / d.length) := by field_simp
      _ ≤ tightness * v.length := by
        apply mul_le_mul_of_nonneg_left _ h
        rw [div_le_iff₀ (d.length_nonneg.lt_of_ne' hzero)]
        exact abs_dot_le v d

end Offset

/-- The control points of a knot `b` between `a` and `c` lie on its tangent, which has
the direction of the chord from `a` to `c`: the incoming one behind the knot, the
outgoing one ahead of it. -/
structure Handles.AlongChord (tightness : ℝ) (a b c : Point ℝ) (h : Handles ℝ) : Prop where
  incoming : c ≠ a → b - h.incoming =
    (tightness * |(b - a).dot (c - a)| / (c - a).length ^ 2) • (c - a)
  outgoing : c ≠ a → h.outgoing - b =
    (tightness * |(b - c).dot (c - a)| / (c - a).length ^ 2) • (c - a)
  meet : c = a → h.incoming = b ∧ h.outgoing = b
  forward : ∃ s t : ℝ, 0 ≤ s ∧ 0 ≤ t ∧ b - h.incoming = s • (c - a) ∧ h.outgoing - b = t • (c - a)
  incoming_le : (b - h.incoming).length ≤ tightness * (b - a).length
  outgoing_le : (h.outgoing - b).length ≤ tightness * (c - b).length

namespace Handles
variable {tightness : ℝ} (a b c : Point ℝ)

theorem ofKnot_eq (tightness : ℝ) : ofKnot tightness a b c =
    ⟨b - (b - a).reach (c - a) tightness • (c - a),
      b + (b - c).reach (c - a) tightness • (c - a)⟩ := by
  simp only [ofKnot, Exact.abs_eq]
  rw [Offset.dot_neg, abs_neg, Point.sub_smul_neg, Offset.smul_direction_eq,
    Offset.smul_direction_eq]

theorem ofKnot_alongChord (h : 0 ≤ tightness) :
    (ofKnot tightness a b c).AlongChord tightness a b c := by
  rw [ofKnot_eq]
  refine
    { incoming := fun _ => Point.sub_sub_offset b _
      outgoing := fun _ => Point.add_offset_sub b _
      meet := fun hmeet => ?_
      forward := ⟨_, _, Offset.reach_nonneg _ _ h, Offset.reach_nonneg _ _ h,
        Point.sub_sub_offset b _, Point.add_offset_sub b _⟩
      incoming_le := ?_
      outgoing_le := ?_ }
  · have hchord : (c - a : Offset ℝ) = .zero := Point.sub_eq_zero_iff.mpr hmeet
    rw [hchord, Offset.smul_zero, Offset.smul_zero]
    exact ⟨b.sub_zero_offset, b.add_zero_offset⟩
  · rw [Point.sub_sub_offset]
    exact Offset.length_reach_le _ _ h
  · rw [Point.add_offset_sub, ← Point.neg_sub_eq b c, Offset.length_neg]
    exact Offset.length_reach_le _ _ h

end Handles

namespace Bezier
variable (b : Bezier ℝ)

theorem hasDerivAt_bernstein (p q r s t : ℝ) : HasDerivAt
    (fun u => p * ((1 - u) * (1 - u) * (1 - u)) + (q * ((1 - u) * (1 - u) * 3) +
      (r * ((1 - u) * 3) + s * u) * u) * u)
    (3 * ((1 - t) ^ 2 * (q - p) + 2 * (1 - t) * t * (r - q) + t ^ 2 * (s - r))) t := by
  have hcubic := (hasDerivAt_pow 3 t).const_mul (s - 3 * r + 3 * q - p)
  have hsquare := (hasDerivAt_pow 2 t).const_mul (3 * r - 6 * q + 3 * p)
  have hlinear := (hasDerivAt_id t).const_mul (3 * q - 3 * p)
  have hsum := ((hcubic.add hsquare).add hlinear).const_add p
  refine (hsum.congr_deriv ?_).congr_of_eventuallyEq (.of_forall fun u => ?_)
  · push_cast
    ring
  · simp only [Pi.add_apply, id]
    ring

/-- The derivative of the point by the parameter. -/
noncomputable def velocity (t : ℝ) : Offset ℝ :=
  ⟨deriv (fun u => (b.eval u).x) t, deriv (fun u => (b.eval u).y) t⟩

theorem velocity_zero : b.velocity 0 = (3 : ℝ) • (b.first - b.start) := by
  have hx := (hasDerivAt_bernstein b.start.x b.first.x b.second.x b.finish.x 0).deriv
  have hy := (hasDerivAt_bernstein b.start.y b.first.y b.second.y b.finish.y 0).deriv
  simp only [velocity, eval_eq, hx, hy, Point.sub_eq, Offset.smul_eq, Offset.mk.injEq]
  constructor <;> ring

theorem velocity_one : b.velocity 1 = (3 : ℝ) • (b.finish - b.second) := by
  have hx := (hasDerivAt_bernstein b.start.x b.first.x b.second.x b.finish.x 1).deriv
  have hy := (hasDerivAt_bernstein b.start.y b.first.y b.second.y b.finish.y 1).deriv
  simp only [velocity, eval_eq, hx, hy, Point.sub_eq, Offset.smul_eq, Offset.mk.injEq]
  constructor <;> ring

open Classical in
/-- The direction in which the curve departs: its velocity, or where it starts with none, the way
to its second control point. -/
noncomputable def departure : Offset ℝ :=
  if b.velocity 0 = .zero then b.second - b.start else b.velocity 0

theorem departure_of_eq {b : Bezier ℝ} (h : b.first = b.start) :
    b.departure = b.second - b.start := by
  have hvelocity : b.velocity 0 = .zero := by
    rw [velocity_zero, Point.sub_eq_zero_iff.mpr h, Offset.smul_zero]
  exact if_pos hvelocity

theorem departure_of_ne {b : Bezier ℝ} (h : b.first ≠ b.start) :
    b.departure = (3 : ℝ) • (b.first - b.start) := by
  have hvelocity : b.velocity 0 ≠ .zero := by
    rw [velocity_zero, Offset.smul_ne_zero_iff, Ne, Ne, Point.sub_eq_zero_iff]
    exact ⟨three_ne_zero, h⟩
  rw [← velocity_zero]
  exact if_neg hvelocity

end Bezier

/-- Neither displacement is zero, and they are positive multiples of each other. -/
structure Offset.SameDirection (v w : Offset ℝ) : Prop where
  ne_zero : v ≠ .zero
  onward : ∃ s : ℝ, 0 < s ∧ w = s • v
  back : ∃ s : ℝ, 0 < s ∧ v = s • w

theorem Offset.sameDirection_smul {d : Offset ℝ} (hd : d ≠ .zero) {s t : ℝ} (hs : 0 < s)
    (ht : 0 < t) : (s • d).SameDirection (t • d) := by
  refine ⟨smul_ne_zero_iff.mpr ⟨hs.ne', hd⟩, ⟨t / s, div_pos ht hs, ?_⟩,
    ⟨s / t, div_pos hs ht, ?_⟩⟩
  · rw [smul_smul, div_mul_cancel₀ _ hs.ne']
  · rw [smul_smul, div_mul_cancel₀ _ ht.ne']

/-- Two curves meet in a knot. If both control points of the knot differ from it, the end tangent
of the one and the start tangent of the other have the same direction. -/
structure MeetSmoothly (knot : Point ℝ) (h : Handles ℝ) (arriving leaving : Bezier ℝ) : Prop where
  finish : arriving.finish = knot
  start : leaving.start = knot
  tangent : h.incoming ≠ knot → h.outgoing ≠ knot →
    (arriving.velocity 1).SameDirection leaving.departure

section Meeting
variable {tightness : ℝ} {a b c : Point ℝ} {h : Handles ℝ}

/-- Control points that differ from their knot are on both sides of it. -/
theorem Handles.AlongChord.exists_pos (halong : h.AlongChord tightness a b c)
    (hin : h.incoming ≠ b) (hout : h.outgoing ≠ b) : ∃ s t : ℝ, 0 < s ∧ 0 < t ∧
      (c - a : Offset ℝ) ≠ .zero ∧ b - h.incoming = s • (c - a) ∧
      h.outgoing - b = t • (c - a) := by
  obtain ⟨s, t, hs, ht, hincoming, houtgoing⟩ := halong.forward
  have hbehind : (b - h.incoming : Offset ℝ) ≠ .zero := mt Point.sub_eq_zero_iff.mp hin.symm
  have hahead : (h.outgoing - b : Offset ℝ) ≠ .zero := mt Point.sub_eq_zero_iff.mp hout
  rw [hincoming, Offset.smul_ne_zero_iff] at hbehind
  rw [houtgoing, Offset.smul_ne_zero_iff] at hahead
  exact ⟨s, t, hs.lt_of_ne' hbehind.1, ht.lt_of_ne' hahead.1, hbehind.2, hincoming, houtgoing⟩

theorem meetSmoothly {points : List (Point ℝ)} {handles : List (Handles ℝ)} {k : ℕ}
    {arriving leaving : Bezier ℝ} (harriving : arriving.JoinsKnots points handles k)
    (hleaving : leaving.JoinsKnots points handles (k + 1)) (hk : k + 2 < points.length)
    (hb : points[k + 1]? = some b) (hh : handles[k]? = some h)
    (halong : h.AlongChord tightness a b c) : MeetSmoothly b h arriving leaving := by
  have hfinish : arriving.finish = b := Option.some.inj (harriving.finish.symm.trans hb)
  have hstart : leaving.start = b := Option.some.inj (hleaving.start.symm.trans hb)
  have hsecond : h.incoming = arriving.second := by
    simpa [hh] using harriving.arrives hk.ne
  refine ⟨hfinish, hstart, fun hin hout => ?_⟩
  obtain ⟨s, t, hs, ht, hchord, hincoming, houtgoing⟩ := halong.exists_pos hin hout
  rw [Bezier.velocity_one, hfinish, ← hsecond, hincoming, Offset.smul_smul]
  by_cases hlast : k + 3 = points.length
  · have hfirst : leaving.first = leaving.start := hleaving.leaves_start (.inr hlast)
    have hsecond : h.outgoing = leaving.second := by
      simpa [hh] using hleaving.arrives_last hlast
    rw [Bezier.departure_of_eq hfirst, hstart, ← hsecond, houtgoing]
    exact Offset.sameDirection_smul hchord (mul_pos three_pos hs) ht
  · have hfirst : h.outgoing = leaving.first := by
      simpa [hh] using hleaving.leaves k.succ_ne_zero hlast
    have hmoves : leaving.first ≠ leaving.start := by rwa [← hfirst, hstart]
    rw [Bezier.departure_of_ne hmoves, hstart, ← hfirst, houtgoing, Offset.smul_smul]
    exact Offset.sameDirection_smul hchord (mul_pos three_pos hs) (mul_pos three_pos ht)

end Meeting

/-- The control points of a knot lie on its tangent, no further away than the neighbours are, times
the tightness. So the curves drawn through points meet smoothly at every knot. -/
theorem CurveOptions.draw_meetSmoothly {options : CurveOptions ℝ} (ht : 0 ≤ options.tightness) :
    (∀ points i a b c, points[i]? = some a → points[i + 1]? = some b → points[i + 2]? = some c →
      ∃ h, (handles options.tightness points)[i]? = some h ∧
        h.AlongChord options.tightness a b c) ∧
    ∀ stroke : Stroke ℝ, 3 ≤ stroke.points.length → ∃ (first : Point ℝ) (bs : List (Bezier ℝ)),
      stroke.points.head? = some first ∧
      CurvesThrough stroke.points (handles options.tightness stroke.points) bs ∧
      (∀ canvas, options.draw canvas stroke =
        canvas ++ .of (.moveTo first :: bs.map Bezier.command ++ [.stroke]) []) ∧
      ∀ i knot, i + 2 < stroke.points.length → stroke.points[i + 1]? = some knot →
        ∃ h arriving leaving, (handles options.tightness stroke.points)[i]? = some h ∧
          bs[i]? = some arriving ∧ bs[i + 1]? = some leaving ∧
          MeetSmoothly knot h arriving leaving := by
  constructor
  · intro points i a b c ha hb hc
    exact ⟨_, handles_of_neighbours options.tightness ha hb hc, Handles.ofKnot_alongChord a b c ht⟩
  · intro stroke hn
    obtain ⟨first, bs, hfirst, hcurves, hdraw⟩ := options.draw_eq_curves hn (fun _ _ => rfl)
    refine ⟨first, bs, hfirst, hcurves, hdraw, fun i knot hi hknot => ?_⟩
    obtain ⟨arriving, harriving, hbefore⟩ := hcurves.joins i (by omega)
    obtain ⟨leaving, hleaving, hafter⟩ := hcurves.joins (i + 1) (by omega)
    have ha := List.getElem?_eq_getElem (show i < stroke.points.length by omega)
    have hc := List.getElem?_eq_getElem hi
    have hh := handles_of_neighbours options.tightness ha hknot hc
    exact ⟨_, arriving, leaving, hh, harriving, hleaving,
      meetSmoothly hbefore hafter hi hknot hh (Handles.ofKnot_alongChord _ knot _ ht)⟩

/-- A corner, whose only knot has a curve on each side. -/
theorem CurveOptions.draw_meetSmoothly_corner :
    let stroke : Stroke ℝ := ⟨[⟨0, 0⟩, ⟨10, 0⟩, ⟨10, 10⟩]⟩
    let h : Handles ℝ := ⟨⟨15 / 2, -5 / 2⟩, ⟨25 / 2, 5 / 2⟩⟩
    (0 : ℝ) ≤ 1 / 2 ∧ 3 ≤ stroke.points.length ∧ handles (1 / 2) stroke.points = [h] ∧
    h.AlongChord (1 / 2) ⟨0, 0⟩ ⟨10, 0⟩ ⟨10, 10⟩ ∧
    ∃ arriving leaving, CurvesThrough stroke.points [h] [arriving, leaving] ∧
      MeetSmoothly ⟨10, 0⟩ h arriving leaving ∧
      (arriving.velocity 1).SameDirection leaving.departure := by
  intro stroke h
  have ht : (0 : ℝ) ≤ 1 / 2 := by norm_num
  have hn : 3 ≤ stroke.points.length := by decide
  have hknot : Handles.ofKnot (1 / 2) (⟨0, 0⟩ : Point ℝ) ⟨10, 0⟩ ⟨10, 10⟩ = h := by
    norm_num [Handles.ofKnot_eq, Offset.reach, Offset.length_sq, Offset.lengthSq_eq, Offset.dot_eq,
      Point.sub_eq, Offset.smul_eq, Point.sub_offset_eq, Point.add_offset_eq, h]
  have hh : handles (1 / 2) stroke.points = [h] := congrArg (fun h => [h]) hknot
  obtain ⟨halong, hmeet⟩ := @draw_meetSmoothly ⟨1 / 2⟩ ht
  obtain ⟨first, bs, -, hcurves, -, hsmooth⟩ := hmeet stroke hn
  obtain ⟨arriving, leaving, rfl⟩ := List.length_eq_two.mp hcurves.length
  obtain ⟨h', arriving', leaving', hh', harriving, hleaving, hmeets⟩ := hsmooth 0 _ hn rfl
  obtain ⟨h'', hh'', halong⟩ := halong stroke.points 0 _ _ _ rfl rfl rfl
  rw [hh] at hh' hh'' hcurves
  obtain rfl : h = h' := Option.some.inj hh'
  obtain rfl : h = h'' := Option.some.inj hh''
  obtain rfl : arriving = arriving' := Option.some.inj harriving
  obtain rfl : leaving = leaving' := Option.some.inj hleaving
  exact ⟨ht, hn, hh, halong, arriving, leaving, hcurves, hmeets,
    hmeets.tangent (by norm_num [h]) (by norm_num [h])⟩

end PenStroke
