import PenStroke.Proofs.Independence
import PenStroke.Proofs.Interpolation

/-! Where figures go. The figure of a stroke starts at its first point and ends at its last one,
however it is smoothed. Curves with estimated control points and straight lines lead from each
point to the next. -/
namespace PenStroke

variable {α : Type}

/-- The commands of one figure from `first` to `last`: a move, at least one line or curve, and the
stroke. -/
def Command.LeadsTo (first last : Point α) (cs : List (Command α)) : Prop :=
  ∃ outline arrival, cs = .moveTo first :: outline ++ [arrival, .stroke] ∧
    (∀ c ∈ outline ++ [arrival], c.isStroke = false) ∧ arrival.destination? = some last

/-- The commands of one figure that leads from each point to the next: a move to the first one, a
line or curve to each other, and the stroke. -/
def Command.Visits (points : List (Point α)) (cs : List (Command α)) : Prop :=
  ∃ first outline, cs = .moveTo first :: outline ++ [.stroke] ∧
    points.map some = some first :: outline.map Command.destination?

theorem Command.isStroke_eq_false_of_destination {c : Command α} {p : Point α}
    (h : c.destination? = some p) : c.isStroke = false := by
  cases c with
  | stroke => contradiction
  | moveTo | lineTo | curveTo => rfl

/-- A figure that visits two points or more leads from the first to the last. -/
theorem Command.Visits.leadsTo {points : List (Point α)} {cs : List (Command α)}
    (h : Visits points cs) (hn : 2 ≤ points.length) {first last : Point α}
    (hfirst : points.head? = some first) (hlast : points.getLast? = some last) :
    LeadsTo first last cs := by
  obtain ⟨p, outline, rfl, hvisits⟩ := h
  rcases List.eq_nil_or_concat outline with rfl | ⟨outline, arrival, rfl⟩
  · have hlength := congrArg List.length hvisits
    simp at hlength
    omega
  · rw [List.concat_eq_append] at hvisits ⊢
    have hhead := congrArg List.head? hvisits
    have hend := congrArg List.getLast? hvisits
    rw [List.head?_map, hfirst] at hhead
    rw [List.getLast?_map, hlast, List.map_append, List.map_singleton, ← List.cons_append,
      List.getLast?_concat] at hend
    obtain rfl : first = p := by simpa using hhead
    refine ⟨outline, arrival, by simp, fun c hc => ?_, (Option.some.inj hend).symm⟩
    have hmem : c.destination? ∈ points.map some := by
      rw [hvisits]
      exact List.mem_cons_of_mem _ (List.mem_map_of_mem hc)
    obtain ⟨q, -, hq⟩ := List.mem_map.mp hmem
    exact isStroke_eq_false_of_destination hq.symm

theorem Polyline.drawPoints_visits (p : Point α) {rest : List (Point α)} (h : rest ≠ []) :
    ∃ cs, Command.Visits (p :: rest) cs ∧
      ∀ canvas, drawPoints canvas (p :: rest) = canvas ++ .of cs [] := by
  refine ⟨_, ⟨p, rest.map .lineTo, rfl, ?_⟩, fun canvas => ?_⟩
  · rw [List.map_map]
    rfl
  · rw [drawPoints, foldl_lineTo]
    · simp
    · simpa using h

section Curved

theorem map_destination_arcs (leaving finish : Point α) {knots : List (Point α × Handles α)}
    (h : knots ≠ []) : (arcs leaving finish knots).map Command.destination? =
      (knots.map Prod.fst ++ [finish]).map some := by
  induction knots generalizing leaving with
  | nil => exact absurd rfl h
  | cons knot rest ih =>
    cases rest with
    | nil => rfl
    | cons next rest =>
      rw [arcs, List.map_cons, ih _ (by simp)]
      rfl

theorem map_fst_zip_of_shorter {β : Type} {xs : List α} {ys : List β}
    (h : xs.length = ys.length + 1) : (xs.zip ys).map Prod.fst = xs.dropLast := by
  induction ys generalizing xs with
  | nil =>
    obtain ⟨x, rfl⟩ := List.length_eq_one_iff.mp h
    rfl
  | cons y ys ih =>
    obtain ⟨x, x', xs, rfl⟩ := exists_cons_cons (h ▸ Nat.le_add_left 2 _)
    have htail : ((x' :: xs).zip ys).map Prod.fst = (x' :: xs).dropLast :=
      ih (by simpa using h)
    rw [List.zip_cons_cons, List.map_cons, htail, List.dropLast_cons_cons]

variable [Scalar α] [Hypotenuse α]

theorem CurveOptions.drawPoints_visits (options : CurveOptions α) (p : Point α)
    {rest : List (Point α)} (h : rest ≠ []) :
    ∃ cs, Command.Visits (p :: rest) cs ∧
      ∀ canvas, options.drawPoints canvas (p :: rest) = canvas ++ .of cs [] := by
  obtain ⟨q, more, rfl⟩ := List.exists_cons_of_ne_nil h
  cases more with
  | nil =>
    refine ⟨_, ⟨p, [.lineTo q], rfl, rfl⟩, fun canvas => ?_⟩
    simp [drawPoints, handles]
  | cons r more =>
    -- Every point but the first and the last is a knot with control points.
    have hlength := length_handles options.tightness (p :: q :: r :: more)
    have hcons : (q :: r :: more).zip (handles options.tightness (p :: q :: r :: more)) ≠ [] := by
      rw [handles]
      simp
    refine ⟨_, ⟨p, _, rfl, ?_⟩, options.drawPoints_of_knots p hcons⟩
    rw [map_destination_arcs _ _ hcons, map_fst_zip_of_shorter (by simp [hlength]),
      List.getLastD_eq_getLast?, List.getLast?_eq_some_getLast h, Option.getD_some,
      List.dropLast_append_getLast]
    rfl

end Curved

section Sampled

theorem Leg.isStroke_lines (leg : Leg α) : ∀ c ∈ leg.lines, c.isStroke = false := by
  intro c hc
  rw [← Bool.not_eq_true]
  exact List.countP_eq_zero.mp leg.outline_lines.countP_isStroke c hc

/-- The last line of a leg goes to its sample. -/
theorem SamplingOptions.lines_arrive [Scalar α] [Hypotenuse α] (options : SamplingOptions α)
    (curve : PlaneSpline α) (n : ℕ) : ∃ outline,
      (List.range' 1 (n + 1)).flatMap (fun k => (options.leg curve k).lines) =
        outline ++ [.lineTo (options.sample curve (n + 1))] := by
  refine ⟨(List.range' 1 n).flatMap (fun k => (options.leg curve k).lines) ++
    (options.waypointAt? curve (n + 1)).toList.map .lineTo, ?_⟩
  rw [List.range'_concat, List.flatMap_append, List.append_assoc]
  simp [leg, Leg.lines, Nat.add_comm]

variable {K : Type} [Field K] [LinearOrder K] [FloorRing K]

theorem parameter_eq (count k : ℕ) :
    (parameter count k : K) = k / (max count 2 - 1 : ℕ) := rfl

variable [IsStrictOrderedRing K]

namespace SamplingOptions
variable (options : SamplingOptions K)

section Samples
variable {points : List (Point K)} {slopes : List (Offset K)}

theorem sample_first (h : slopes.length = points.length) (hn : 2 ≤ points.length) :
    points.head? = some (options.sample (.hermite points slopes) 0) := by
  rw [sample, parameter_eq, Nat.cast_zero, zero_div, PlaneSpline.eval_zero h hn]

theorem sample_last (h : slopes.length = points.length) (hn : 2 ≤ points.length) :
    points.getLast? =
      some (options.sample (.hermite points slopes) (max options.samples 2 - 1)) := by
  have hne : ((max options.samples 2 - 1 : ℕ) : K) ≠ 0 := by
    rw [Nat.cast_ne_zero]
    omega
  rw [sample, parameter_eq, div_self hne, PlaneSpline.eval_one h hn]

end Samples

variable [Hypotenuse K]

/-- The samples start at the first point and end at the last one,
whatever waypoints lie between. -/
theorem draw_leadsTo {stroke : Stroke K} (hn : 2 ≤ stroke.points.length) {first last : Point K}
    (hfirst : stroke.points.head? = some first) (hlast : stroke.points.getLast? = some last) :
    ∃ cs ns, Command.LeadsTo first last cs ∧
      ∀ canvas, options.draw canvas stroke = canvas ++ .of cs ns := by
  have hf : ∀ p ∈ stroke.points, p.isFinite := fun p _ => rfl
  obtain ⟨slopes, h, -, -, hcurve⟩ := PlaneSpline.through?_eq_hermite hn
  obtain ⟨n, hsamples⟩ : ∃ n, max options.samples 2 - 1 = n + 1 :=
    ⟨max options.samples 2 - 2, by omega⟩
  have hstart := Option.some.inj (hfirst.symm.trans (options.sample_first h hn))
  have hend := Option.some.inj (hlast.symm.trans (options.sample_last h hn))
  rw [hsamples] at hend
  generalize PlaneSpline.hermite stroke.points slopes = curve at hcurve hstart hend
  obtain ⟨outline, hlines⟩ := options.lines_arrive curve n
  rw [← hend] at hlines
  refine ⟨_, _, ⟨outline, .lineTo last, ?_, ?_, rfl⟩, fun canvas =>
    options.draw_of_ok (options.drawRecorded_eq hn hf hcurve canvas)⟩
  · rw [flatMap_commands, hsamples, hlines, hstart]
    simp
  · rw [← hlines]
    intro c hc
    obtain ⟨k, -, hk⟩ := List.mem_flatMap.mp hc
    exact (options.leg curve k).isStroke_lines c hk

end SamplingOptions

end Sampled

namespace Smoothing
variable [Scalar α] [Hypotenuse α]

/-- Whether the figure of a stroke leads through all its points and no others. -/
def keepsPoints : Smoothing α → Bool
  | .spline _ => false
  | .bezier _ | .polyline => true

theorem figure_of_draw {smoothing : Smoothing α} {stroke : Stroke α} (cs : List (Command α))
    (ns : List (Notice α)) (h : ∀ canvas, smoothing.draw canvas stroke = canvas ++ .of cs ns) :
    smoothing.figure stroke = cs := by
  rw [figure, h, Canvas.empty_append, Canvas.toList_path_of]

theorem toList_draw (smoothing : Smoothing α) (canvas : Canvas α) (stroke : Stroke α) :
    (smoothing.draw canvas stroke).path.toList =
      canvas.path.toList ++ smoothing.figure stroke := by
  rw [draw_eq, Canvas.path_append, Path.toList_append, Canvas.toList_path_of]

/-- A single point is drawn as a dot. -/
theorem figure_single (smoothing : Smoothing α) {stroke : Stroke α} (h : stroke.isDrawable)
    {p : Point α} (hp : stroke.points = [p]) :
    smoothing.figure stroke = [.moveTo p, .lineTo p, .stroke] := by
  have hf := (Stroke.isDrawable_iff.mp h).2
  cases smoothing with
  | spline options =>
    exact figure_of_draw _ _ fun canvas =>
      options.draw_of_ok (options.drawRecorded_single hp hf canvas)
  | bezier options =>
    exact figure_of_draw _ [] fun canvas => by
      rw [draw, options.draw_of_finite hf, hp]
      exact options.drawPoints_of_no_knots p List.zip_nil_left canvas
  | polyline =>
    exact figure_of_draw _ [] fun canvas => by
      rw [draw, Polyline.draw_of_finite hf, hp]
      simp [Polyline.drawPoints]

theorem figure_visits {smoothing : Smoothing α} (hkeeps : smoothing.keepsPoints)
    {stroke : Stroke α} (h : stroke.isDrawable) (hn : 2 ≤ stroke.size) :
    Command.Visits stroke.points (smoothing.figure stroke) := by
  have hf := (Stroke.isDrawable_iff.mp h).2
  obtain ⟨p, q, rest, hp⟩ := exists_cons_cons hn
  cases smoothing with
  | spline options => contradiction
  | bezier options =>
    obtain ⟨cs, hcs, hdraw⟩ := options.drawPoints_visits p (List.cons_ne_nil q rest)
    rw [hp, figure_of_draw cs []]
    · exact hcs
    · intro canvas
      rw [← hdraw, ← hp]
      exact options.draw_of_finite hf canvas
  | polyline =>
    obtain ⟨cs, hcs, hdraw⟩ := Polyline.drawPoints_visits p (List.cons_ne_nil q rest)
    rw [hp, figure_of_draw cs []]
    · exact hcs
    · intro canvas
      rw [← hdraw, ← hp]
      exact Polyline.draw_of_finite hf canvas

theorem figure_leadsTo {smoothing : Smoothing α} {stroke : Stroke α}
    (hkeeps : smoothing.keepsPoints ∨ stroke.size = 1) (h : stroke.isDrawable)
    {first last : Point α} (hfirst : stroke.points.head? = some first)
    (hlast : stroke.points.getLast? = some last) :
    Command.LeadsTo first last (smoothing.figure stroke) := by
  have hpos : 0 < stroke.size := List.length_pos_iff.mpr (Stroke.isDrawable_iff.mp h).1
  by_cases hone : stroke.size = 1
  · obtain ⟨p, hp⟩ := List.length_eq_one_iff.mp hone
    obtain rfl : p = first := by simpa [hp] using hfirst
    obtain rfl : p = last := by simpa [hp] using hlast
    rw [smoothing.figure_single h hp]
    exact ⟨[], .lineTo p, rfl, by simp [Command.isStroke], rfl⟩
  · have hn : 2 ≤ stroke.size := by omega
    have hkeeps : smoothing.keepsPoints := hkeeps.resolve_right hone
    exact (figure_visits hkeeps h hn).leadsTo hn hfirst hlast

/-- The figure of a stroke is a dot for a single point, and leads from the first point to the last
for more. Unless the stroke is sampled it leads through all points in order; samples meet both ends
where arithmetic is exact. -/
theorem figure_ends :
    (∀ (α : Type) [Scalar α] [Hypotenuse α] (smoothing : Smoothing α) (stroke : Stroke α),
      stroke.isDrawable →
      (∀ canvas, (smoothing.draw canvas stroke).path.toList =
        canvas.path.toList ++ smoothing.figure stroke) ∧
      (∀ p, stroke.points = [p] →
        smoothing.figure stroke = [.moveTo p, .lineTo p, .stroke]) ∧
      (smoothing.keepsPoints → 2 ≤ stroke.size →
        Command.Visits stroke.points (smoothing.figure stroke)) ∧
      (smoothing.keepsPoints ∨ stroke.size = 1 → ∀ first last,
        stroke.points.head? = some first → stroke.points.getLast? = some last →
        Command.LeadsTo first last (smoothing.figure stroke))) ∧
    ∀ (K : Type) [Field K] [LinearOrder K] [FloorRing K] [IsStrictOrderedRing K] [Hypotenuse K]
      (smoothing : Smoothing K) (stroke : Stroke K) (first last : Point K),
      stroke.points.head? = some first → stroke.points.getLast? = some last →
      Command.LeadsTo first last (smoothing.figure stroke) := by
  constructor
  · intro α _ _ smoothing stroke h
    exact ⟨fun canvas => smoothing.toList_draw canvas stroke, fun p => smoothing.figure_single h,
      fun hkeeps => figure_visits hkeeps h, fun hkeeps first last => figure_leadsTo hkeeps h⟩
  · intro K _ _ _ _ _ smoothing stroke first last hfirst hlast
    have hne : stroke.points ≠ [] := by
      rintro hnil
      simp [hnil] at hfirst
    have h : stroke.isDrawable := Stroke.isDrawable_iff.mpr ⟨hne, fun p _ => rfl⟩
    by_cases hkeeps : smoothing.keepsPoints ∨ stroke.size = 1
    · exact figure_leadsTo hkeeps h hfirst hlast
    · have hpos := List.length_pos_iff.mpr hne
      cases smoothing with
      | bezier options => simp [keepsPoints] at hkeeps
      | polyline => simp [keepsPoints] at hkeeps
      | spline options =>
        have hn : 2 ≤ stroke.points.length := by
          rw [not_or, Stroke.size] at hkeeps
          omega
        obtain ⟨cs, ns, hcs, hdraw⟩ := options.draw_leadsTo hn hfirst hlast
        have hfigure : (Smoothing.spline options).figure stroke = cs :=
          figure_of_draw cs ns hdraw
        rwa [hfigure]

/-- A zigzag drawn by curves in doubles, and sampled in exact arithmetic. -/
theorem figure_ends_zigzag :
    (let stroke : Stroke Float := ⟨[⟨0, 0⟩, ⟨30, 30⟩, ⟨60, 0⟩, ⟨90, 30⟩]⟩
    stroke.isDrawable ∧ 2 ≤ stroke.size ∧
      Command.Visits stroke.points ((Smoothing.bezier .standard).figure stroke) ∧
      Command.LeadsTo ⟨0, 0⟩ ⟨90, 30⟩ ((Smoothing.bezier .standard).figure stroke)) ∧
    Command.LeadsTo (α := ℝ) ⟨0, 0⟩ ⟨90, 30⟩
      (Smoothing.standard.figure ⟨[⟨0, 0⟩, ⟨30, 30⟩, ⟨60, 0⟩, ⟨90, 30⟩]⟩) := by
  refine ⟨?_, figure_ends.2 ℝ _ _ _ _ rfl rfl⟩
  intro stroke
  have h : stroke.isDrawable := by decide +kernel
  have hn : 2 ≤ stroke.size := by decide
  obtain ⟨-, -, hvisits, hleads⟩ := figure_ends.1 Float (.bezier .standard) stroke h
  exact ⟨h, hn, hvisits rfl hn, hleads (.inl rfl) _ _ rfl rfl⟩

end Smoothing

end PenStroke
