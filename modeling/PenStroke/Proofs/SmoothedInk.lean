import PenStroke.Proofs.Outline

/-! Smoothed drawings: one figure after the other, for each stroke that can be drawn. A stroke
without points adds nothing, and one that is not finite a warning only. -/
namespace PenStroke

variable {α : Type}

/-- The notices that warn. -/
def Canvas.warnings (canvas : Canvas α) : List (Notice α) :=
  canvas.notices.toList.filter (·.level = .warn)

def SamplingEvent.isWaypoint : SamplingEvent α → Bool
  | .waypoint .. => true
  | .sample .. => false

theorem Leg.outline_lines (leg : Leg α) :
    Outline (1 + leg.events.countP SamplingEvent.isWaypoint) 0 leg.lines := by
  obtain ⟨index, u, point, waypoint⟩ := leg
  cases waypoint with
  | none => exact Outline.map_lineTo [point]
  | some p => exact Outline.map_lineTo [p, point]

theorem outline_flatMap_lines (legs : List (Leg α)) :
    Outline (legs.length + (legs.flatMap Leg.events).countP SamplingEvent.isWaypoint) 0
      (legs.flatMap Leg.lines) := by
  induction legs with
  | nil => exact .nil
  | cons leg legs ih =>
    have h := leg.outline_lines.append ih
    rw [List.flatMap_cons, List.countP_append, List.length_cons, List.flatMap_cons]
    convert h using 1
    omega

variable [Scalar α] [Hypotenuse α]

namespace SamplingOptions
variable (options : SamplingOptions α)

/-- The number of waypoints reported for a stroke. -/
def waypointCount (stroke : Stroke α) : Nat :=
  match options.drawRecorded {} stroke with
  | .ok (_, events) => events.toList.countP SamplingEvent.isWaypoint
  | .error _ => 0

theorem drawRecorded_of_fault {stroke : Stroke α} {fault : Fault} (h : stroke.fault? = some fault)
    (canvas : Canvas α) : options.drawRecorded canvas stroke = .error fault := by
  rw [drawRecorded, Stroke.check_eq_error h]
  rfl

theorem draw_of_fault {stroke : Stroke α} {fault : Fault} (h : stroke.fault? = some fault)
    (canvas : Canvas α) : options.draw canvas stroke = canvas ++ .of [] [.skipped fault] := by
  rw [draw, drawChecked, options.drawRecorded_of_fault h]
  exact Canvas.note_eq ..

theorem draw_of_ok {canvas drawn : Canvas α} {stroke : Stroke α} {events : Array (SamplingEvent α)}
    (h : options.drawRecorded canvas stroke = .ok (drawn, events)) :
    options.draw canvas stroke = drawn := by
  rw [draw, drawChecked, h]
  rfl

theorem drawRecorded_nil {stroke : Stroke α} (h : stroke.points = []) (canvas : Canvas α) :
    options.drawRecorded canvas stroke = .ok (canvas, #[]) := by
  rw [drawRecorded, Stroke.check, Stroke.fault?_of_nil h, h]
  rfl

theorem drawRecorded_single {p : Point α} {stroke : Stroke α} (hp : stroke.points = [p])
    (hf : ∀ p ∈ stroke.points, p.isFinite) (canvas : Canvas α) :
    options.drawRecorded canvas stroke =
      .ok (canvas ++ .of (.moveTo p :: [.lineTo p] ++ [.stroke]) [.dot p], #[]) := by
  rw [drawRecorded, Stroke.check_eq_ok hf, hp]
  simp

/-- The first leg has no waypoint, so the later ones have all of them. -/
theorem waypointCount_eq {stroke : Stroke α} (hn : 2 ≤ stroke.points.length)
    (hf : ∀ p ∈ stroke.points, p.isFinite) {curve : PlaneSpline α}
    (hc : PlaneSpline.through? stroke.points = some curve) :
    options.waypointCount stroke = (((List.range' 1 (max options.samples 2 - 1)).map
      (options.leg curve)).flatMap Leg.events).countP SamplingEvent.isWaypoint := by
  rw [waypointCount, options.drawRecorded_eq hn hf hc]
  dsimp only
  rw [legs_eq_cons, List.flatMap_cons, List.countP_append]
  exact Nat.zero_add _

theorem draw_figure {stroke : Stroke α} (h : stroke.isDrawable) :
    ∃ cs ns, Figure (if stroke.size = 1 then 1
        else max options.samples 2 - 1 + options.waypointCount stroke) 0 cs ∧
      (∀ notice ∈ ns, notice.level ≠ .warn) ∧
      ∀ canvas, options.draw canvas stroke = canvas ++ .of cs ns := by
  obtain ⟨hne, hf⟩ := Stroke.isDrawable_iff.mp h
  have hpos : 0 < stroke.points.length := List.length_pos_iff.mpr hne
  by_cases hone : stroke.size = 1
  · obtain ⟨p, hp⟩ := List.length_eq_one_iff.mp hone
    rw [if_pos hone]
    refine ⟨_, [.dot p], .mk p (Outline.map_lineTo [p]) Nat.one_pos, ?_, fun canvas => ?_⟩
    · simp [Notice.level]
    · exact options.draw_of_ok (options.drawRecorded_single hp hf canvas)
  · have hn : 2 ≤ stroke.points.length := by
      unfold Stroke.size at hone
      omega
    obtain ⟨curve, hcurve⟩ := PlaneSpline.through?_isSome hn hf
    have houtline := outline_flatMap_lines
      ((List.range' 1 (max options.samples 2 - 1)).map (options.leg curve))
    rw [List.length_map, List.length_range', List.flatMap_map _ Leg.lines,
      ← options.waypointCount_eq hn hf hcurve] at houtline
    rw [if_neg hone]
    refine ⟨_, (options.legs curve).flatMap Leg.notices,
      .mk (options.sample curve 0) houtline (by omega), ?_, fun canvas => ?_⟩
    · intro notice hnotice
      obtain ⟨leg, -, hleg⟩ := List.mem_flatMap.mp hnotice
      simp [leg.level_notices notice hleg]
    · rw [options.draw_of_ok (options.drawRecorded_eq hn hf hcurve canvas), flatMap_commands]

end SamplingOptions

namespace Smoothing
variable (smoothing : Smoothing α)

/-- The number of lines drawn for a stroke that can be drawn. -/
def lineCount : Smoothing α → Stroke α → Nat
  | .spline options, stroke =>
    if stroke.size = 1 then 1 else max options.samples 2 - 1 + options.waypointCount stroke
  | .bezier _, stroke => if stroke.size ≤ 2 then 1 else 0
  | .polyline, stroke => max 1 (stroke.size - 1)

/-- The number of curves drawn for a stroke that can be drawn. -/
def curveCount : Smoothing α → Stroke α → Nat
  | .bezier _, stroke => if stroke.size ≤ 2 then 0 else stroke.size - 1
  | .spline _, _ | .polyline, _ => 0

theorem draw_of_fault {stroke : Stroke α} {fault : Fault} (h : stroke.fault? = some fault)
    (canvas : Canvas α) : smoothing.draw canvas stroke = canvas ++ .of [] [.skipped fault] := by
  cases smoothing with
  | spline options => exact options.draw_of_fault h canvas
  | bezier options => simp [draw, CurveOptions.draw, h]
  | polyline => simp [draw, Polyline.draw, h]

theorem draw_of_nil {stroke : Stroke α} (h : stroke.points = []) (canvas : Canvas α) :
    smoothing.draw canvas stroke = canvas := by
  have hfault := Stroke.fault?_of_nil h
  cases smoothing with
  | spline options => exact options.draw_of_ok (options.drawRecorded_nil h canvas)
  | bezier options => simp [draw, CurveOptions.draw, hfault, h, CurveOptions.drawPoints]
  | polyline => simp [draw, Polyline.draw, hfault, h, Polyline.drawPoints]

/-- A stroke that can be drawn adds one figure, and no warning. -/
theorem draw_figure {stroke : Stroke α} (h : stroke.isDrawable) :
    ∃ cs ns, Figure (smoothing.lineCount stroke) (smoothing.curveCount stroke) cs ∧
      (∀ notice ∈ ns, notice.level ≠ .warn) ∧
      ∀ canvas, smoothing.draw canvas stroke = canvas ++ .of cs ns := by
  obtain ⟨hne, hf⟩ := Stroke.isDrawable_iff.mp h
  obtain ⟨p, rest, hp⟩ := List.exists_cons_of_ne_nil hne
  have hsize : stroke.size = rest.length + 1 := by rw [Stroke.size, hp, List.length_cons]
  cases smoothing with
  | spline options => exact options.draw_figure h
  | bezier options =>
    obtain ⟨cs, hcs, hdraw⟩ := options.drawPoints_figure p rest
    refine ⟨cs, [], ?_, by simp, fun canvas => ?_⟩
    · simpa [lineCount, curveCount, hsize] using hcs
    · rw [draw, options.draw_of_finite hf, hp, hdraw]
  | polyline =>
    obtain ⟨cs, hcs, hdraw⟩ := Polyline.drawPoints_figure p rest
    refine ⟨cs, [], ?_, by simp, fun canvas => ?_⟩
    · simpa [lineCount, curveCount, hsize] using hcs
    · rw [draw, Polyline.draw_of_finite hf, hp, hdraw]

/-- The commands that a stroke adds. -/
def figure (stroke : Stroke α) : List (Command α) := (smoothing.draw {} stroke).path.toList

/-- The notices given about a stroke. -/
def told (stroke : Stroke α) : List (Notice α) := (smoothing.draw {} stroke).notices.toList

theorem figure_of_nil {stroke : Stroke α} (h : stroke.points = []) :
    smoothing.figure stroke = [] := by
  simp [figure, smoothing.draw_of_nil h]

theorem figure_of_fault {stroke : Stroke α} {fault : Fault} (h : stroke.fault? = some fault) :
    smoothing.figure stroke = [] := by
  simp [figure, smoothing.draw_of_fault h]

theorem figure_of_isDrawable {stroke : Stroke α} (h : stroke.isDrawable) :
    Figure (smoothing.lineCount stroke) (smoothing.curveCount stroke)
      (smoothing.figure stroke) := by
  obtain ⟨cs, ns, hcs, -, hdraw⟩ := smoothing.draw_figure h
  simpa [figure, hdraw] using hcs

theorem draw_eq (canvas : Canvas α) (stroke : Stroke α) :
    smoothing.draw canvas stroke =
      canvas ++ .of (smoothing.figure stroke) (smoothing.told stroke) := by
  rcases stroke.empty_or_fault_or_drawable with hempty | ⟨fault, hfault⟩ | hdrawable
  · simp [figure, told, smoothing.draw_of_nil hempty]
  · simp [figure, told, smoothing.draw_of_fault hfault]
  · obtain ⟨cs, ns, -, -, hdraw⟩ := smoothing.draw_figure hdrawable
    simp [figure, told, hdraw]

theorem foldl_draw (canvas : Canvas α) (strokes : List (Stroke α)) :
    strokes.foldl smoothing.draw canvas =
      canvas ++ .of (strokes.flatMap smoothing.figure) (strokes.flatMap smoothing.told) := by
  induction strokes generalizing canvas with
  | nil => simp
  | cons stroke strokes ih =>
    rw [List.foldl_cons, ih, draw_eq, Canvas.append_of_append_of]
    rfl

theorem smooth_eq (ink : Ink α) : smoothing.smooth ink =
    .of (ink.strokes.flatMap smoothing.figure) (ink.strokes.flatMap smoothing.told) := by
  rw [smooth, Ink.draw, foldl_draw, Canvas.empty_append]

theorem flatMap_figure (strokes : List (Stroke α)) :
    strokes.flatMap smoothing.figure =
      (strokes.filter Stroke.isDrawable).flatMap smoothing.figure := by
  induction strokes with
  | nil => rfl
  | cons stroke strokes ih =>
    cases h : stroke.isDrawable with
    | true => simp [h, ih]
    | false =>
      have hnil : smoothing.figure stroke = [] := by
        rcases stroke.empty_or_fault_or_drawable with hempty | ⟨fault, hfault⟩ | hdrawable
        · exact smoothing.figure_of_nil hempty
        · exact smoothing.figure_of_fault hfault
        · rw [hdrawable] at h
          contradiction
      simp [h, ih, hnil]

/-- The warnings about a stroke name its fault. -/
theorem filter_told (stroke : Stroke α) :
    (smoothing.told stroke).filter (·.level = .warn) =
      (stroke.fault?.map Notice.skipped).toList := by
  rcases stroke.empty_or_fault_or_drawable with hempty | ⟨fault, hfault⟩ | hdrawable
  · simp [told, smoothing.draw_of_nil hempty, Stroke.fault?_of_nil hempty]
  · simp [told, smoothing.draw_of_fault hfault, hfault, Notice.level]
  · obtain ⟨cs, ns, -, hns, hdraw⟩ := smoothing.draw_figure hdrawable
    have hfault := Stroke.fault?_eq_none_iff.mpr (Stroke.isDrawable_iff.mp hdrawable).2
    simpa [told, hdraw, hfault] using hns

theorem warnings_smooth (ink : Ink α) : (smoothing.smooth ink).warnings =
    (ink.strokes.filterMap Stroke.fault?).map Notice.skipped := by
  rw [smooth_eq, Canvas.warnings, Canvas.toList_notices_of, List.filter_flatMap,
    List.map_filterMap, List.filterMap_eq_flatMap_toList]
  congr 1
  funext stroke
  exact smoothing.filter_told stroke

/-- Each stroke is drawn, has no points or has a fault. -/
theorem count_strokes (strokes : List (Stroke α)) :
    (strokes.flatMap smoothing.figure).countP Command.isStroke + strokes.countP (·.isEmpty) +
      (strokes.filterMap Stroke.fault?).length = strokes.length := by
  induction strokes with
  | nil => rfl
  | cons stroke strokes ih =>
    rw [List.flatMap_cons, List.countP_append, List.countP_cons, List.filterMap_cons,
      List.length_cons]
    rcases stroke.empty_or_fault_or_drawable with hempty | ⟨fault, hfault⟩ | hdrawable
    · have hisEmpty : stroke.isEmpty = true := List.isEmpty_iff.mpr hempty
      rw [smoothing.figure_of_nil hempty, Stroke.fault?_of_nil hempty, if_pos hisEmpty,
        List.countP_nil]
      dsimp only
      omega
    · rw [smoothing.figure_of_fault hfault, hfault, Stroke.isEmpty_of_fault hfault,
        if_neg (by decide), List.countP_nil]
      dsimp only
      rw [List.length_cons]
      omega
    · obtain ⟨hne, hf⟩ := Stroke.isDrawable_iff.mp hdrawable
      have hempty : ¬ stroke.isEmpty := by simpa [Stroke.isEmpty] using hne
      rw [(smoothing.figure_of_isDrawable hdrawable).countP_isStroke,
        Stroke.fault?_eq_none_iff.mpr hf, if_neg hempty]
      dsimp only
      omega

/-- A drawing is smoothed to one figure for each stroke that can be drawn, in order; each other
stroke is empty or warned of, by the index of its first point that is not finite. -/
theorem smooth_figures (ink : Ink α) :
    (∃ figures,
      List.Forall₂
        (fun stroke => Figure (smoothing.lineCount stroke) (smoothing.curveCount stroke))
        (ink.strokes.filter Stroke.isDrawable) figures ∧
      (smoothing.smooth ink).path.toList = figures.flatten) ∧
    (smoothing.smooth ink).path.figureCount + ink.strokes.countP (·.isEmpty) +
      (smoothing.smooth ink).warnings.length = ink.size ∧
    (smoothing.smooth ink).warnings =
      (ink.strokes.filterMap fun stroke => stroke.points.findIdx? (!·.isFinite)).map
        fun index => .skipped (.notFinite index) := by
  refine ⟨⟨(ink.strokes.filter Stroke.isDrawable).map smoothing.figure, ?_, ?_⟩, ?_, ?_⟩
  · rw [List.forall₂_map_right_iff, List.forall₂_same]
    intro stroke hstroke
    exact smoothing.figure_of_isDrawable (List.mem_filter.mp hstroke).2
  · rw [smooth_eq, Canvas.toList_path_of, flatMap_figure]
    rfl
  · rw [warnings_smooth, List.length_map, Path.figureCount_eq, smooth_eq]
    exact smoothing.count_strokes ink.strokes
  · rw [warnings_smooth]
    unfold Stroke.fault?
    rw [← List.map_filterMap, List.map_map]
    rfl

end Smoothing

end PenStroke
