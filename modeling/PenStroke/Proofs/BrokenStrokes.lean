import PenStroke.Proofs.DoubleArithmetic
import PenStroke.Proofs.SmoothedInk

/-! Broken strokes, those with a point that is not finite. Whoever lends a canvas to draw one on
gets it back as it was, and the fault names the first such point. -/
namespace PenStroke

section Scenes

/-- What is lent to be drawn on: a canvas, and the events that were seen so far. -/
structure Scene (α : Type) where
  canvas : Canvas α
  events : Array (SamplingEvent α) := #[]

variable {α : Type}

theorem Canvas.warnings_append_of (canvas : Canvas α) (cs : List (Command α))
    (ns : List (Notice α)) :
    (canvas ++ .of cs ns).warnings = canvas.warnings ++ ns.filter (·.level = .warn) := by
  simp [warnings]

variable [Scalar α] [Hypotenuse α]

namespace SamplingOptions
variable (options : SamplingOptions α)

/-- Draws a stroke on the scene itself, command after command. -/
def drawInPlace (stroke : Stroke α) : Attempt (Scene α) Unit := do
  stroke.check
  match stroke.points with
  | [] => pure ()
  | [p] => modify fun scene =>
    { scene with canvas := (((scene.canvas.note (.dot p)).moveTo p).lineTo p).stroke }
  | points =>
    match PlaneSpline.through? points with
    | none => pure ()
    | some curve => modify fun scene =>
      let pen : SamplingPen α := { canvas := scene.canvas, events := scene.events }
      let pen := pen.run options curve 0 (parameters options.samples)
      ⟨pen.canvas.stroke, pen.events⟩

variable {stroke : Stroke α}

/-- A fault is found before anything is drawn. -/
theorem drawInPlace_of_fault {fault : Fault} (h : stroke.fault? = some fault) (scene : Scene α) :
    (options.drawInPlace stroke).run.run scene = (.error fault, scene) := by
  rw [drawInPlace, Stroke.check_eq_error h]
  rfl

/-- A curve is drawn leg by leg, and its events come after those of before. -/
theorem drawInPlace_of_curve (hn : 2 ≤ stroke.points.length)
    (hf : ∀ p ∈ stroke.points, p.isFinite) {curve : PlaneSpline α}
    (hc : PlaneSpline.through? stroke.points = some curve) (scene : Scene α) :
    (options.drawInPlace stroke).run.run scene = (.ok (),
      ⟨scene.canvas ++ .of ((options.legs curve).flatMap Leg.commands ++ [.stroke])
          ((options.legs curve).flatMap Leg.notices),
        scene.events ++ ((options.legs curve).flatMap Leg.events).toArray⟩) := by
  obtain ⟨p, q, rest, hp⟩ := exists_cons_cons hn
  obtain ⟨hcanvas, hevents⟩ := options.run_legs curve scene.canvas scene.events
  rw [hp] at hc
  rw [drawInPlace, Stroke.check_eq_ok hf, hp]
  simp only [hc]
  change (Except.ok (), Scene.mk _ _) = _
  rw [hcanvas, hevents, Canvas.stroke_eq, Canvas.append_of_append_of, List.append_nil]

/-- Without a fault, drawing in place leaves what is returned otherwise, after
the events of before. -/
theorem drawInPlace_of_finite (hf : ∀ p ∈ stroke.points, p.isFinite) (scene : Scene α) :
    ∃ drawn events, options.drawRecorded scene.canvas stroke = .ok (drawn, events) ∧
      (options.drawInPlace stroke).run.run scene = (.ok (), ⟨drawn, scene.events ++ events⟩) := by
  have hcheck := Stroke.check_eq_ok hf
  rcases hp : stroke.points with _ | ⟨p, _ | ⟨q, rest⟩⟩ -- as the drawing splits them
  · refine ⟨_, _, options.drawRecorded_nil hp scene.canvas, ?_⟩
    rw [drawInPlace, hcheck, hp, Array.append_empty]
    rfl
  · refine ⟨_, _, options.drawRecorded_single hp hf scene.canvas, ?_⟩
    rw [drawInPlace, hcheck, hp, Array.append_empty]
    simp
    rfl
  · have hn : 2 ≤ stroke.points.length := by simp [hp]
    obtain ⟨curve, hcurve⟩ := PlaneSpline.through?_isSome hn hf
    exact ⟨_, _, options.drawRecorded_eq hn hf hcurve scene.canvas,
      options.drawInPlace_of_curve hn hf hcurve scene⟩

/-- Draws a stroke in place; the fault of one that is not finite is noted on what is left. -/
def drawNoting (canvas : Canvas α) (stroke : Stroke α) : Canvas α :=
  let (result, scene) := (options.drawInPlace stroke).run.run ⟨canvas, #[]⟩
  match result with
  | .ok _ => scene.canvas
  | .error fault => scene.canvas.note (.skipped fault)

theorem drawNoting_eq (canvas : Canvas α) (stroke : Stroke α) :
    options.drawNoting canvas stroke = options.draw canvas stroke := by
  cases h : stroke.fault? with
  | some fault =>
    rw [drawNoting, options.drawInPlace_of_fault h, options.draw_of_fault h]
    exact Canvas.note_eq ..
  | none =>
    obtain ⟨drawn, events, hdrawn, hscene⟩ :=
      options.drawInPlace_of_finite (Stroke.fault?_eq_none_iff.mp h) ⟨canvas, #[]⟩
    rw [drawNoting, hscene, options.draw_of_ok hdrawn]

end SamplingOptions

/-- What a smoother warns of is the fault of the stroke. -/
theorem Smoothing.warnings_draw (smoothing : Smoothing α) (canvas : Canvas α) (stroke : Stroke α) :
    (smoothing.draw canvas stroke).warnings =
      canvas.warnings ++ (stroke.fault?.map Notice.skipped).toList := by
  rw [smoothing.draw_eq, Canvas.warnings_append_of, smoothing.filter_told]

end Scenes

section Doubles

open Float.Model

theorem Binary64.isFinite_eq_false_iff {x : Float} :
    x.isFinite = false ↔ x.isNaN = true ∨ x.isInf = true := by
  change (parts x).isFinite = false ↔ (parts x).isNaN = true ∨ (parts x).isInf = true
  cases parts x <;> simp [UnpackedFloat.isFinite, UnpackedFloat.isNaN, UnpackedFloat.isInf]

/-- A point with an undefined or infinite coordinate. -/
def Point.IsBroken (p : Point Float) : Prop :=
  ∃ axis, (p.coord axis).isNaN ∨ (p.coord axis).isInf

theorem Point.isBroken_iff {p : Point Float} : p.IsBroken ↔ p.isFinite = false := by
  have hfinite : p.isFinite = (p.x.isFinite && p.y.isFinite) := rfl
  rw [hfinite, Bool.and_eq_false_iff, Binary64.isFinite_eq_false_iff,
    Binary64.isFinite_eq_false_iff]
  constructor
  · rintro ⟨axis, h⟩
    cases axis with
    | horizontal => exact .inl h
    | vertical => exact .inr h
  · rintro (h | h)
    · exact ⟨.horizontal, h⟩
    · exact ⟨.vertical, h⟩

theorem Point.isFinite_iff {p : Point Float} : p.isFinite = true ↔ ¬ p.IsBroken := by
  rw [isBroken_iff, Bool.not_eq_false]

namespace Stroke
variable {stroke : Stroke Float}

/-- The first broken point of a stroke is the one at that index. -/
structure BreaksAt (stroke : Stroke Float) (index : ℕ) : Prop where
  broken : ∃ p, stroke.points[index]? = some p ∧ p.IsBroken
  first : ∀ k < index, ∀ p, stroke.points[k]? = some p → ¬ p.IsBroken

theorem breaksAt_iff {index : ℕ} :
    stroke.BreaksAt index ↔ stroke.fault? = some (.notFinite index) := by
  simp only [fault?, Option.map_eq_some_iff, Fault.notFinite.injEq, exists_eq_right,
    List.findIdx?_eq_some_iff_getElem, Bool.not_eq_true', ← Point.isBroken_iff]
  constructor
  · rintro ⟨⟨p, hp, hbroken⟩, hfirst⟩
    obtain ⟨hindex, rfl⟩ := List.getElem?_eq_some_iff.mp hp
    exact ⟨hindex, hbroken, fun k hk => hfirst k hk _ (List.getElem?_eq_getElem _)⟩
  · rintro ⟨hindex, hbroken, hfirst⟩
    refine ⟨⟨_, List.getElem?_eq_getElem hindex, hbroken⟩, fun k hk p hp => ?_⟩
    obtain ⟨-, rfl⟩ := List.getElem?_eq_some_iff.mp hp
    exact hfirst k hk

theorem fault?_eq_none_iff_not_broken :
    stroke.fault? = none ↔ ∀ p ∈ stroke.points, ¬ p.IsBroken := by
  simp only [fault?_eq_none_iff, Point.isFinite_iff]

/-- A stroke with a broken point has a first one. -/
theorem exists_breaksAt (h : ∃ p ∈ stroke.points, p.IsBroken) :
    ∃ index, stroke.BreaksAt index := by
  have hfault : stroke.fault? ≠ none := by
    rw [Ne, fault?_eq_none_iff_not_broken]
    push Not
    exact h
  obtain ⟨fault, hfault⟩ := Option.ne_none_iff_exists'.mp hfault
  obtain ⟨index, -, rfl⟩ := Option.map_eq_some_iff.mp hfault
  exact ⟨index, breaksAt_iff.mpr hfault⟩

end Stroke

variable {stroke : Stroke Float}

/-- What sampling does with a stroke on a scene. One that is not broken is drawn; for a broken one
there is a fault that names the first broken point, and the scene is what it was. -/
structure SamplingOptions.DrawsWhole (options : SamplingOptions Float) (stroke : Stroke Float)
    (scene : Scene Float) : Prop where
  fails : (∃ fault, ((options.drawInPlace stroke).run.run scene).1 = .error fault) ↔
    ∃ p ∈ stroke.points, p.IsBroken
  broken : ∀ index, stroke.BreaksAt index →
    options.drawRecorded scene.canvas stroke = .error (.notFinite index) ∧
    options.drawChecked scene.canvas stroke = .error (.notFinite index) ∧
    (options.drawInPlace stroke).run.run scene = (.error (.notFinite index), scene)
  drawn : (∀ p ∈ stroke.points, ¬ p.IsBroken) → ∃ canvas events,
    options.drawRecorded scene.canvas stroke = .ok (canvas, events) ∧
    options.drawChecked scene.canvas stroke = .ok canvas ∧
    (options.drawInPlace stroke).run.run scene = (.ok (), ⟨canvas, scene.events ++ events⟩)

theorem SamplingOptions.drawsWhole (options : SamplingOptions Float) (stroke : Stroke Float)
    (scene : Scene Float) : options.DrawsWhole stroke scene := by
  have hbroken (index : ℕ) (h : stroke.BreaksAt index) :
      (options.drawInPlace stroke).run.run scene = (.error (.notFinite index), scene) :=
    options.drawInPlace_of_fault (Stroke.breaksAt_iff.mp h) scene
  have hdrawn (h : ∀ p ∈ stroke.points, ¬ p.IsBroken) :=
    options.drawInPlace_of_finite (fun p hp => Point.isFinite_iff.mpr (h p hp)) scene
  constructor
  case fails =>
    constructor
    · rintro ⟨fault, hfault⟩
      by_contra hnone
      push Not at hnone
      obtain ⟨canvas, events, -, hscene⟩ := hdrawn hnone
      simp [hscene] at hfault
    · intro h
      obtain ⟨index, hindex⟩ := Stroke.exists_breaksAt h
      exact ⟨_, congrArg Prod.fst (hbroken index hindex)⟩
  case broken =>
    intro index h
    have hrecorded := options.drawRecorded_of_fault (Stroke.breaksAt_iff.mp h) scene.canvas
    exact ⟨hrecorded, congrArg (Except.map Prod.fst) hrecorded, hbroken index h⟩
  case drawn =>
    intro h
    obtain ⟨canvas, events, hrecorded, hscene⟩ := hdrawn h
    exact ⟨canvas, events, hrecorded, congrArg (Except.map Prod.fst) hrecorded, hscene⟩

/-- What a smoother does with a stroke. For a broken one it gives one warning, which carries the
fault, and draws nothing; for any other it does not warn. -/
structure Smoothing.SkipsBroken (smoothing : Smoothing Float) (stroke : Stroke Float)
    (canvas : Canvas Float) : Prop where
  broken : ∀ index, stroke.BreaksAt index →
    (smoothing.draw canvas stroke).path = canvas.path ∧
    (smoothing.draw canvas stroke).notices = canvas.notices.push (.skipped (.notFinite index)) ∧
    (smoothing.draw canvas stroke).warnings = canvas.warnings ++ [.skipped (.notFinite index)]
  silent : (∀ p ∈ stroke.points, ¬ p.IsBroken) →
    (smoothing.draw canvas stroke).warnings = canvas.warnings

theorem Smoothing.skipsBroken (smoothing : Smoothing Float) (stroke : Stroke Float)
    (canvas : Canvas Float) : smoothing.SkipsBroken stroke canvas := by
  constructor
  case broken =>
    intro index h
    have hfault := Stroke.breaksAt_iff.mp h
    have hdraw : smoothing.draw canvas stroke = canvas.note (.skipped (.notFinite index)) := by
      rw [smoothing.draw_of_fault hfault, Canvas.note_eq]
    refine ⟨by rw [hdraw, Canvas.note], by rw [hdraw, Canvas.note], ?_⟩
    rw [smoothing.warnings_draw, hfault]
    rfl
  case silent =>
    intro h
    rw [smoothing.warnings_draw, Stroke.fault?_eq_none_iff_not_broken.mpr h]
    exact List.append_nil _

/-- A stroke is drawn whole or, if it is broken, not at all, by every way to draw it. A stroke of
two points or more that is not broken always has a curve to be drawn along. -/
theorem drawn_whole_or_not_at_all (stroke : Stroke Float) :
    ((∃ p ∈ stroke.points, p.IsBroken) → ∃ index, stroke.BreaksAt index) ∧
    (∀ options scene, SamplingOptions.DrawsWhole options stroke scene) ∧
    (∀ options canvas, SamplingOptions.drawNoting options canvas stroke =
      (Smoothing.spline options).draw canvas stroke) ∧
    (∀ smoothing canvas, Smoothing.SkipsBroken smoothing stroke canvas) ∧
    (2 ≤ stroke.points.length → (∀ p ∈ stroke.points, ¬ p.IsBroken) →
      ∃ curve, PlaneSpline.through? stroke.points = some curve) := by
  refine ⟨Stroke.exists_breaksAt, fun options scene => options.drawsWhole stroke scene,
    fun options canvas => options.drawNoting_eq canvas stroke,
    fun smoothing canvas => smoothing.skipsBroken stroke canvas, fun hn h => ?_⟩
  exact PlaneSpline.through?_isSome hn fun p hp => Point.isFinite_iff.mpr (h p hp)

/-- A stroke whose second point is undefined and whose third is infinite, and a straight one. -/
theorem drawn_whole_or_not_at_all_undefined :
    let broken : Stroke Float := ⟨[⟨0, 0⟩, ⟨1, 0 / 0⟩, ⟨1 / 0, 0⟩]⟩
    broken.BreaksAt 1 ∧
    (∀ (options : SamplingOptions Float) (scene : Scene Float),
      (options.drawInPlace broken).run.run scene = (.error (.notFinite 1), scene)) ∧
    (∀ (smoothing : Smoothing Float) (canvas : Canvas Float),
      (smoothing.draw canvas broken).path = canvas.path ∧
      (smoothing.draw canvas broken).warnings = canvas.warnings ++ [.skipped (.notFinite 1)]) ∧
    ∃ curve : PlaneSpline Float, PlaneSpline.through? [⟨0, 0⟩, ⟨3, 1⟩] = some curve := by
  intro broken
  have hbreaks : broken.BreaksAt 1 := Stroke.breaksAt_iff.mpr (by decide +kernel)
  obtain ⟨-, hdraws, -, hskips, -⟩ := drawn_whole_or_not_at_all broken
  refine ⟨hbreaks, fun options scene => ((hdraws options scene).broken 1 hbreaks).2.2,
    fun smoothing canvas => ?_, ?_⟩
  · obtain ⟨hpath, -, hwarnings⟩ := (hskips smoothing canvas).broken 1 hbreaks
    exact ⟨hpath, hwarnings⟩
  · obtain ⟨-, -, -, -, hcurve⟩ := drawn_whole_or_not_at_all ⟨[⟨0, 0⟩, ⟨3, 1⟩]⟩
    have hfinite : ∀ p ∈ ([⟨0, 0⟩, ⟨3, 1⟩] : List (Point Float)), p.isFinite := by decide +kernel
    exact hcurve (by decide) fun p hp => Point.isFinite_iff.mp (hfinite p hp)

end Doubles

end PenStroke
