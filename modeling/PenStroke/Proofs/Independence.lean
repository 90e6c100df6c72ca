import PenStroke.Proofs.SmoothedInk

/-! Strokes are drawn independently of each other: what one of them adds, and what is told about
it, depends neither on the path before it nor on the other strokes. -/
namespace PenStroke

variable {α : Type}

theorem Bezier.toList_foldl_push (path : Path α) (bs : List (Bezier α)) :
    (bs.foldl (fun path b => path.push b.command) path).toList =
      path.toList ++ bs.map Bezier.command := by
  induction bs generalizing path with
  | nil => simp
  | cons b bs ih =>
    rw [List.foldl_cons, ih, Path.toList_push, List.map_cons, List.append_assoc]
    rfl

variable [Scalar α]

/-- A curve drawn on a path is drawn after it. -/
theorem PlaneSpline.drawOn_eq (curve : PlaneSpline α) (path : Path α) :
    curve.drawOn path = path ++ curve.drawOn {} := by
  apply Path.ext_toList
  unfold drawOn
  cases curve.beziers with
  | nil => simp
  | cons b rest => simp [Bezier.toList_foldl_push]

variable [Hypotenuse α]

namespace Smoothing
variable (smoothing : Smoothing α)

theorem path_smooth_filter (ink : Ink α) :
    (smoothing.smooth ⟨ink.strokes.filter Stroke.isDrawable⟩).path =
      (smoothing.smooth ink).path := by
  apply Path.ext_toList
  rw [smooth_eq, smooth_eq, Canvas.toList_path_of, Canvas.toList_path_of,
    flatMap_figure, flatMap_figure _ ink.strokes, List.filter_filter]
  simp

/-- Strokes are drawn one after the other, each as on an empty canvas. So drawings can be joined
before or after they are smoothed, and strokes that cannot be drawn can be left out. -/
theorem smooth_independent :
    (∀ canvas stroke, smoothing.draw canvas stroke = canvas ++ smoothing.draw {} stroke) ∧
    (∀ first second : Ink α, smoothing.smooth ⟨first.strokes ++ second.strokes⟩ =
      smoothing.smooth first ++ smoothing.smooth second) ∧
    (∀ ink : Ink α, (smoothing.smooth ⟨ink.strokes.filter Stroke.isDrawable⟩).path =
      (smoothing.smooth ink).path) ∧
    ∀ (curve : PlaneSpline α) path, curve.drawOn path = path ++ curve.drawOn {} := by
  refine ⟨fun canvas stroke => ?_, fun first second => ?_, smoothing.path_smooth_filter,
    fun curve path => curve.drawOn_eq path⟩
  · rw [draw_eq, smoothing.draw_eq {} stroke, Canvas.empty_append]
  · rw [smooth_eq, List.flatMap_append, List.flatMap_append, smooth_eq, smooth_eq]
    apply Canvas.ext_toList <;> simp

end Smoothing

end PenStroke
