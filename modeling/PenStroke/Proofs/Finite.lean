import PenStroke.Ink.Stroke
import PenStroke.Spline.Plane

/-! Finite strokes: they have no fault, and with two points or more they have a spline. A stroke is
empty, has a fault or can be drawn. -/
namespace PenStroke

theorem exists_cons_cons {α : Type} {xs : List α} (h : 2 ≤ xs.length) :
    ∃ x y rest, xs = x :: y :: rest := by
  match xs, h with
  | x :: y :: rest, _ => exact ⟨x, y, rest, rfl⟩

variable {α : Type} [Scalar α]

namespace Stroke

theorem fault?_eq_none_iff {stroke : Stroke α} :
    stroke.fault? = none ↔ ∀ p ∈ stroke.points, p.isFinite := by
  simp [fault?, List.findIdx?_eq_none_iff]

theorem check_eq_ok {stroke : Stroke α} (h : ∀ p ∈ stroke.points, p.isFinite) :
    stroke.check = .ok () := by
  rw [check, fault?_eq_none_iff.mpr h]

theorem check_eq_error {stroke : Stroke α} {fault : Fault} (h : stroke.fault? = some fault) :
    stroke.check = .error fault := by
  rw [check, h]

/-- A stroke can be drawn if it has points and all of them are finite. -/
def isDrawable (stroke : Stroke α) : Bool :=
  !stroke.isEmpty && stroke.points.all (·.isFinite)

theorem isDrawable_iff {stroke : Stroke α} :
    stroke.isDrawable ↔ stroke.points ≠ [] ∧ ∀ p ∈ stroke.points, p.isFinite := by
  simp [isDrawable, isEmpty]

theorem fault?_of_nil {stroke : Stroke α} (h : stroke.points = []) :
    stroke.fault? = none := by
  rw [fault?, h]
  rfl

theorem isEmpty_of_fault {stroke : Stroke α} {fault : Fault}
    (h : stroke.fault? = some fault) : stroke.isEmpty = false := by
  cases hempty : stroke.isEmpty with
  | false => rfl
  | true =>
    rw [fault?_of_nil (List.isEmpty_iff.mp hempty)] at h
    contradiction

theorem empty_or_fault_or_drawable (stroke : Stroke α) :
    stroke.points = [] ∨ (∃ fault, stroke.fault? = some fault) ∨ stroke.isDrawable := by
  by_cases hne : stroke.points = []
  · exact .inl hne
  · cases hfault : stroke.fault? with
    | some fault => exact .inr (.inl ⟨fault, rfl⟩)
    | none => exact .inr (.inr (isDrawable_iff.mpr ⟨hne, fault?_eq_none_iff.mp hfault⟩))

end Stroke

theorem Spline.natural?_isSome {values : List α} (h : 2 ≤ values.length)
    (hf : ∀ v ∈ values, Scalar.isFinite v) : ∃ s, natural? values = some s := by
  have hc : ¬ (values.length < 2 || values.any (!Scalar.isFinite ·)) = true := by
    simp only [Bool.or_eq_true, decide_eq_true_eq, List.any_eq_true, not_or, not_exists, not_and]
    exact ⟨by omega, fun v hv => by simp [hf v hv]⟩
  refine ⟨⟨hermiteSegments values (backSubstitute (eliminate values))⟩, ?_⟩
  rw [natural?, knotSlopes?, if_neg hc, Option.map_some]

/-- The checks of points and of coordinates agree, so a finite stroke always has its spline. -/
theorem PlaneSpline.through?_isSome {points : List (Point α)} (h : 2 ≤ points.length)
    (hf : ∀ p ∈ points, p.isFinite) : ∃ curve, through? points = some curve := by
  have hcoord (axis : Axis) :
      ∀ v ∈ points.map (Point.coord · axis), Scalar.isFinite v := by
    intro v hv
    obtain ⟨p, hp, rfl⟩ := List.mem_map.mp hv
    have hfp := hf p hp
    rw [Point.isFinite, Bool.and_eq_true] at hfp
    cases axis with
    | horizontal => exact hfp.1
    | vertical => exact hfp.2
  obtain ⟨x, hx⟩ := Spline.natural?_isSome (by simpa using h) (hcoord .horizontal)
  obtain ⟨y, hy⟩ := Spline.natural?_isSome (by simpa using h) (hcoord .vertical)
  exact ⟨⟨x, y⟩, by simp [through?, hx, hy]⟩

end PenStroke
