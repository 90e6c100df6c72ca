import PenStroke.Proofs.AxisSymmetries
import PenStroke.Proofs.KnotTangents

/-! Control points know neither direction, place, scale nor side. Those of the reversed points are
the same, and those of points moved by a similarity move along. -/
namespace PenStroke

section Lists
variable {α : Type}

/-- The control points of a knot passed the other way. -/
def Handles.swap (h : Handles α) : Handles α := ⟨h.outgoing, h.incoming⟩

def Handles.mapPoints (g : Point α → Point α) (h : Handles α) : Handles α :=
  ⟨g h.incoming, g h.outgoing⟩

theorem arcs_mapPoints (g : Point α → Point α) (leaving finish : Point α)
    (knots : List (Point α × Handles α)) :
    arcs (g leaving) (g finish) (knots.map (Prod.map g (Handles.mapPoints g))) =
      (arcs leaving finish knots).map (Command.mapPoints g) := by
  induction knots generalizing leaving with
  | nil => rfl
  | cons knot rest ih =>
    cases rest with
    | nil => rfl
    | cons next rest => exact congrArg (List.cons _) (ih knot.2.outgoing)

variable [Scalar α] [Hypotenuse α] {tightness : α}

/-- Points elsewhere do not matter to a knot. -/
theorem getElem?_handles_congr {points others : List (Point α)} {i : ℕ}
    (h : ∀ j, i ≤ j → j ≤ i + 2 → points[j]? = others[j]?) :
    (handles tightness points)[i]? = (handles tightness others)[i]? := by
  rw [getElem?_handles, getElem?_handles, h i le_rfl (by omega), h (i + 1) (by omega) (by omega),
    h (i + 2) (by omega) le_rfl]

/-- Control points follow a map of the points if they do at each knot. -/
theorem handles_map {g : Point α → Point α}
    (h : ∀ a b c, Handles.ofKnot tightness (g a) (g b) (g c) =
      (Handles.ofKnot tightness a b c).mapPoints g) (points : List (Point α)) :
    handles tightness (points.map g) = (handles tightness points).map (Handles.mapPoints g) := by
  apply List.ext_getElem?
  intro i
  simp only [List.getElem?_map, getElem?_handles]
  cases points[i]? with
  | none => rfl
  | some a =>
    cases points[i + 1]? with
    | none => rfl
    | some b =>
      cases points[i + 2]? with
      | none => rfl
      | some c => exact congrArg some (h a b c)

/-- Reversed points have the same control points if each knot does. -/
theorem handles_reverse (h : ∀ a b c : Point α, Handles.ofKnot tightness c b a =
    (Handles.ofKnot tightness a b c).swap) (points : List (Point α)) :
    handles tightness points.reverse = ((handles tightness points).map Handles.swap).reverse := by
  have hlength := length_handles tightness points
  apply List.ext_getElem?
  intro i
  by_cases hi : i + 2 < points.length
  · -- The knot has `i` knots on one side and `k` on the other.
    obtain ⟨k, hk⟩ : ∃ k, points.length = i + k + 3 := ⟨points.length - (i + 3), by omega⟩
    have hreverse (j l : ℕ) (hjl : j + l + 1 = points.length) :
        points.reverse[j]? = points[l]? := by
      rw [List.getElem?_reverse (by omega), show points.length - 1 - j = l by omega]
    have ha := List.getElem?_eq_getElem (show k < points.length by omega)
    have hb := List.getElem?_eq_getElem (show k + 1 < points.length by omega)
    have hc := List.getElem?_eq_getElem (show k + 2 < points.length by omega)
    have hback := handles_of_neighbours tightness ((hreverse i (k + 2) (by omega)).trans hc)
      ((hreverse (i + 1) (k + 1) (by omega)).trans hb) ((hreverse (i + 2) k (by omega)).trans ha)
    rw [hback, h, List.getElem?_reverse (by rw [List.length_map]; omega), List.length_map,
      show (handles tightness points).length - 1 - i = k by omega, List.getElem?_map,
      handles_of_neighbours tightness ha hb hc, Option.map_some]
  · rw [List.getElem?_eq_none (by rw [length_handles, List.length_reverse]; omega),
      List.getElem?_eq_none (by rw [List.length_reverse, List.length_map]; omega)]

theorem CurveOptions.drawPoints_mapPoints (options : CurveOptions α) {g : Point α → Point α}
    {points : List (Point α)} (h : handles options.tightness (points.map g) =
      (handles options.tightness points).map (Handles.mapPoints g)) (canvas : Canvas α) :
    options.drawPoints (canvas.mapPoints g) (points.map g) =
      (options.drawPoints canvas points).mapPoints g := by
  cases points with
  | nil => rfl
  | cons p rest =>
    have hzip : (rest.map g).zip (handles options.tightness (g p :: rest.map g)) =
        (rest.zip (handles options.tightness (p :: rest))).map
          (Prod.map g (Handles.mapPoints g)) := by
      rw [← List.map_cons, h, List.zip_map]
    have hfinish : (rest.map g).getLastD (g p) = g (rest.getLastD p) := by
      rw [List.getLastD_eq_getLast?, List.getLastD_eq_getLast?, List.getLast?_map, Option.getD_map]
    rw [List.map_cons]
    by_cases hknots : rest.zip (handles options.tightness (p :: rest)) = []
    · rw [hknots] at hzip
      rw [options.drawPoints_of_no_knots p hknots, options.drawPoints_of_no_knots _ hzip, hfinish,
        Canvas.mapPoints_append_of]
      rfl
    · have hknots' : (rest.map g).zip (handles options.tightness (g p :: rest.map g)) ≠ [] := by
        rw [hzip]
        simpa using hknots
      rw [options.drawPoints_of_knots p hknots, options.drawPoints_of_knots _ hknots', hzip,
        hfinish, arcs_mapPoints, Canvas.mapPoints_append_of]
      simp [Command.mapPoints]

end Lists

section Similarities
variable (tightness : ℝ) (a b c : Point ℝ)

theorem Handles.ofKnot_swap : ofKnot tightness c b a = (ofKnot tightness a b c).swap := by
  have hreach (v : Offset ℝ) : v.reach (a - c) tightness = v.reach (c - a) tightness := by
    rw [← Point.neg_sub_eq, Offset.reach, Offset.reach, Offset.dot_neg, abs_neg, Offset.length_neg]
  rw [ofKnot_eq, ofKnot_eq, hreach, hreach, ← Point.neg_sub_eq c a, Point.sub_smul_neg,
    Point.add_smul_neg]
  rfl

namespace PlaneMap

/-- The map that takes a point to its image under the matrix, scaled by `s` and moved by `b`. -/
def similarity (s : ℝ) (Q : Matrix (Fin 2) (Fin 2) ℝ) (b : Offset ℝ) : PlaneMap ℝ :=
  ⟨⟨s * Q 0 0, s * Q 0 1, b.x⟩, ⟨s * Q 1 0, s * Q 1 1, b.y⟩⟩

/-- A rotation or reflection keeps the dot product. -/
theorem dot_similarity {Q : Matrix (Fin 2) (Fin 2) ℝ} (hQ : Q ∈ Matrix.orthogonalGroup (Fin 2) ℝ)
    (s : ℝ) (b v w : Offset ℝ) :
    ((similarity s Q b).onOffset v).dot ((similarity s Q b).onOffset w) = s ^ 2 * v.dot w := by
  have hcolumns : Q.transpose * Q = 1 := (Matrix.mem_orthogonalGroup_iff' _ _).mp hQ
  have hx := congrFun (congrFun hcolumns 0) 0
  have hxy := congrFun (congrFun hcolumns 0) 1
  have hy := congrFun (congrFun hcolumns 1) 1
  rw [Matrix.mul_apply, Fin.sum_univ_two, Matrix.one_apply_eq] at hx hy
  rw [Matrix.mul_apply, Fin.sum_univ_two, Matrix.one_apply_ne zero_ne_one] at hxy
  simp only [Matrix.transpose_apply] at hx hxy hy
  simp only [similarity, onOffset, AffineForm.change, Offset.dot_eq]
  linear_combination s ^ 2 * v.x * w.x * hx + s ^ 2 * (v.x * w.y + v.y * w.x) * hxy +
    s ^ 2 * v.y * w.y * hy

variable (g : PlaneMap ℝ)

theorem onPoint_sub_smul (p : Point ℝ) (t : ℝ) (v : Offset ℝ) :
    g.onPoint (p - t • v) = g.onPoint p - t • g.onOffset v := by
  simp only [onPoint, onOffset, AffineForm.value, AffineForm.change, Offset.smul_eq,
    Point.sub_offset_eq, Point.mk.injEq]
  constructor <;> ring

theorem onPoint_add_smul (p : Point ℝ) (t : ℝ) (v : Offset ℝ) :
    g.onPoint (p + t • v) = g.onPoint p + t • g.onOffset v := by
  simp only [onPoint, onOffset, AffineForm.value, AffineForm.change, Offset.smul_eq,
    Point.add_offset_eq, Point.mk.injEq]
  constructor <;> ring

end PlaneMap

variable {s : ℝ} {Q : Matrix (Fin 2) (Fin 2) ℝ}

theorem Offset.reach_similarity (hs : 0 < s) (hQ : Q ∈ Matrix.orthogonalGroup (Fin 2) ℝ)
    (m v d : Offset ℝ) : ((PlaneMap.similarity s Q m).onOffset v).reach
      ((PlaneMap.similarity s Q m).onOffset d) tightness = v.reach d tightness := by
  have hscale : 0 < s ^ 2 := pow_pos hs 2
  have hlength : ((PlaneMap.similarity s Q m).onOffset d).lengthSq = s ^ 2 * d.lengthSq :=
    PlaneMap.dot_similarity hQ s m d d
  rw [reach, reach, length_sq, length_sq, hlength, PlaneMap.dot_similarity hQ, abs_mul,
    abs_of_pos hscale, mul_left_comm, mul_div_mul_left _ _ hscale.ne']

/-- The chord, and how far the control points lie along it, move along with the points. -/
theorem Handles.ofKnot_similarity (hs : 0 < s) (hQ : Q ∈ Matrix.orthogonalGroup (Fin 2) ℝ)
    (m : Offset ℝ) : ofKnot tightness ((PlaneMap.similarity s Q m).onPoint a)
      ((PlaneMap.similarity s Q m).onPoint b) ((PlaneMap.similarity s Q m).onPoint c) =
    (ofKnot tightness a b c).mapPoints (PlaneMap.similarity s Q m).onPoint := by
  rw [ofKnot_eq, ofKnot_eq, PlaneMap.onPoint_sub, PlaneMap.onPoint_sub, PlaneMap.onPoint_sub,
    Offset.reach_similarity tightness hs hQ, Offset.reach_similarity tightness hs hQ,
    ← PlaneMap.onPoint_sub_smul, ← PlaneMap.onPoint_add_smul]
  rfl

end Similarities

/-- The control points of reversed points are those of the points in reverse order,
incoming and outgoing exchanged. Under a rotation or reflection, a scaling and a
translation they move along, and so does all that is drawn. The control points of a knot
depend on the knot and its neighbours. -/
theorem handles_symmetric (tightness : ℝ) :
    (∀ points : List (Point ℝ), handles tightness points.reverse =
      ((handles tightness points).map Handles.swap).reverse) ∧
    (∀ (s : ℝ) (Q : Matrix (Fin 2) (Fin 2) ℝ) (m : Offset ℝ), 0 < s →
      Q ∈ Matrix.orthogonalGroup (Fin 2) ℝ →
      (∀ points, handles tightness (points.map (PlaneMap.similarity s Q m).onPoint) =
        (handles tightness points).map (Handles.mapPoints (PlaneMap.similarity s Q m).onPoint)) ∧
      ∀ canvas stroke, (⟨tightness⟩ : CurveOptions ℝ).draw
          (canvas.mapPoints (PlaneMap.similarity s Q m).onPoint)
          (stroke.mapPoints (PlaneMap.similarity s Q m).onPoint) =
        ((⟨tightness⟩ : CurveOptions ℝ).draw canvas stroke).mapPoints
          (PlaneMap.similarity s Q m).onPoint) ∧
    ∀ (points others : List (Point ℝ)) (i : ℕ),
      (∀ j, i ≤ j → j ≤ i + 2 → points[j]? = others[j]?) →
      (handles tightness points)[i]? = (handles tightness others)[i]? := by
  refine ⟨handles_reverse fun a b c => Handles.ofKnot_swap tightness a b c, ?_,
    fun points others i => getElem?_handles_congr⟩
  intro s Q m hs hQ
  have hknots := handles_map fun a b c => Handles.ofKnot_similarity tightness a b c hs hQ m
  refine ⟨hknots, fun canvas stroke => ?_⟩
  rw [CurveOptions.draw_of_finite _ fun _ _ => rfl, CurveOptions.draw_of_finite _ fun _ _ => rfl]
  exact CurveOptions.drawPoints_mapPoints ⟨tightness⟩ (hknots stroke.points) canvas

/-- A point of a corner turned about it to the left, at twice the size. -/
theorem handles_symmetric_turned :
    let points : List (Point ℝ) := [⟨0, 0⟩, ⟨10, 0⟩, ⟨10, 10⟩, ⟨0, 10⟩]
    let turn : Matrix (Fin 2) (Fin 2) ℝ := !![0, -1; 1, 0]
    (0 : ℝ) < 2 ∧ turn ∈ Matrix.orthogonalGroup (Fin 2) ℝ ∧
    handles (1 / 2) [⟨0, 10⟩, ⟨10, 10⟩, ⟨10, 0⟩, ⟨0, 0⟩] =
      ((handles (1 / 2) points).map Handles.swap).reverse ∧
    handles (1 / 2) (points.map (PlaneMap.similarity 2 turn ⟨3, -1⟩).onPoint) =
      (handles (1 / 2) points).map
        (Handles.mapPoints (PlaneMap.similarity 2 turn ⟨3, -1⟩).onPoint) ∧
    (∀ j, 0 ≤ j → j ≤ 0 + 2 → points[j]? = (points.set 3 ⟨7, 7⟩)[j]?) ∧
    (handles (1 / 2) points)[0]? = (handles (1 / 2) (points.set 3 ⟨7, 7⟩))[0]? := by
  intro points turn
  have hturn : turn ∈ Matrix.orthogonalGroup (Fin 2) ℝ := by
    have htranspose : turn.transpose = !![0, 1; -1, 0] := by
      ext i j
      fin_cases i <;> fin_cases j <;> rfl
    rw [Matrix.mem_orthogonalGroup_iff, htranspose, Matrix.mul_fin_two, Matrix.one_fin_two]
    norm_num
  have hagree : ∀ j, 0 ≤ j → j ≤ 0 + 2 → points[j]? = (points.set 3 ⟨7, 7⟩)[j]? := by
    intro j _ hj
    rw [List.getElem?_set_ne (by omega)]
  obtain ⟨hreverse, hsimilar, hlocal⟩ := handles_symmetric (1 / 2)
  exact ⟨two_pos, hturn, hreverse points, (hsimilar 2 turn ⟨3, -1⟩ two_pos hturn).1 points, hagree,
    hlocal points _ 0 hagree⟩

end PenStroke
