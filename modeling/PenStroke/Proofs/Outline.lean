import PenStroke.Proofs.Sampling
import PenStroke.Smoothing.Basic

/-! Figures: a move, lines and curves, and a stroke. Every smoother adds one figure for a stroke
that can be drawn, whatever is on the canvas. -/
namespace PenStroke

variable {α : Type}

/-- Commands that draw that many lines and curves, and nothing else. -/
inductive Outline : Nat → Nat → List (Command α) → Prop where
  | nil : Outline 0 0 []
  | line (p : Point α) {l c : Nat} {cs : List (Command α)} (h : Outline l c cs) :
      Outline (l + 1) c (.lineTo p :: cs)
  | curve (p q r : Point α) {l c : Nat} {cs : List (Command α)} (h : Outline l c cs) :
      Outline l (c + 1) (.curveTo p q r :: cs)

namespace Outline
variable {l c l' c' : Nat} {cs ds : List (Command α)}

theorem append (h : Outline l c cs) (h' : Outline l' c' ds) :
    Outline (l + l') (c + c') (cs ++ ds) := by
  induction h with
  | nil => simpa using h'
  | line p _ ih =>
    rw [Nat.add_right_comm]
    exact ih.line p
  | curve p q r _ ih =>
    rw [Nat.add_right_comm]
    exact ih.curve p q r

theorem map_lineTo (ps : List (Point α)) : Outline ps.length 0 (ps.map .lineTo) := by
  induction ps with
  | nil => exact .nil
  | cons p ps ih => exact ih.line p

theorem countP_isStroke (h : Outline l c cs) : cs.countP Command.isStroke = 0 := by
  induction h with
  | nil => rfl
  | line p _ ih => simp [ih, Command.isStroke]
  | curve p q r _ ih => simp [ih, Command.isStroke]

end Outline

/-- One figure with that many lines and curves, at least one. -/
inductive Figure (lines curves : Nat) : List (Command α) → Prop where
  | mk (start : Point α) {outline : List (Command α)} (h : Outline lines curves outline)
      (hpos : 0 < lines + curves) :
      Figure lines curves (.moveTo start :: outline ++ [.stroke])

theorem Figure.countP_isStroke {lines curves : Nat} {cs : List (Command α)}
    (h : Figure lines curves cs) : cs.countP Command.isStroke = 1 := by
  obtain ⟨start, h, -⟩ := h
  simp [List.countP_append, h.countP_isStroke, Command.isStroke]

namespace Polyline

theorem foldl_lineTo (canvas : Canvas α) (ps : List (Point α)) :
    ps.foldl Canvas.lineTo canvas = canvas ++ .of (ps.map .lineTo) [] := by
  induction ps generalizing canvas with
  | nil => simp
  | cons p ps ih =>
    rw [List.foldl_cons, ih, Canvas.lineTo_eq, Canvas.append_of_append_of]
    rfl

theorem draw_of_finite [Scalar α] {stroke : Stroke α} (h : ∀ p ∈ stroke.points, p.isFinite)
    (canvas : Canvas α) : draw canvas stroke = drawPoints canvas stroke.points := by
  rw [draw, Stroke.fault?_eq_none_iff.mpr h]

theorem drawPoints_figure (p : Point α) (rest : List (Point α)) :
    ∃ cs, Figure (max 1 rest.length) 0 cs ∧
      ∀ canvas, drawPoints canvas (p :: rest) = canvas ++ .of cs [] := by
  match rest with
  | [] =>
    refine ⟨_, .mk p (Outline.map_lineTo [p]) Nat.one_pos, fun canvas => ?_⟩
    simp [drawPoints]
  | q :: rest =>
    have hmax : max 1 (q :: rest).length = (q :: rest).length := by simp
    rw [hmax]
    refine ⟨_, .mk p (Outline.map_lineTo (q :: rest)) (by simp), fun canvas => ?_⟩
    rw [drawPoints, foldl_lineTo]
    · simp
    · simp

end Polyline

section Curved

/-- The curves to each knot and to `finish`. -/
def arcs (leaving finish : Point α) : List (Point α × Handles α) → List (Command α)
  | [] => []
  | [(p, h)] => [.curveTo leaving h.incoming p, .curveTo p h.outgoing finish]
  | (p, h) :: next :: rest =>
    .curveTo leaving h.incoming p :: arcs h.outgoing finish (next :: rest)

theorem drawArcs_eq (canvas : Canvas α) (leaving finish : Point α)
    (knots : List (Point α × Handles α)) :
    drawArcs canvas leaving finish knots = canvas ++ .of (arcs leaving finish knots) [] := by
  induction knots generalizing canvas leaving with
  | nil => simp [drawArcs, arcs]
  | cons knot rest ih =>
    cases rest with
    | nil => simp [drawArcs, arcs]
    | cons next rest => simp [drawArcs, arcs, ih]

theorem outline_arcs (leaving finish : Point α) {knots : List (Point α × Handles α)}
    (h : knots ≠ []) : Outline 0 (knots.length + 1) (arcs leaving finish knots) := by
  induction knots generalizing leaving with
  | nil => exact absurd rfl h
  | cons knot rest ih =>
    cases rest with
    | nil => exact .curve _ _ _ (.curve _ _ _ .nil)
    | cons next rest => exact (ih knot.2.outgoing (by simp)).curve _ _ _

variable [Scalar α] [Hypotenuse α]

theorem length_handles (tightness : α) (points : List (Point α)) :
    (handles tightness points).length = points.length - 2 := by
  match points with
  | [] | [_] | [_, _] => rfl
  | a :: b :: c :: rest =>
    have ih := length_handles tightness (b :: c :: rest)
    rw [handles, List.length_cons, ih]
    simp

theorem CurveOptions.draw_of_finite (options : CurveOptions α) {stroke : Stroke α}
    (h : ∀ p ∈ stroke.points, p.isFinite) (canvas : Canvas α) :
    options.draw canvas stroke = options.drawPoints canvas stroke.points := by
  rw [draw, Stroke.fault?_eq_none_iff.mpr h]

/-- Without knots between its ends a stroke is drawn by a line. -/
theorem CurveOptions.drawPoints_of_no_knots (options : CurveOptions α) (p : Point α)
    {rest : List (Point α)} (h : rest.zip (handles options.tightness (p :: rest)) = [])
    (canvas : Canvas α) : options.drawPoints canvas (p :: rest) = canvas ++
      .of (.moveTo p :: [.lineTo (rest.getLastD p)] ++ [.stroke]) [] := by
  simp [drawPoints, h]

/-- With knots between its ends a stroke is drawn by curves, one to each knot and
one to the end. -/
theorem CurveOptions.drawPoints_of_knots (options : CurveOptions α) (p : Point α)
    {rest : List (Point α)} (h : rest.zip (handles options.tightness (p :: rest)) ≠ [])
    (canvas : Canvas α) : options.drawPoints canvas (p :: rest) = canvas ++
      .of (.moveTo p ::
        arcs p (rest.getLastD p) (rest.zip (handles options.tightness (p :: rest))) ++
        [.stroke]) [] := by
  simp [drawPoints, drawArcs_eq]

theorem CurveOptions.drawPoints_figure (options : CurveOptions α) (p : Point α)
    (rest : List (Point α)) :
    ∃ cs,
      Figure (if rest.length ≤ 1 then 1 else 0) (if rest.length ≤ 1 then 0 else rest.length) cs ∧
      ∀ canvas, options.drawPoints canvas (p :: rest) = canvas ++ .of cs [] := by
  have hknots : (rest.zip (handles options.tightness (p :: rest))).length = rest.length - 1 := by
    rw [List.length_zip, length_handles, List.length_cons]
    omega
  by_cases hshort : rest.length ≤ 1
  · have hnil : rest.zip (handles options.tightness (p :: rest)) = [] := by
      apply List.length_eq_zero_iff.mp
      omega
    rw [if_pos hshort, if_pos hshort]
    exact ⟨_, .mk p (Outline.map_lineTo [rest.getLastD p]) (by decide),
      options.drawPoints_of_no_knots p hnil⟩
  · have hcons : rest.zip (handles options.tightness (p :: rest)) ≠ [] := by
      intro hnil
      rw [hnil, List.length_nil] at hknots
      omega
    rw [if_neg hshort, if_neg hshort]
    have houtline := outline_arcs p (rest.getLastD p) hcons
    rw [hknots, Nat.sub_add_cancel (by omega)] at houtline
    exact ⟨_, .mk p houtline (by omega), options.drawPoints_of_knots p hcons⟩

end Curved

end PenStroke
