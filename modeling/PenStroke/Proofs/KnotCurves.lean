import PenStroke.Proofs.BezierForm
import PenStroke.Proofs.FigureEnds

/-! Curves drawn through knots. A knot has the control points of three neighbouring points, and
each curve goes from one point to the next along the control points on its side of them. -/
namespace PenStroke

section Curves
variable {α : Type}

/-- Curve `k` of a figure goes from point `k` to the next. It leaves along the outgoing control
point of the knot before it and arrives along the incoming one of the knot after it. The first
curve and the last leave from where they start, and the last arrives along the outgoing control
point of the knot before it. -/
structure Bezier.JoinsKnots (points : List (Point α)) (hs : List (Handles α)) (k : ℕ)
    (b : Bezier α) : Prop where
  start : points[k]? = some b.start
  finish : points[k + 1]? = some b.finish
  leaves_start : k = 0 ∨ k + 2 = points.length → b.first = b.start
  leaves : k ≠ 0 → k + 2 ≠ points.length → hs[k - 1]?.map Handles.outgoing = some b.first
  arrives : k + 2 ≠ points.length → hs[k]?.map Handles.incoming = some b.second
  arrives_last : k + 2 = points.length → hs[k - 1]?.map Handles.outgoing = some b.second

/-- Curves that join points in order, each to the next. -/
structure CurvesThrough (points : List (Point α)) (hs : List (Handles α)) (bs : List (Bezier α)) :
    Prop where
  length : bs.length = points.length - 1
  joins : ∀ k < points.length - 1, ∃ b, bs[k]? = some b ∧ b.JoinsKnots points hs k

section Joined
variable {p q q' : Point α} {g h : Handles α} {rest : List (Point α)} {hs : List (Handles α)}
  {k : ℕ}

theorem joinsKnots_first (hq : rest[0]? = some q) (hh : hs[0]? = some h) (hn : 1 < rest.length) :
    Bezier.JoinsKnots (p :: rest) hs 0 ⟨p, p, h.incoming, q⟩ where
  start := rfl
  finish := hq
  leaves_start _ := rfl
  leaves hzero := absurd rfl hzero
  arrives _ := by rw [hh, Option.map_some]
  arrives_last hlast := by
    rw [List.length_cons] at hlast
    omega

theorem joinsKnots_inner (hq : rest[k]? = some q) (hq' : rest[k + 1]? = some q')
    (hg : hs[k]? = some g) (hh : hs[k + 1]? = some h) (hn : k + 2 < rest.length) :
    Bezier.JoinsKnots (p :: rest) hs (k + 1) ⟨q, g.outgoing, h.incoming, q'⟩ where
  start := hq
  finish := hq'
  leaves_start hend := by
    rw [List.length_cons] at hend
    omega
  leaves _ _ := by rw [Nat.add_sub_cancel, hg, Option.map_some]
  arrives _ := by rw [hh, Option.map_some]
  arrives_last hlast := by
    rw [List.length_cons] at hlast
    omega

theorem joinsKnots_last (hq : rest[k]? = some q) (hg : hs[k]? = some g)
    (hn : k + 2 = rest.length) :
    Bezier.JoinsKnots (p :: rest) hs (k + 1) ⟨q, q, g.outgoing, rest.getLastD p⟩ where
  start := hq
  finish := by
    rw [List.getElem?_cons_succ, List.getLastD_eq_getLast?, List.getLast?_eq_getElem?,
      show rest.length - 1 = k + 1 by omega,
      List.getElem?_eq_getElem (show k + 1 < rest.length by omega), Option.getD_some]
  leaves_start _ := rfl
  leaves _ hinner := by
    rw [List.length_cons] at hinner
    omega
  arrives hinner := by
    rw [List.length_cons] at hinner
    omega
  arrives_last _ := by rw [Nat.add_sub_cancel, hg, Option.map_some]

end Joined

section Arcs
variable {pen leaving finish p q : Point α} {g h : Handles α} {knots : List (Point α × Handles α)}
  {k : ℕ}

theorem getElem?_zero_curvesFrom_arcs (hp : knots[0]? = some (p, h)) :
    (Command.curvesFrom pen (arcs leaving finish knots))[0]? =
      some ⟨pen, leaving, h.incoming, p⟩ := by
  cases knots with
  | nil => simp at hp
  | cons knot rest =>
    obtain rfl : knot = (p, h) := by simpa using hp
    cases rest with
    | nil => rfl
    | cons next rest => rfl

theorem getElem?_succ_curvesFrom_arcs (hq : knots[k]? = some (q, g))
    (hp : knots[k + 1]? = some (p, h)) :
    (Command.curvesFrom pen (arcs leaving finish knots))[k + 1]? =
      some ⟨q, g.outgoing, h.incoming, p⟩ := by
  induction knots generalizing pen leaving k with
  | nil => simp at hq
  | cons knot rest ih =>
    cases rest with
    | nil => simp at hp
    | cons next rest =>
      cases k with
      | zero =>
        obtain rfl : knot = (q, g) := by simpa using hq
        exact getElem?_zero_curvesFrom_arcs hp
      | succ k => exact ih hq hp

theorem getElem?_last_curvesFrom_arcs (hq : knots[k]? = some (q, g)) (hk : knots.length = k + 1) :
    (Command.curvesFrom pen (arcs leaving finish knots))[k + 1]? =
      some ⟨q, q, g.outgoing, finish⟩ := by
  induction knots generalizing pen leaving k with
  | nil => simp at hq
  | cons knot rest ih =>
    cases rest with
    | nil =>
      obtain rfl : k = 0 := by simpa using hk.symm
      obtain rfl : knot = (q, g) := by simpa using hq
      rfl
    | cons next rest =>
      cases k with
      | zero => simp at hk
      | succ k => exact ih hq (by simpa using hk)

theorem map_command_curvesFrom_arcs : (Command.curvesFrom pen (arcs leaving finish knots)).map
    Bezier.command = arcs leaving finish knots := by
  induction knots generalizing pen leaving with
  | nil => rfl
  | cons knot rest ih =>
    cases rest with
    | nil => rfl
    | cons next rest => exact congrArg (List.cons _) ih

theorem length_curvesFrom_arcs (hne : knots ≠ []) :
    (Command.curvesFrom pen (arcs leaving finish knots)).length = knots.length + 1 := by
  have hlength := congrArg List.length (map_destination_arcs leaving finish hne)
  have hcommands : (Command.curvesFrom pen (arcs leaving finish knots)).map Bezier.command = _ :=
    map_command_curvesFrom_arcs
  rw [← hcommands] at hlength
  simpa using hlength

/-- A knot is a point between the first one and the last, with its control points. -/
theorem exists_knot {rest : List (Point α)} {hs : List (Handles α)}
    (hlength : hs.length + 1 = rest.length) (hk : k < hs.length) :
    ∃ q g, (rest.zip hs)[k]? = some (q, g) ∧ rest[k]? = some q ∧ hs[k]? = some g := by
  have hq := List.getElem?_eq_getElem (show k < rest.length by omega)
  have hg := List.getElem?_eq_getElem hk
  exact ⟨_, _, List.getElem?_zip_eq_some.mpr ⟨hq, hg⟩, hq, hg⟩

theorem exists_joinsKnots {rest : List (Point α)} {hs : List (Handles α)}
    (hlength : hs.length + 1 = rest.length) (hne : hs ≠ []) (hk : k < rest.length) :
    ∃ b, (Command.curvesFrom p (arcs p (rest.getLastD p) (rest.zip hs)))[k]? = some b ∧
      b.JoinsKnots (p :: rest) hs k := by
  have hpos : 0 < hs.length := List.length_pos_iff.mpr hne
  cases k with
  | zero =>
    obtain ⟨q, h, hknot, hq, hh⟩ := exists_knot hlength hpos
    exact ⟨_, getElem?_zero_curvesFrom_arcs hknot, joinsKnots_first hq hh (by omega)⟩
  | succ k =>
    obtain ⟨q, g, hknot, hq, hg⟩ := exists_knot hlength (k := k) (by omega)
    by_cases hlast : k + 1 = hs.length
    · have hcount : (rest.zip hs).length = k + 1 := by
        rw [List.length_zip]
        omega
      exact ⟨_, getElem?_last_curvesFrom_arcs hknot hcount, joinsKnots_last hq hg (by omega)⟩
    · obtain ⟨q', h, hknot', hq', hh⟩ := exists_knot hlength (k := k + 1) (by omega)
      exact ⟨_, getElem?_succ_curvesFrom_arcs hknot hknot',
        joinsKnots_inner hq hq' hg hh (by omega)⟩

end Arcs

theorem length_flatten (hs : List (Handles α)) : (Handles.flatten hs).length = 2 * hs.length := by
  simp [Handles.flatten, Nat.mul_comm]

/-- In one list the control points of a knot stand side by side. -/
theorem getElem?_flatten {hs : List (Handles α)} {i : ℕ} {h : Handles α} (hh : hs[i]? = some h) :
    (Handles.flatten hs)[2 * i]? = some h.incoming ∧
      (Handles.flatten hs)[2 * i + 1]? = some h.outgoing := by
  induction hs generalizing i with
  | nil => simp at hh
  | cons g hs ih =>
    cases i with
    | zero =>
      obtain rfl : g = h := by simpa using hh
      exact ⟨rfl, rfl⟩
    | succ i => exact ih hh

end Curves

section Handles
variable {α : Type} [Scalar α] [Hypotenuse α]

/-- The control points of a knot depend on the knot and its two neighbours. -/
theorem getElem?_handles (tightness : α) (points : List (Point α)) (i : ℕ) :
    (handles tightness points)[i]? = (do
      let a ← points[i]?
      let b ← points[i + 1]?
      let c ← points[i + 2]?
      pure (.ofKnot tightness a b c)) := by
  induction points generalizing i with
  | nil => rfl
  | cons a points ih =>
    cases points with
    | nil => simp [handles]
    | cons b rest =>
      cases rest with
      | nil => cases i <;> simp [handles]
      | cons c rest =>
        cases i with
        | zero => rfl
        | succ i => exact ih i

theorem handles_of_neighbours (tightness : α) {points : List (Point α)} {i : ℕ} {a b c : Point α}
    (ha : points[i]? = some a) (hb : points[i + 1]? = some b) (hc : points[i + 2]? = some c) :
    (handles tightness points)[i]? = some (.ofKnot tightness a b c) := by
  rw [getElem?_handles, ha, hb, hc]
  rfl

theorem CurveOptions.draw_eq_curves (options : CurveOptions α) {stroke : Stroke α}
    (hn : 3 ≤ stroke.points.length) (hf : ∀ p ∈ stroke.points, p.isFinite) :
    ∃ (first : Point α) (bs : List (Bezier α)), stroke.points.head? = some first ∧
      CurvesThrough stroke.points (handles options.tightness stroke.points) bs ∧
      ∀ canvas, options.draw canvas stroke =
        canvas ++ .of (.moveTo first :: bs.map Bezier.command ++ [.stroke]) [] := by
  obtain ⟨p, rest, hp⟩ := List.exists_cons_of_length_pos (show 0 < stroke.points.length by omega)
  rw [hp, List.length_cons] at hn
  have hlength := length_handles options.tightness (p :: rest)
  rw [List.length_cons] at hlength
  have hne : handles options.tightness (p :: rest) ≠ [] := by
    rw [← List.length_pos_iff]
    omega
  have hcount : (rest.zip (handles options.tightness (p :: rest))).length = rest.length - 1 := by
    rw [List.length_zip]
    omega
  have hknots : rest.zip (handles options.tightness (p :: rest)) ≠ [] := by
    rw [← List.length_pos_iff]
    omega
  refine ⟨p, Command.curvesFrom p (arcs p (rest.getLastD p)
    (rest.zip (handles options.tightness (p :: rest)))), ?_, ⟨?_, fun k hk => ?_⟩,
    fun canvas => ?_⟩
  · rw [hp]
    rfl
  · rw [length_curvesFrom_arcs hknots, hcount, hp, List.length_cons]
    omega
  · rw [hp]
    rw [hp, List.length_cons] at hk
    exact exists_joinsKnots (by omega) hne (by omega)
  · rw [options.draw_of_finite hf, hp, map_command_curvesFrom_arcs]
    exact options.drawPoints_of_knots p hknots canvas

/-- A finite stroke of three points or more is drawn by one move, curves that join its knots, and
one stroke. Each knot has the control points of its neighbours, and in one list they keep their
order. -/
theorem CurveOptions.draw_joinsKnots :
    (∀ (options : CurveOptions α) (stroke : Stroke α), 3 ≤ stroke.points.length →
      (∀ p ∈ stroke.points, p.isFinite) → ∃ (first : Point α) (bs : List (Bezier α)),
        stroke.points.head? = some first ∧
        CurvesThrough stroke.points (handles options.tightness stroke.points) bs ∧
        ∀ canvas, options.draw canvas stroke =
          canvas ++ .of (.moveTo first :: bs.map Bezier.command ++ [.stroke]) []) ∧
    (∀ (tightness : α) (points : List (Point α)),
      (handles tightness points).length = points.length - 2 ∧
      ∀ i a b c, points[i]? = some a → points[i + 1]? = some b → points[i + 2]? = some c →
        (handles tightness points)[i]? = some (.ofKnot tightness a b c)) ∧
    ∀ points : List (Point α),
      (Handles.flatten (handles standard.tightness points)).length = 2 * (points.length - 2) ∧
      ∀ i h, (handles standard.tightness points)[i]? = some h →
        (Handles.flatten (handles standard.tightness points))[2 * i]? = some h.incoming ∧
        (Handles.flatten (handles standard.tightness points))[2 * i + 1]? = some h.outgoing := by
  refine ⟨fun options stroke hn hf => options.draw_eq_curves hn hf,
    fun tightness points => ⟨length_handles tightness points, fun i a b c => ?_⟩,
    fun points => ⟨?_, fun i h => getElem?_flatten⟩⟩
  · exact handles_of_neighbours tightness
  · rw [length_flatten, length_handles]

end Handles

/-- A stroke of four points in doubles, drawn after a dot. -/
theorem CurveOptions.draw_joinsKnots_zigzag :
    let stroke : Stroke Float := ⟨[⟨0, 0⟩, ⟨10, 0⟩, ⟨10, 10⟩, ⟨0, 10⟩]⟩
    3 ≤ stroke.points.length ∧ (∀ p ∈ stroke.points, p.isFinite) ∧
    (∃ (first : Point Float) (bs : List (Bezier Float)), stroke.points.head? = some first ∧
      CurvesThrough stroke.points (handles (1 / 3) stroke.points) bs ∧
      ∀ canvas, (⟨1 / 3⟩ : CurveOptions Float).draw canvas stroke =
        canvas ++ .of (.moveTo first :: bs.map Bezier.command ++ [.stroke]) []) ∧
    (handles (1 / 3) stroke.points)[1]? = some (.ofKnot (1 / 3) ⟨10, 0⟩ ⟨10, 10⟩ ⟨0, 10⟩) := by
  intro stroke
  have hn : 3 ≤ stroke.points.length := by decide
  have hf : ∀ p ∈ stroke.points, p.isFinite := by decide +kernel
  obtain ⟨hdraw, hknots, -⟩ := draw_joinsKnots (α := Float)
  exact ⟨hn, hf, hdraw ⟨1 / 3⟩ stroke hn hf, (hknots (1 / 3) stroke.points).2 1 _ _ _ rfl rfl rfl⟩

end PenStroke
