import PenStroke.Smoothing.Canvas

/-!
Strokes drawn as Bézier curves through the captured points. The tangent at a point is estimated
by the chord between its neighbours, and the control points on it reach towards each neighbour by
a share of the distance projected on the chord. No system is solved: a control point depends on
three points alone.
-/

namespace PenStroke

open scoped Scalar

/-- The control points of a knot: where the curve comes in and where it goes out. -/
structure Handles (α : Type) where
  incoming : Point α
  outgoing : Point α
  deriving BEq

structure CurveOptions (α : Type) where
  /-- The share of the projected distance to a neighbour; more is rounder. -/
  tightness : α
  deriving BEq

namespace CurveOptions

variable {α : Type} [Scalar α]

def standard : CurveOptions α := ⟨1 / 2⟩

instance : Inhabited (CurveOptions α) := ⟨standard⟩

end CurveOptions

variable {α : Type} [Scalar α] [Hypotenuse α]

/-- The control points of the knot `b` between `a` and `c`. Where the neighbours coincide there is
no chord, and both control points are the knot itself. -/
def Handles.ofKnot (tightness : α) (a b c : Point α) : Handles α :=
  let forward := (c - a).direction
  let behind := Scalar.abs ((b - a).dot forward)
  let backward := -forward
  let ahead := Scalar.abs ((b - c).dot backward)
  { incoming := b - (tightness * behind) • forward
    outgoing := b - (tightness * ahead) • backward }

/-- The control points of every point between two others, in order. -/
def handles (tightness : α) : List (Point α) → List (Handles α)
  | a :: b :: c :: rest => .ofKnot tightness a b c :: handles tightness (b :: c :: rest)
  | _ => []

/-- The control points in one list, incoming before outgoing at each knot. -/
def Handles.flatten (hs : List (Handles α)) : List (Point α) :=
  hs.flatMap fun h => [h.incoming, h.outgoing]

/-- Draws a curve to each knot and a last one to `finish`. A curve leaves along `leaving`, the
outgoing control point of the knot before it; the last one starts from the last knot itself and
arrives along that knot's outgoing control point. -/
def drawArcs (canvas : Canvas α) (leaving : Point α) (finish : Point α) :
    List (Point α × Handles α) → Canvas α
  | [] => canvas
  | [(p, h)] => (canvas.curveTo leaving h.incoming p).curveTo p h.outgoing finish
  | (p, h) :: next :: rest =>
    drawArcs (canvas.curveTo leaving h.incoming p) h.outgoing finish (next :: rest)

namespace CurveOptions

/-- Draws a finite stroke. One point draws a dot and two a line; with more, the first curve leaves
from the first point itself. -/
def drawPoints (options : CurveOptions α) (canvas : Canvas α) (points : List (Point α)) :
    Canvas α :=
  match points with
  | [] => canvas
  | first :: rest =>
    let finish := rest.getLastD first
    let canvas := canvas.moveTo first
    match rest.zip (handles options.tightness points) with
    | [] => (canvas.lineTo finish).stroke
    | knots => (drawArcs canvas first finish knots).stroke

/-- Draws a stroke; one that is not finite is skipped with a notice. -/
def draw (options : CurveOptions α) (canvas : Canvas α) (stroke : Stroke α) : Canvas α :=
  match stroke.fault? with
  | some fault => canvas.note (.skipped fault)
  | none => options.drawPoints canvas stroke.points

end CurveOptions

end PenStroke
