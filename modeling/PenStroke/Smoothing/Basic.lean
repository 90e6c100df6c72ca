import PenStroke.Smoothing.Curved
import PenStroke.Smoothing.Sampled

/-!
The ways to smooth ink, the plainest of which draws strokes as they are, by straight lines from
point to point; and whole drawings smoothed stroke by stroke.
-/

namespace PenStroke

namespace Polyline

variable {α : Type}

/-- Draws a finite stroke; one point draws a dot. -/
def drawPoints (canvas : Canvas α) : List (Point α) → Canvas α
  | [] => canvas
  | [p] => ((canvas.moveTo p).lineTo p).stroke
  | p :: rest => (rest.foldl Canvas.lineTo (canvas.moveTo p)).stroke

/-- Draws a stroke; one that is not finite is skipped with a notice. -/
def draw [Scalar α] (canvas : Canvas α) (stroke : Stroke α) : Canvas α :=
  match stroke.fault? with
  | some fault => canvas.note (.skipped fault)
  | none => drawPoints canvas stroke.points

end Polyline

/-- A way to turn captured strokes into a path. -/
inductive Smoothing (α : Type) where
  /-- A natural spline, sampled. -/
  | spline (options : SamplingOptions α)
  /-- Bézier curves with estimated control points. -/
  | bezier (options : CurveOptions α)
  /-- Straight lines. -/
  | polyline
  deriving BEq

/-- Draws every stroke of the ink in order; nothing carries over from one to the next. -/
def Ink.draw {α : Type} (drawStroke : Canvas α → Stroke α → Canvas α) (ink : Ink α) : Canvas α :=
  ink.strokes.foldl drawStroke {}

namespace Smoothing

variable {α : Type} [Scalar α]

def standard : Smoothing α := .spline .standard

instance : Inhabited (Smoothing α) := ⟨standard⟩

variable [Hypotenuse α]

def draw : Smoothing α → Canvas α → Stroke α → Canvas α
  | .spline options => options.draw
  | .bezier options => options.draw
  | .polyline => Polyline.draw

/-- Draws a whole drawing on an empty canvas. -/
def smooth (smoothing : Smoothing α) (ink : Ink α) : Canvas α := ink.draw smoothing.draw

end Smoothing

end PenStroke
