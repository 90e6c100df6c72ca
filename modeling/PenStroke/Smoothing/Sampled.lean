import PenStroke.Curve.Parameters
import PenStroke.Smoothing.Canvas
import PenStroke.Smoothing.Corner
import PenStroke.Spline.Plane

/-!
Strokes drawn as sampled splines: the natural spline through the points is evaluated at evenly
spaced parameters and the samples are joined by lines, with a waypoint where a step is long.
-/

namespace PenStroke

open scoped Scalar

/-- How a spline is sampled and where waypoints go. -/
structure SamplingOptions (α : Type) where
  /-- The number of samples; fewer than two count as two. -/
  samples : Nat
  waypoints : Bool
  /-- The length that a step must exceed on both axes to get a waypoint. -/
  threshold : α
  /-- Where along its step a waypoint lies, and how far to the side. -/
  fraction : α
  deriving BEq

/-- A hundred steps, and waypoints a fifth of the way along steps above five units. -/
def SamplingOptions.standard {α : Type} [Scalar α] : SamplingOptions α := ⟨101, true, 5, 1 / 5⟩

instance {α : Type} [Scalar α] : Inhabited (SamplingOptions α) := ⟨.standard⟩

/-- What happened while a stroke was sampled. -/
inductive SamplingEvent (α : Type) where
  /-- The curve was evaluated at `u`. -/
  | sample (index : Nat) (u : α) (p : Point α)
  /-- A waypoint was drawn before the sample at that index. -/
  | waypoint (index : Nat) (p : Point α)

/-- The pen that joins samples: what it drew, what happened, and its last two samples. -/
structure SamplingPen (α : Type) where
  canvas : Canvas α
  events : Array (SamplingEvent α) := #[]
  /-- The sample before the last one. -/
  previous : Option (Point α) := none
  /-- The last sample. -/
  last : Option (Point α) := none

namespace SamplingPen

variable {α : Type}

/-- Moves to a point, drawing a line unless there is no sample yet. -/
def go (pen : SamplingPen α) (p : Point α) : SamplingPen α :=
  { pen with
    canvas := match pen.last with
      | none => pen.canvas.moveTo p
      | some _ => pen.canvas.lineTo p }

def record (pen : SamplingPen α) (event : SamplingEvent α) : SamplingPen α :=
  { pen with events := pen.events.push event }

/-- Goes through a waypoint and tells so. -/
def goThrough (pen : SamplingPen α) (index : Nat) (p : Point α) : SamplingPen α :=
  let pen := { pen with canvas := pen.canvas.note (.waypoint p index) }
  (pen.record (.waypoint index p)).go p

variable [Scalar α] [Hypotenuse α]

def waypoint? (pen : SamplingPen α) (options : SamplingOptions α) (next : Point α) :
    Option (Point α) :=
  match pen.previous, pen.last with
  | some previous, some last =>
    if options.waypoints then
      PenStroke.waypoint? previous last next options.threshold options.fraction
    else none
  | _, _ => none

/-- Draws the next sample. Waypoints are found from samples alone, never from other waypoints. -/
def step (options : SamplingOptions α) (curve : PlaneSpline α) (pen : SamplingPen α)
    (index : Nat) (u : α) : SamplingPen α :=
  let next := curve.eval u
  let pen := pen.record (.sample index u next)
  let pen := match pen.waypoint? options next with
    | some p => pen.goThrough index p
    | none => pen
  { pen.go next with previous := pen.last, last := some next }

/-- Draws the samples at the given parameters, counted from `index`. -/
def run (options : SamplingOptions α) (curve : PlaneSpline α) (pen : SamplingPen α)
    (index : Nat) : List α → SamplingPen α
  | [] => pen
  | u :: rest => run options curve (pen.step options curve index u) (index + 1) rest

end SamplingPen

namespace SamplingOptions

variable {α : Type} [Scalar α] [Hypotenuse α]

/-- Draws a stroke and tells what happened on the way. A stroke without points draws nothing, and
one of a single point a dot. A stroke that is not finite is a fault, and then nothing is drawn. -/
def drawRecorded (options : SamplingOptions α) (canvas : Canvas α) (stroke : Stroke α) :
    Except Fault (Canvas α × Array (SamplingEvent α)) := do
  stroke.check
  match stroke.points with
  | [] => pure (canvas, #[])
  | [p] => pure ((((canvas.note (.dot p)).moveTo p).lineTo p).stroke, #[])
  | points =>
    match PlaneSpline.through? points with
    | none => pure (canvas, #[])
    | some curve =>
      let pen : SamplingPen α := { canvas := canvas }
      let pen := pen.run options curve 0 (parameters options.samples)
      pure (pen.canvas.stroke, pen.events)

/-- Draws a stroke; one that is not finite is a fault. -/
def drawChecked (options : SamplingOptions α) (canvas : Canvas α) (stroke : Stroke α) :
    Except Fault (Canvas α) :=
  (options.drawRecorded canvas stroke).map (·.1)

/-- Draws a stroke; one that is not finite is skipped with a notice. -/
def draw (options : SamplingOptions α) (canvas : Canvas α) (stroke : Stroke α) : Canvas α :=
  match options.drawChecked canvas stroke with
  | .ok canvas => canvas
  | .error fault => canvas.note (.skipped fault)

end SamplingOptions

end PenStroke
