import PenStroke.Curve.Bezier
import PenStroke.Fault
import PenStroke.Spline.Basic

/-! Splines in the plane: one spline per axis over a shared parameter. -/

namespace PenStroke

open scoped Scalar

/-- A plane curve with a spline for each coordinate. Splines of different sizes are allowed: such
a curve is undefined where one of them is missing. -/
structure PlaneSpline (α : Type) where
  x : Spline α
  y : Spline α
  deriving BEq

namespace PlaneSpline

variable {α : Type}

/-- Pairs two splines, which must have the same number of intervals and at least one. -/
def make (x y : Spline α) : Except Fault (PlaneSpline α) :=
  if x.size ≠ y.size then .error (.unequalAxes x.size y.size)
  else if x.isEmpty then .error .noIntervals
  else .ok ⟨x, y⟩

def onAxis (s : PlaneSpline α) : Axis → Spline α
  | .horizontal => s.x
  | .vertical => s.y

def size (s : PlaneSpline α) : Nat := s.x.size

variable [Scalar α]

/-- The natural spline through the points, each axis on its own; none for fewer than two points or
a coordinate that is no number. -/
def through? (points : List (Point α)) : Option (PlaneSpline α) := do
  let x ← Spline.natural? (points.map (·.coord .horizontal))
  let y ← Spline.natural? (points.map (·.coord .vertical))
  pure ⟨x, y⟩

/-- The point at parameter `u`; undefined where an axis has no interval to answer from. -/
def eval (s : PlaneSpline α) (u : α) : Point α :=
  let point := do
    let (index, t) ← Spline.locate? s.size u
    let x ← s.x.segments[index]?
    let y ← s.y.segments[index]?
    pure (Point.mk (x.eval t) (y.eval t))
  point.getD ⟨Scalar.undefined, Scalar.undefined⟩

def start (s : PlaneSpline α) : Point α := s.eval 0

def finish (s : PlaneSpline α) : Point α := s.eval 1

def beziers (s : PlaneSpline α) : List (Bezier α) :=
  List.zipWith (fun x y => .ofOrdinates x.ordinates y.ordinates) s.x.segments s.y.segments

/-- Draws the curve after what is on the path: a move to its start, and a curve per interval. -/
def drawOn (s : PlaneSpline α) (path : Path α) : Path α :=
  match s.beziers with
  | [] => path
  | b :: rest =>
    (b :: rest).foldl (fun path b => path.push b.command) (path.push (.moveTo b.start))

end PlaneSpline

end PenStroke
