import PenStroke.Ink.Notice

/-! Captured ink: strokes of the pen, each the points it passed in order. -/

namespace PenStroke

/-- One stroke of the pen: the points captured from touching down to lifting off. -/
structure Stroke (α : Type) where
  points : List (Point α) := []
  deriving BEq

namespace Stroke

variable {α : Type}

/-- Coordinates `x₀, y₀, x₁, y₁, …` taken in pairs; one without a partner is left out. -/
def pairs : List α → List (Point α)
  | x :: y :: rest => ⟨x, y⟩ :: pairs rest
  | _ => []

/-- Coordinates read in pairs; an odd number of them is a fault. -/
def ofCoordinates (coordinates : List α) : Except Fault (Stroke α) :=
  if coordinates.length % 2 ≠ 0 then .error (.unpairedCoordinate coordinates.length)
  else .ok ⟨pairs coordinates⟩

/-- Coordinates read in pairs; one without a partner is dropped with a notice. -/
def salvage (coordinates : List α) : Stroke α × List (Notice α) :=
  (⟨pairs coordinates⟩,
    if coordinates.length % 2 ≠ 0 then [.unpaired coordinates.length] else [])

def flatten (stroke : Stroke α) : List α := stroke.points.flatMap fun p => [p.x, p.y]

def size (stroke : Stroke α) : Nat := stroke.points.length

def isEmpty (stroke : Stroke α) : Bool := stroke.points.isEmpty

def push (stroke : Stroke α) (p : Point α) : Stroke α := ⟨stroke.points ++ [p]⟩

def onAxis (stroke : Stroke α) (axis : Axis) : List α := stroke.points.map (·.coord axis)

variable [Scalar α]

/-- The fault of a stroke with a point that is not finite: it names the first such point. -/
def fault? (stroke : Stroke α) : Option Fault :=
  (stroke.points.findIdx? (!·.isFinite)).map .notFinite

/-- Accepts a stroke if all its points are finite. -/
def check (stroke : Stroke α) : Except Fault Unit :=
  match stroke.fault? with
  | some fault => .error fault
  | none => .ok ()

end Stroke

/-- The strokes of a drawing, in the order they were made. -/
structure Ink (α : Type) where
  strokes : List (Stroke α) := []
  deriving BEq

namespace Ink

variable {α : Type}

/-- Reads a list of coordinates per stroke; the first odd one is a fault. -/
def ofCoordinates (entries : List (List α)) : Except Fault (Ink α) := do
  pure ⟨← entries.mapM Stroke.ofCoordinates⟩

/-- Reads a list of coordinates per stroke and drops coordinates without a partner. -/
def salvage (entries : List (List α)) : Ink α × List (Notice α) :=
  let read := entries.map Stroke.salvage
  (⟨read.map (·.1)⟩, read.flatMap (·.2))

def size (ink : Ink α) : Nat := ink.strokes.length

def isEmpty (ink : Ink α) : Bool := ink.strokes.isEmpty

def push (ink : Ink α) (stroke : Stroke α) : Ink α := ⟨ink.strokes ++ [stroke]⟩

end Ink

end PenStroke
