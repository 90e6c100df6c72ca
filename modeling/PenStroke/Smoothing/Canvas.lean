import PenStroke.Ink.Stroke
import PenStroke.Path

/-! The canvas that smoothers draw on: the path so far and the notices given on the way. -/

namespace PenStroke

/-- A path under construction, with the notices given while it was drawn. -/
structure Canvas (α : Type) where
  path : Path α := {}
  notices : Array (Notice α) := #[]

namespace Canvas

variable {α : Type}

/-- A canvas that goes on from a path and has no notices yet. -/
def ofPath (path : Path α) : Canvas α := { path := path }

def draw (canvas : Canvas α) (c : Command α) : Canvas α :=
  { canvas with path := canvas.path.push c }

def moveTo (canvas : Canvas α) (p : Point α) : Canvas α := canvas.draw (.moveTo p)

def lineTo (canvas : Canvas α) (p : Point α) : Canvas α := canvas.draw (.lineTo p)

def curveTo (canvas : Canvas α) (first second p : Point α) : Canvas α :=
  canvas.draw (.curveTo first second p)

def stroke (canvas : Canvas α) : Canvas α := canvas.draw .stroke

def note (canvas : Canvas α) (notice : Notice α) : Canvas α :=
  { canvas with notices := canvas.notices.push notice }

end Canvas

end PenStroke
