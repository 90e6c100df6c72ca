import PenStroke.Output.Sink
import PenStroke.Path

/-! Paths as the path data of an SVG drawing. -/

namespace PenStroke

open Writing (put)

variable {α : Type} [Numeral α]

/-- A point in path data: a comma between its coordinates. -/
def Point.pathData (p : Point α) : String := numeral p.x ++ "," ++ numeral p.y

/-- A command in path data. Stroking is not a matter of path data. -/
def Command.pathData : Command α → String
  | .moveTo p => "M" ++ p.pathData
  | .lineTo p => "L" ++ p.pathData
  | .curveTo first second p =>
    "C" ++ first.pathData ++ " " ++ second.pathData ++ " " ++ p.pathData
  | .stroke => ""

namespace Path

/-- Writes commands with a blank before each but the very first; strokes leave no trace. -/
def writePathData (isFirst : Bool) : List (Command α) → Writing Unit
  | [] => pure ()
  | .stroke :: rest => writePathData isFirst rest
  | c :: rest => do
    unless isFirst do put " "
    put c.pathData
    writePathData false rest

def writeAsSvg (path : Path α) : Writing Unit := writePathData true path.toList

def svg (path : Path α) : String := path.writeAsSvg.text

end Path

end PenStroke
