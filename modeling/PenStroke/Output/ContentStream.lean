import PenStroke.Output.Sink
import PenStroke.Path

/-! Paths as the operators of a PDF content stream, one to a line. -/

namespace PenStroke

open Writing (put)

variable {α : Type} [Scalar α] [Numeral α]

/-- Numbers in a content stream keep four decimal places. -/
def streamNumeral (x : α) : String := numeral (Scalar.roundTo 4 x)

def putNumber (x : α) : Writing Unit := put (streamNumeral x)

/-- Writes a point, a blank between its coordinates. -/
def putPoint (p : Point α) : Writing Unit := do
  putNumber p.x
  put " "
  putNumber p.y

/-- Writes a command: its operands, its operator and the end of the line. -/
def Command.writeOperator : Command α → Writing Unit
  | .moveTo p => do
    putPoint p
    put " m\n"
  | .lineTo p => do
    putPoint p
    put " l\n"
  | .curveTo first second p => do
    putPoint first
    put " "
    putPoint second
    put " "
    putPoint p
    put " c\n"
  | .stroke => put "S\n"

namespace Path

def writeOperators (path : Path α) : Writing Unit := path.toList.forM Command.writeOperator

def operators (path : Path α) : String := path.writeOperators.text

end Path

end PenStroke
