import PenStroke.Decimal.Binary64
import PenStroke.Ink.Notice

/-! The texts of points and displacements, and those of levels and notices. -/

namespace PenStroke

open Binary64

/-- A point in round brackets. -/
def Point.text (p : Point Float) (format : Format := {}) : String :=
  "(" ++ coordinateText format p.x ++ ", " ++ coordinateText format p.y ++ ")"

/-- A displacement in angle brackets. -/
def Offset.text (v : Offset Float) (format : Format := {}) : String :=
  "<" ++ coordinateText format v.x ++ ", " ++ coordinateText format v.y ++ ">"

/-- A point in a notice. -/
def Point.diagnostic (p : Point Float) : String :=
  "(" ++ diagnosticText p.x ++ ", " ++ diagnosticText p.y ++ ")"

def Level.name : Level → String
  | warn => "warn"
  | debug => "debug"
  | trace => "trace"

def Notice.message : Notice Float → String
  | skipped fault => "skipping ink sub-path: " ++ fault.message
  | unpaired count =>
    s!"dropping unpaired trailing coordinate of {count}-value ink entry"
  | dot p => "single-point ink sub-path at " ++ p.diagnostic ++ ", drawing a dot"
  | waypoint p index => "corner waypoint " ++ p.diagnostic ++ s!" before sample {index}"
  | invisible components width =>
    s!"no ink appearance for {components}-component color of width " ++ numeral width

end PenStroke
