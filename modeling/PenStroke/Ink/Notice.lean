import PenStroke.Fault
import PenStroke.Geometry.Point

/-! Notices: what a reader or a smoother tells about ink that it had to treat specially. -/

namespace PenStroke

/-- How much a notice matters, the gravest first. -/
inductive Level where
  | warn
  | debug
  | trace
  deriving DecidableEq

/-- The place of a level in the order, from the gravest on. -/
def Level.rank : Level → Nat
  | warn => 0
  | debug => 1
  | trace => 2

inductive Notice (α : Type) where
  /-- A stroke was left out for a fault. -/
  | skipped (fault : Fault)
  /-- The last coordinate of a list of that many had no partner and was dropped. -/
  | unpaired (count : Nat)
  /-- A stroke of one point was drawn as a dot there. -/
  | dot (p : Point α)
  /-- A waypoint was drawn before the sample at that index. -/
  | waypoint (p : Point α) (index : Nat)
  /-- A style with that many color components and that width shows nothing. -/
  | invisible (components : Nat) (width : α)

namespace Notice

variable {α : Type}

def level : Notice α → Level
  | skipped _ => .warn
  | unpaired _ | dot _ | invisible _ _ => .debug
  | waypoint _ _ => .trace

/-- Whether a notice is at least as grave as a level. -/
def reaches (notice : Notice α) (level : Level) : Bool := notice.level.rank ≤ level.rank

end Notice

end PenStroke
