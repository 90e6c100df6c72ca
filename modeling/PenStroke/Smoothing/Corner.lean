import PenStroke.Geometry.Point

/-!
Corner waypoints. A spline whose parameter ignores the distance between points can swing out past
a sharp corner; a waypoint part of the way along a long step, bent towards the inside of the turn,
pulls the drawn line back in.
-/

namespace PenStroke

open scoped Scalar

variable {α : Type} [Scalar α] [Hypotenuse α]

/-- The sine of the turn from one displacement to the next, positive to the left; zero if one of
them has no length. -/
def turnSine (before step : Offset α) : α :=
  let lengths := step.length * before.length
  if 0 < lengths then Scalar.clamp (before.cross step / lengths) (-1) 1 else 0

/-- The waypoint of the step from `q` to `r` that follows the step from `p` to `q`, if the step
exceeds the threshold on both axes. It lies `fraction` of the way along the step, and as far to the
side as that times the sine of the turn. -/
def waypoint? (p q r : Point α) (threshold fraction : α) : Option (Point α) :=
  let step := r - q
  if threshold < Scalar.abs step.x ∧ threshold < Scalar.abs step.y then
    let sine := turnSine (q - p) step
    some (q + fraction • step + (fraction * sine) • step.turnLeft)
  else none

end PenStroke
