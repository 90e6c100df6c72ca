import PenStroke.Path
import PenStroke.Curve.Cubic

/-! Cubic Bézier curves in the plane. -/

namespace PenStroke

open scoped Scalar

structure Bezier (α : Type) where
  start : Point α
  first : Point α
  second : Point α
  finish : Point α
  deriving BEq

namespace Bezier

variable {α : Type}

def ofOrdinates (x y : Ordinates α) : Bezier α :=
  ⟨⟨x.start, y.start⟩, ⟨x.first, y.first⟩, ⟨x.second, y.second⟩, ⟨x.finish, y.finish⟩⟩

def command (b : Bezier α) : Command α := .curveTo b.first b.second b.finish

/-- The point at parameter `t`, by the Bernstein form nested in `t`. -/
def eval [Scalar α] (b : Bezier α) (t : α) : Point α :=
  let s := 1 - t
  .ofOffset ((s * s * s) • b.start.toOffset +
    t • ((s * s * 3) • b.first.toOffset +
      t • ((s * 3) • b.second.toOffset + t • b.finish.toOffset)))

end Bezier

end PenStroke
