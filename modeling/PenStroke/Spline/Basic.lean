import PenStroke.Curve.Cubic
import PenStroke.Curve.Parameters
import PenStroke.Spline.Knots

/-! Splines over one axis: a cubic on each interval between neighbouring knots. -/

namespace PenStroke

open scoped Scalar

/-- The cubics of a spline in order, one for each interval between knots. -/
structure Spline (α : Type) where
  segments : List (Cubic α) := []
  deriving BEq

namespace Spline

variable {α : Type} [Scalar α]

def size (s : Spline α) : Nat := s.segments.length

def isEmpty (s : Spline α) : Bool := s.segments.isEmpty

/-- The cubics that join neighbouring values with the slopes given at each. -/
def hermiteSegments : List α → List α → List (Cubic α)
  | v₀ :: v₁ :: vs, d₀ :: d₁ :: ds =>
    .ofHermite v₀ v₁ d₀ d₁ :: hermiteSegments (v₁ :: vs) (d₁ :: ds)
  | _, _ => []

/-- The natural spline through the values; none for fewer than two values or a value that is no
number. -/
def natural? (values : List α) : Option (Spline α) :=
  (knotSlopes? values).map fun slopes => ⟨hermiteSegments values slopes⟩

/-- The value at parameter `u`; undefined if there is no interval. -/
def eval (s : Spline α) (u : α) : α :=
  let value := do
    let (index, t) ← locate? s.size u
    let segment ← s.segments[index]?
    pure (segment.eval t)
  value.getD Scalar.undefined

end Spline

end PenStroke
