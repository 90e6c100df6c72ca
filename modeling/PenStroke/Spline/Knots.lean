import PenStroke.Scalar

/-!
The slopes of the natural cubic spline at its knots. Over knots a unit apart with values `v`, the
slopes `d` satisfy `2 d₀ + d₁ = 3 (v₁ - v₀)`, `dᵢ₋₁ + 4 dᵢ + dᵢ₊₁ = 3 (vᵢ₊₁ - vᵢ₋₁)` between, and
`dₘ₋₁ + 2 dₘ = 3 (vₘ - vₘ₋₁)`. The system is diagonally dominant, so it is eliminated downwards
and solved upwards without exchanging rows.
-/

namespace PenStroke.Spline

open scoped Scalar

variable {α : Type} [Scalar α]

/-- A row after elimination: the slope at its knot plus `factor` times the next slope is `rhs`. -/
structure Row (α : Type) where
  factor : α
  rhs : α

/-- The rows below the row `above` of some knot, where `u` is the value at that knot, `v` the value
at the next one and the list holds the values that follow. The knot of the last value closes the
system. -/
def eliminateBelow (above : Row α) (u v : α) : List α → List (Row α)
  | [] =>
    let factor := 1 / (2 - above.factor)
    [⟨factor, (3 * (v - u) - above.rhs) * factor⟩]
  | w :: rest =>
    let factor := 1 / (4 - above.factor)
    let row : Row α := ⟨factor, (3 * (w - u) - above.rhs) * factor⟩
    row :: eliminateBelow row v w rest

/-- The row of the first knot, from the first two values. -/
def firstRow (u v : α) : Row α := ⟨1 / 2, 3 * (v - u) * (1 / 2)⟩

/-- All rows, one per value; there are none for fewer than two values. -/
def eliminate : List α → List (Row α)
  | u :: v :: rest => firstRow u v :: eliminateBelow (firstRow u v) u v rest
  | _ => []

/-- Solves the rows from the last upwards. -/
def backSubstitute (rows : List (Row α)) : List α :=
  rows.foldr (fun row below =>
    match below with
    | [] => [row.rhs]
    | d :: _ => (row.rhs - row.factor * d) :: below) []

/-- The slopes at the knots; none for fewer than two values or a value that is no number. -/
def knotSlopes? (values : List α) : Option (List α) :=
  if values.length < 2 || values.any (!Scalar.isFinite ·) then none
  else some (backSubstitute (eliminate values))

end PenStroke.Spline
