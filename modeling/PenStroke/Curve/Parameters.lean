import PenStroke.Scalar

/-! Parameters from zero to one: evenly spaced ones, and the interval of a curve
that one falls on. -/

namespace PenStroke

open scoped Scalar

variable {α : Type} [Scalar α]

/-- How many parameters are taken when `count` are asked for: both ends always are. -/
def parameterCount (count : Nat) : Nat := max count 2

/-- The parameters `0, 1/(n-1), …, 1`, each divided out of its own index so that no error builds
up and the last is one. -/
def parameters (count : Nat) : List α :=
  let n := parameterCount count
  (List.range n).map fun (k : Nat) => (k : α) / ((n - 1 : Nat) : α)

/-- The interval and the parameter within it that a parameter `u` of the whole spline falls on:
`u` is held between zero and one, each interval has an equal share, and one is the end of the last
interval. There is none over no intervals. -/
def Spline.locate? (count : Nat) (u : α) : Option (Nat × α) :=
  match count with
  | 0 => none
  | last + 1 =>
    let scaled := Scalar.clamp u 0 1 * ((last + 1 : Nat) : α)
    let index := Scalar.natFloor (Scalar.least scaled (last : α))
    some (index, scaled - (index : α))

end PenStroke
