/-! What can be wrong with captured ink. -/

namespace PenStroke

/-- A reason not to accept coordinates or not to build a curve. -/
inductive Fault where
  /-- A flat list of that many coordinates has one without a partner. -/
  | unpairedCoordinate (count : Nat)
  /-- The point at that index has a coordinate that is no number. -/
  | notFinite (index : Nat)
  /-- The two axes have different numbers of intervals. -/
  | unequalAxes (x y : Nat)
  /-- There is no interval at all. -/
  | noIntervals
  deriving DecidableEq

/-- A computation on a state that someone lends, which a fault may end. What it did to the state
before the fault stays done. -/
abbrev Attempt (σ : Type) := ExceptT Fault (StateM σ)

def Fault.message : Fault → String
  | unpairedCoordinate count =>
    s!"coordinate array of length {count} is not made of (x, y) pairs"
  | notFinite index => s!"point {index} is not finite"
  | unequalAxes x y => s!"axis splines differ in length: {x} x segments, {y} y segments"
  | noIntervals => "spline has no segments"

end PenStroke
