/-!
The arithmetic that strokes are computed in. Every rule of the library is stated once, over any
type of scalars: doubles when a stroke is drawn, an exact field when its shape is reasoned about.
-/

namespace PenStroke

/-- A type of coordinates: its field operations and order, and the roundings a curve needs. -/
class Scalar (α : Type) where
  [toAdd : Add α]
  [toSub : Sub α]
  [toMul : Mul α]
  [toDiv : Div α]
  [toNeg : Neg α]
  [toLT : LT α]
  [toBEq : BEq α]
  [toNatCast : NatCast α]
  decLt : DecidableLT α
  /-- The distance from zero. -/
  abs : α → α
  /-- The largest natural number that a value reaches; zero for values below zero. -/
  natFloor : α → Nat
  /-- The nearest whole number; of two, the one further from zero. -/
  round : α → α
  /-- Whether a value is a number, neither infinite nor undefined. -/
  isFinite : α → Bool
  /-- The answer where there is none. -/
  undefined : α

/-- The length of the hypotenuse of a right triangle, from its two legs. Its precision is not
fixed: where values are rounded, it may differ from one platform to another. -/
class Hypotenuse (α : Type) where
  hypot : α → α → α

export Hypotenuse (hypot)

namespace Scalar

variable {α : Type} [Scalar α]

-- Scalars that form a field have operations of their own, which are found before these.
instance (priority := 50) add : Add α := toAdd
instance (priority := 50) sub : Sub α := toSub
instance (priority := 50) mul : Mul α := toMul
instance (priority := 50) div : Div α := toDiv
instance (priority := 50) neg : Neg α := toNeg
instance (priority := 50) lt : LT α := toLT
instance (priority := 50) beq : BEq α := toBEq
instance (priority := 50) natCast : NatCast α := toNatCast

instance (priority := 50) : DecidableLT α := Scalar.decLt

/-- A numeral stands for the natural number it names, where this namespace is open. -/
scoped instance (priority := high) ofNat (n : Nat) : OfNat α n := ⟨(n : α)⟩

/-- A value is undefined when it differs from itself. -/
def isUndefined (x : α) : Bool := x != x

/-- The smaller of two values, the second when they cannot be compared. -/
def least (x y : α) : α := if x < y then x else y

/-- Moves a value below `lo` to `lo` and one above `hi` to `hi`, and keeps any other. -/
def clamp (x lo hi : α) : α := if x < lo then lo else if hi < x then hi else x

/-- Rounds to that many decimal places, at least none and at most six. A value that is out of
range once scaled has no fraction and is kept; zero comes out without a sign. -/
def roundTo (places : Int) (x : α) : α :=
  let scale : α := (Nat.pow 10 (min places.toNat 6) : α)
  let scaled := x * scale
  if isFinite scaled then
    let rounded := round scaled / scale
    if rounded == 0 then 0 else rounded
  else x

end Scalar

end PenStroke
