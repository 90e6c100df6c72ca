import PenStroke.Scalar

/-! Displacements in the plane: differences of points and directions of travel. -/

namespace PenStroke

open scoped Scalar

structure Offset (α : Type) where
  x : α
  y : α
  deriving BEq

namespace Offset

variable {α : Type} [Scalar α]

def zero : Offset α := ⟨0, 0⟩

instance : Inhabited (Offset α) := ⟨zero⟩

instance : Add (Offset α) := ⟨fun v w => ⟨v.x + w.x, v.y + w.y⟩⟩

instance : Sub (Offset α) := ⟨fun v w => ⟨v.x - w.x, v.y - w.y⟩⟩

instance : Neg (Offset α) := ⟨fun v => ⟨-v.x, -v.y⟩⟩

instance : SMul α (Offset α) := ⟨fun s v => ⟨v.x * s, v.y * s⟩⟩

/-- To divide is to scale by the reciprocal. -/
instance : HDiv (Offset α) α (Offset α) := ⟨fun v s => (1 / s) • v⟩

def dot (v w : Offset α) : α := v.x * w.x + v.y * w.y

/-- The cross product, positive when `w` points to the left of `v` in a plane whose `y` grows
upwards. -/
def cross (v w : Offset α) : α := v.x * w.y - v.y * w.x

def length [Hypotenuse α] (v : Offset α) : α := hypot v.x v.y

def lengthSq (v : Offset α) : α := v.dot v

/-- A quarter turn to the left. -/
def turnLeft (v : Offset α) : Offset α := ⟨-v.y, v.x⟩

/-- The displacement a share `t` of the way from `v` to `w`. -/
def lerp (v w : Offset α) (t : α) : Offset α := v + t • (w - v)

/-- The displacement of length one in the same direction; undefined when there is no direction. -/
def normalize [Hypotenuse α] (v : Offset α) : Offset α := v / v.length

/-- The displacement of length one in the same direction, and none where the length is zero or
not a number. -/
def direction [Hypotenuse α] (v : Offset α) : Offset α :=
  let len := v.length
  if 0 < len ∧ Scalar.isFinite len then v / len else zero

def isFinite (v : Offset α) : Bool := Scalar.isFinite v.x && Scalar.isFinite v.y

end Offset

end PenStroke
