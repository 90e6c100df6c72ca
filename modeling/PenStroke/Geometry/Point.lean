import PenStroke.Geometry.Offset

/-! Points of the plane and its two coordinate axes. -/

namespace PenStroke

open scoped Scalar

/-- A coordinate axis: splines are solved on one at a time. -/
inductive Axis where
  | horizontal
  | vertical
  deriving DecidableEq

def Axis.both : List Axis := [.horizontal, .vertical]

structure Point (α : Type) where
  x : α
  y : α
  deriving BEq

namespace Point

variable {α : Type}

def coord (p : Point α) : Axis → α
  | .horizontal => p.x
  | .vertical => p.y

def toOffset (p : Point α) : Offset α := ⟨p.x, p.y⟩

def ofOffset (v : Offset α) : Point α := ⟨v.x, v.y⟩

variable [Scalar α]

def origin : Point α := ⟨0, 0⟩

instance : Inhabited (Point α) := ⟨origin⟩

instance : HAdd (Point α) (Offset α) (Point α) := ⟨fun p v => ⟨p.x + v.x, p.y + v.y⟩⟩

instance : HSub (Point α) (Offset α) (Point α) := ⟨fun p v => ⟨p.x - v.x, p.y - v.y⟩⟩

instance : HSub (Point α) (Point α) (Offset α) := ⟨fun p q => ⟨p.x - q.x, p.y - q.y⟩⟩

/-- The point a share `t` of the way from `p` to `q`. -/
def lerp (p q : Point α) (t : α) : Point α := ofOffset (p.toOffset.lerp q.toOffset t)

def midpoint (p q : Point α) : Point α := ⟨1 / 2 * (p.x + q.x), 1 / 2 * (p.y + q.y)⟩

def distance [Hypotenuse α] (p q : Point α) : α := (p - q).length

def distanceSq (p q : Point α) : α := (p - q).lengthSq

def isFinite (p : Point α) : Bool := Scalar.isFinite p.x && Scalar.isFinite p.y

/-- Whether a coordinate is undefined. -/
def isUndefined (p : Point α) : Bool := Scalar.isUndefined p.x || Scalar.isUndefined p.y

end Point

end PenStroke
