import PenStroke.Geometry.Point

/-! Paths: the drawing commands that a renderer executes in order. -/

namespace PenStroke

inductive Command (α : Type) where
  /-- Starts a new figure at a point. -/
  | moveTo (p : Point α)
  | lineTo (p : Point α)
  /-- Draws a cubic curve with two control points to `p`. -/
  | curveTo (first second p : Point α)
  /-- Strokes the figure drawn so far. -/
  | stroke
  deriving BEq

namespace Command

variable {α : Type}

/-- Where the pen is after the command, if the command moves it. -/
def destination? : Command α → Option (Point α)
  | .moveTo p | .lineTo p | .curveTo _ _ p => some p
  | .stroke => none

def isStroke : Command α → Bool
  | .stroke => true
  | _ => false

end Command

structure Path (α : Type) where
  commands : Array (Command α) := #[]
  deriving BEq

namespace Path

variable {α : Type}

instance : Inhabited (Path α) := ⟨{}⟩

def ofList (cs : List (Command α)) : Path α := ⟨cs.toArray⟩

def toList (path : Path α) : List (Command α) := path.commands.toList

def size (path : Path α) : Nat := path.commands.size

def isEmpty (path : Path α) : Bool := path.commands.isEmpty

def push (path : Path α) (c : Command α) : Path α := ⟨path.commands.push c⟩

instance : Append (Path α) := ⟨fun path more => ⟨path.commands ++ more.commands⟩⟩

def last? (path : Path α) : Option (Command α) := path.commands.back?

/-- The number of figures that are stroked. -/
def figureCount (path : Path α) : Nat := path.commands.countP Command.isStroke

/-- The commands as they are but the strokes. -/
def drawing (path : Path α) : List (Command α) := path.toList.filter (!·.isStroke)

@[simp] theorem toList_ofList (cs : List (Command α)) : (ofList cs).toList = cs := rfl

@[simp] theorem toList_empty : ({} : Path α).toList = [] := rfl

@[simp] theorem toList_push (path : Path α) (c : Command α) :
    (path.push c).toList = path.toList ++ [c] := by
  simp [toList, push]

@[simp] theorem toList_append (path more : Path α) :
    (path ++ more).toList = path.toList ++ more.toList := by
  exact Array.toList_append

end Path

end PenStroke
