import PenStroke.Spline.Plane
import PenStroke.Smoothing.Curved
import PenStroke.Stored.Tree

/-! The stored forms of points, curves and paths. -/

namespace PenStroke.Stored

variable {α : Type}

instance : Stored α Axis where
  write
    | .horizontal => .text "Horizontal"
    | .vertical => .text "Vertical"
  read? t := do
    match ← t.variant? with
    | ("Horizontal", none) | ("Horizontal", some .null) => pure .horizontal
    | ("Vertical", none) | ("Vertical", some .null) => pure .vertical
    | _ => none

variable [Scalar α]

instance : Stored α (Point α) where
  write p := .record [("x", write p.x), ("y", write p.y)]
  read? t := do
    let fields ← t.fields? ["x", "y"] false
    pure ⟨← Tree.required? fields "x", ← Tree.required? fields "y"⟩

instance : Stored α (Offset α) where
  write v := .record [("x", write v.x), ("y", write v.y)]
  read? t := do
    let fields ← t.fields? ["x", "y"] false
    pure ⟨← Tree.required? fields "x", ← Tree.required? fields "y"⟩

instance : Stored α (Cubic α) where
  write s := .record [("a", write s.a), ("b", write s.b), ("c", write s.c), ("d", write s.d)]
  read? t := do
    let fields ← t.fields? ["a", "b", "c", "d"] false
    pure ⟨← Tree.required? fields "a", ← Tree.required? fields "b",
      ← Tree.required? fields "c", ← Tree.required? fields "d"⟩

instance : Stored α (Spline α) where
  write s := write s.segments
  read? t := (read? t).map Spline.mk

instance : Stored α (PlaneSpline α) where
  write s := .record [("x", write s.x), ("y", write s.y)]
  read? t := do
    let fields ← t.fields? ["x", "y"] false
    pure ⟨← Tree.required? fields "x", ← Tree.required? fields "y"⟩

instance : Stored α (Bezier α) where
  write b := .record
    [("p0", write b.start), ("p1", write b.first), ("p2", write b.second), ("p3", write b.finish)]
  read? t := do
    let fields ← t.fields? ["p0", "p1", "p2", "p3"] false
    pure ⟨← Tree.required? fields "p0", ← Tree.required? fields "p1",
      ← Tree.required? fields "p2", ← Tree.required? fields "p3"⟩

instance : Stored α (Handles α) where
  write h := .record [("first", write h.incoming), ("second", write h.outgoing)]
  read? t := do
    let fields ← t.fields? ["first", "second"] false
    pure ⟨← Tree.required? fields "first", ← Tree.required? fields "second"⟩

instance : Stored α (Command α) where
  write
    | .moveTo p => .ofVariant "MoveTo" (write p)
    | .lineTo p => .ofVariant "LineTo" (write p)
    | .curveTo first second p => .ofVariant "CurveTo" (.list [write first, write second, write p])
    | .stroke => .text "Stroke"
  read? t := do
    match ← t.variant? with
    | ("MoveTo", some p) => pure (.moveTo (← read? p))
    | ("LineTo", some p) => pure (.lineTo (← read? p))
    | ("CurveTo", some (.list [first, second, p])) =>
      pure (.curveTo (← read? first) (← read? second) (← read? p))
    | ("Stroke", none) | ("Stroke", some .null) => pure .stroke
    | _ => none

instance : Stored α (Path α) where
  write path := write path.toList
  read? t := (read? t).map Path.ofList

end PenStroke.Stored
