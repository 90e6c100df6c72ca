import PenStroke.Output.Appearance
import PenStroke.Stored.Curves

/-! The stored forms of ink, of smoothings with their options, and of appearances. -/

namespace PenStroke.Stored

variable {α : Type} [Scalar α]

instance : Stored α (Stroke α) where
  write stroke := write stroke.points
  read? t := (read? t).map Stroke.mk

instance : Stored α (Ink α) where
  write ink := write ink.strokes
  read? t := (read? t).map Ink.mk

/-- An option that is missing has its standard value. -/
instance : Stored α (CurveOptions α) where
  write options := .record [("tightness", write options.tightness)]
  read? t := do
    let fields ← t.fields? ["tightness"] true
    pure ⟨← Tree.optional? fields "tightness" CurveOptions.standard.tightness⟩

/-- An option that is missing has its standard value. -/
instance : Stored α (SamplingOptions α) where
  write options := .record
    [("sample_count", write options.samples), ("suppress_corners", write options.waypoints),
      ("corner_threshold", write options.threshold),
      ("corner_fraction", write options.fraction)]
  read? t := do
    let fields ← t.fields?
      ["sample_count", "suppress_corners", "corner_threshold", "corner_fraction"] true
    let missing : SamplingOptions α := .standard
    pure ⟨← Tree.optional? fields "sample_count" missing.samples,
      ← Tree.optional? fields "suppress_corners" missing.waypoints,
      ← Tree.optional? fields "corner_threshold" missing.threshold,
      ← Tree.optional? fields "corner_fraction" missing.fraction⟩

instance : Stored α (Smoothing α) where
  write
    | .spline options => .ofVariant "Spline" (write options)
    | .bezier options => .ofVariant "Bezier" (write options)
    | .polyline => .text "Polyline"
  read? t := do
    match ← t.variant? with
    | ("Spline", some options) => pure (.spline (← read? options))
    | ("Bezier", some options) => pure (.bezier (← read? options))
    | ("Polyline", none) | ("Polyline", some .null) => pure .polyline
    | _ => none

/-- The dash pattern may be missing from a record. -/
instance : Stored α (Style α) where
  write style := .record
    [("color", write style.color), ("width", write style.width), ("dash", write style.dash)]
  read? t := do
    let fields ← t.fields? ["color", "width", "dash"] false
    pure ⟨← Tree.required? fields "color", ← Tree.required? fields "width",
      ← Tree.optional? fields "dash" none⟩

instance : Stored α (Appearance α) where
  write appearance := .record
    [("style", write appearance.style), ("smoothing", write appearance.smoothing)]
  read? t := do
    let fields ← t.fields? ["style", "smoothing"] false
    pure ⟨← Tree.required? fields "style", ← Tree.required? fields "smoothing"⟩

end PenStroke.Stored
