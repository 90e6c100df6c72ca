import PenStroke.Output.ContentStream
import PenStroke.Smoothing.Basic

/-! Appearances: ink drawn in a style as the content stream of an annotation. -/

namespace PenStroke

open scoped Scalar

open Writing (put)

/-- How strokes look. -/
structure Style (α : Type) where
  /-- The components of the color: one for gray, three for RGB and four for CMYK. -/
  color : List α
  /-- The width of the line. -/
  width : α
  /-- The lengths of dashes and gaps, if the line is dashed. -/
  dash : Option (List α)
  deriving BEq

namespace Style

variable {α : Type} [Scalar α]

/-- A solid black line of width one. -/
def standard : Style α := ⟨[0], 1, none⟩

instance : Inhabited (Style α) := ⟨standard⟩

/-- The operator that sets a color of as many components, if there is one. -/
def colorOperator? (style : Style α) : Option String :=
  match style.color.length with
  | 1 => some "G"
  | 3 => some "RG"
  | 4 => some "K"
  | _ => none

/-- Whether a stroke in this style can be written and seen: its color has an operator and its width
is positive. -/
def isVisible (style : Style α) : Bool := style.colorOperator?.isSome && decide (0 < style.width)

variable [Numeral α]

/-- Writes the lengths of a dash pattern with blanks between them. -/
def writeDash (isFirst : Bool) : List α → Writing Unit
  | [] => pure ()
  | len :: rest => do
    unless isFirst do put " "
    putNumber len
    writeDash false rest

/-- Writes the state of the graphics: the color and its operator, the width, and the dash pattern
if there is one. -/
def writeGraphicsState (style : Style α) (operator : String) : Writing Unit := do
  style.color.forM fun c => do
    putNumber c
    put " "
  put (operator ++ "\n")
  putNumber style.width
  put " w\n"
  match style.dash with
  | none => pure ()
  | some lengths =>
    put "["
    writeDash true lengths
    put "] 0 d\n"

end Style

/-- A style, and the way to smooth the ink that is drawn in it. -/
structure Appearance (α : Type) where
  style : Style α
  smoothing : Smoothing α
  deriving BEq

/-- What came of writing an appearance: whether there was anything to show, what was written, and
the notices given. -/
structure Delivery (α : Type) where
  result : Except Overflow Bool
  sink : Sink
  notices : Array (Notice α)

/-- The text delivered; none if there is nothing to show. -/
def Delivery.text? {α : Type} (delivery : Delivery α) : Option String :=
  match delivery.result with
  | .ok true => some delivery.sink.text
  | _ => none

namespace Appearance

variable {α : Type} [Scalar α]

def standard : Appearance α := ⟨.standard, .standard⟩

instance : Inhabited (Appearance α) := ⟨standard⟩

variable [Hypotenuse α] [Numeral α]

/-- Writes the ink. A style that shows nothing is noticed and nothing is written. The ink is
smoothed only when the state of the graphics has been written. -/
def deliver (appearance : Appearance α) (ink : Ink α) (sink : Sink) : Delivery α :=
  let style := appearance.style
  match style.colorOperator?.filter fun _ => decide (0 < style.width) with
  | none => ⟨.ok false, sink, #[.invisible style.color.length style.width]⟩
  | some operator =>
    match (style.writeGraphicsState operator).into sink with
    | (.error e, sink) => ⟨.error e, sink, #[]⟩
    | (.ok (), sink) =>
      let canvas := appearance.smoothing.smooth ink
      let (result, sink) := canvas.path.writeOperators.into sink
      ⟨result.map fun _ => true, sink, canvas.notices⟩

/-- The content stream; none if there is nothing to show. -/
def contentStream? (appearance : Appearance α) (ink : Ink α) : Option String :=
  (appearance.deliver ink {}).text?

end Appearance

end PenStroke
