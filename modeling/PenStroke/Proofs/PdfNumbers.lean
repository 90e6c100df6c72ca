import PenStroke.Proofs.Delivery
import PenStroke.Proofs.DoubleArithmetic
import PenStroke.Proofs.SmoothedInk

/-! The numbers in a content stream. A finite value is written as a number of PDF; one that is not
finite passes the rounding and is written by its name, which is no number of PDF. -/
namespace PenStroke

section Grammar

def isDigits (cs : List Char) : Bool := !cs.isEmpty && cs.all Char.isDigit

/-- Whether a text without a sign is a number of PDF: digits, and a decimal fraction or none. -/
def isUnsignedPdfNumber (cs : List Char) : Bool :=
  match cs.splitOn '.' with
  | [whole] => isDigits whole
  | [whole, fraction] => isDigits whole && isDigits fraction
  | _ => false

/-- Whether a text is a number of PDF. A minus sign may stand in front. -/
def isPdfNumber (text : String) : Bool :=
  match text.toList with
  | '-' :: cs => isUnsignedPdfNumber cs
  | cs => isUnsignedPdfNumber cs

variable {cs ds : List Char}

theorem isDigits_iff : isDigits cs = true ↔ cs ≠ [] ∧ ∀ c ∈ cs, c.isDigit := by
  simp [isDigits]

theorem point_not_mem (h : ∀ c ∈ cs, c.isDigit) : '.' ∉ cs :=
  fun hmem => absurd (h _ hmem) (by decide)

theorem isUnsignedPdfNumber_whole (h : isDigits cs = true) : isUnsignedPdfNumber cs = true := by
  obtain ⟨-, hdigits⟩ := isDigits_iff.mp h
  rw [isUnsignedPdfNumber, List.splitOn_eq_singleton (point_not_mem hdigits)]
  exact h

theorem isUnsignedPdfNumber_point (hwhole : isDigits cs = true) (hfraction : isDigits ds = true) :
    isUnsignedPdfNumber (cs ++ '.' :: ds) = true := by
  obtain ⟨-, hcs⟩ := isDigits_iff.mp hwhole
  obtain ⟨-, hds⟩ := isDigits_iff.mp hfraction
  rw [isUnsignedPdfNumber, List.splitOn_append_cons_self_of_not_mem (point_not_mem hcs),
    List.splitOn_eq_singleton (point_not_mem hds)]
  simp [hwhole, hfraction]

/-- Positional notation is a number, with a digit on both sides of the point if it has one. -/
theorem Decimal.isUnsignedPdfNumber_positional (d : Decimal) :
    isUnsignedPdfNumber d.positional = true := by
  obtain ⟨coefficient, zeros | n⟩ := d
  · refine isUnsignedPdfNumber_whole (isDigits_iff.mpr ⟨?_, ?_⟩)
    · exact List.append_ne_nil_of_left_ne_nil Nat.toDigits_ne_nil _
    · exact List.forall_mem_append.mpr ⟨isDigit_digits _, isDigit_zeros _⟩
  · obtain ⟨whole, fraction, hpositional, hne, hlength, hwhole, hfraction, -⟩ :=
      exists_positional_negSucc coefficient n
    have hne' : fraction ≠ [] := List.ne_nil_of_length_eq_add_one hlength
    rw [hpositional]
    exact isUnsignedPdfNumber_point (isDigits_iff.mpr ⟨hne, hwhole⟩)
      (isDigits_iff.mpr ⟨hne', hfraction⟩)

end Grammar

namespace Binary64

open Float.Model Float.Model.UnpackedFloat

/-- A minus sign in front is told from digits. -/
theorem isPdfNumber_of_toList {text : String} {s : Sign} {cs : List Char}
    (h : text.toList = signText false s ++ cs) (hminus : '-' ∉ cs) :
    isPdfNumber text = isUnsignedPdfNumber cs := by
  rw [isPdfNumber, h]
  cases s with
  | negative => rfl
  | positive =>
    rw [show signText false .positive ++ cs = cs from rfl]
    split
    · exact absurd List.mem_cons_self hminus
    · rfl

/-- The doubles that are written as numbers are the finite ones. -/
theorem isPdfNumber_numeral (x : Float) : isPdfNumber (numeral x) = x.isFinite := by
  rw [isPdfNumber_of_toList (toList_numeral x) (minus_not_mem_unsignedText _)]
  change _ = (parts x).isFinite
  cases parts x with
  | notANumber => decide
  | infinity s => cases s <;> decide
  | zero s => exact Decimal.isUnsignedPdfNumber_positional ⟨0, 0⟩
  | finite s m e hm => exact Decimal.isUnsignedPdfNumber_positional _

theorem isPdfNumber_streamNumeral (x : Float) : isPdfNumber (streamNumeral x) = x.isFinite := by
  rw [streamNumeral, isPdfNumber_numeral, isFinite_roundTo]

/-- What is written for a value that is not finite. -/
def names : List String := ["NaN", "inf", "-inf"]

theorem numeral_mem_names {x : Float} (h : x.isFinite = false) : numeral x ∈ names := by
  change (parts x).isFinite = false at h
  have htext := toList_numeral x
  cases hx : parts x with
  | zero s | finite s m e hm => rw [hx] at h; cases h
  | notANumber =>
    have hnumeral : numeral x = "NaN" := by
      rw [← String.toList_inj, htext, hx]
      rfl
    rw [hnumeral]
    decide
  | infinity s =>
    have hnumeral : numeral x = String.ofList (signText false s ++ "inf".toList) := by
      rw [← String.toList_inj, htext, hx, String.toList_ofList]
      rfl
    rw [hnumeral]
    cases s <;> decide

theorem streamNumeral_mem_names_iff {x : Float} :
    streamNumeral x ∈ names ↔ x.isFinite = false := by
  constructor
  · intro h
    have hnames : ∀ s ∈ names, isPdfNumber s = false := by decide
    rw [← isPdfNumber_streamNumeral, hnames _ h]
  · intro h
    exact numeral_mem_names (by rw [isFinite_roundTo, h])

end Binary64

section Numbers
variable {α β : Type}

def Point.numbers (p : Point α) : List α := [p.x, p.y]

/-- The operands of a command in order. -/
def Command.numbers : Command α → List α
  | .moveTo p | .lineTo p => p.numbers
  | .curveTo first second p => first.numbers ++ second.numbers ++ p.numbers
  | .stroke => []

def Style.numbers (style : Style α) : List α :=
  style.color ++ style.width :: style.dash.getD []

theorem Command.numbers_map (f : α → β) (c : Command α) :
    (c.map f).numbers = c.numbers.map f := by
  cases c <;> rfl

theorem Style.numbers_map (f : α → β) (style : Style α) :
    (style.map f).numbers = style.numbers.map f := by
  obtain ⟨color, width, dash⟩ := style
  cases dash <;> simp [numbers, map]

/-- The numbers that stand in a content stream, as they are written. -/
def streamNumbers? (text : String) : Option (List String) :=
  (readStream? text).map fun read => read.1.numbers ++ read.2.flatMap Command.numbers

variable [Scalar α] [Hypotenuse α]

/-- The values that an appearance writes: those of the style, and the coordinates drawn. -/
def Appearance.numbers (appearance : Appearance α) (ink : Ink α) : List α :=
  appearance.style.numbers ++
    (appearance.smoothing.smooth ink).path.toList.flatMap Command.numbers

theorem Appearance.streamNumbers?_stream {appearance : Appearance Float} {operator : String}
    (hoperator : appearance.style.colorOperator? = some operator) (ink : Ink Float) :
    streamNumbers? (appearance.stream operator ink) =
      some ((appearance.numbers ink).map streamNumeral) := by
  rw [streamNumbers?, readStream?_numerals hoperator, Option.map_some]
  simp only [Style.numbers_map, List.flatMap_map, Command.numbers_map, numbers, List.map_append,
    List.map_flatMap]

end Numbers

section Lines
variable {α : Type}

/-- Straight lines go from point to point of the stroke. -/
theorem Polyline.mem_drawPoints {canvas : Canvas α} {points : List (Point α)} {c : Command α}
    (h : c ∈ (drawPoints canvas points).path.toList) : c ∈ canvas.path.toList ∨ c = .stroke ∨
      ∃ p ∈ points, c = .moveTo p ∨ c = .lineTo p := by
  rcases points with _ | ⟨p, _ | ⟨q, rest⟩⟩
  · exact .inl h
  · have hc : c ∈ canvas.path.toList ∨ c = .moveTo p ∨ c = .lineTo p ∨ c = .stroke := by
      simpa [drawPoints] using h
    rcases hc with hc | hc | hc | hc
    · exact .inl hc
    · exact .inr (.inr ⟨p, List.mem_cons_self, .inl hc⟩)
    · exact .inr (.inr ⟨p, List.mem_cons_self, .inr hc⟩)
    · exact .inr (.inl hc)
  · have hc :
        c ∈ canvas.path.toList ∨ c = .moveTo p ∨ c ∈ (q :: rest).map .lineTo ∨ c = .stroke := by
      simpa [drawPoints, foldl_lineTo, or_assoc] using h
    rcases hc with hc | hc | hc | hc
    · exact .inl hc
    · exact .inr (.inr ⟨p, List.mem_cons_self, .inl hc⟩)
    · obtain ⟨r, hr, rfl⟩ := List.mem_map.mp hc
      exact .inr (.inr ⟨r, List.mem_cons_of_mem _ hr, .inr rfl⟩)
    · exact .inr (.inl hc)

/-- Coordinates drawn with straight lines are finite, since broken strokes are skipped. -/
theorem Smoothing.isFinite_of_figure_polyline [Hypotenuse Float] {stroke : Stroke Float}
    {c : Command Float} {x : Float} (hc : c ∈ Smoothing.polyline.figure stroke)
    (hx : x ∈ c.numbers) : x.isFinite = true := by
  cases hfault : stroke.fault? with
  | some fault => simp [figure_of_fault _ hfault] at hc
  | none =>
    have hfinite := Stroke.fault?_eq_none_iff.mp hfault
    rw [figure, draw, Polyline.draw_of_finite hfinite] at hc
    have hpoint (p : Point Float) (hp : p ∈ stroke.points) (hx : x ∈ p.numbers) :
        x.isFinite = true := by
      have hboth : (p.x.isFinite && p.y.isFinite) = true := hfinite p hp
      rw [Bool.and_eq_true] at hboth
      simp only [Point.numbers, List.mem_cons, List.not_mem_nil, or_false] at hx
      rcases hx with rfl | rfl
      · exact hboth.1
      · exact hboth.2
    rcases Polyline.mem_drawPoints hc with hnone | rfl | ⟨p, hp, rfl | rfl⟩
    · simp at hnone
    · simp [Command.numbers] at hx
    · exact hpoint p hp hx
    · exact hpoint p hp hx

theorem Smoothing.isFinite_of_polyline {ink : Ink Float} {x : Float}
    (h : x ∈ (Smoothing.polyline.smooth ink).path.toList.flatMap Command.numbers) :
    x.isFinite = true := by
  rw [smooth_eq, Canvas.toList_path_of, List.mem_flatMap] at h
  obtain ⟨c, hc, hx⟩ := h
  obtain ⟨stroke, -, hc⟩ := List.mem_flatMap.mp hc
  exact isFinite_of_figure_polyline hc hx

end Lines

/-- The numbers of a content stream are the values of the style and of the path, rounded. Those
that are finite are numbers of PDF and the others are not, so that a style that can be seen is
expressed if and only if its own numbers and all coordinates drawn are finite. Straight lines are
finite always. -/
theorem Appearance.pdf_numbers_iff (appearance : Appearance Float) (ink : Ink Float)
    (hvisible : appearance.style.isVisible) :
    ∃ text numbers, appearance.contentStream? ink = some text ∧
      streamNumbers? text = some numbers ∧
      numbers = (appearance.numbers ink).map streamNumeral ∧
      (∀ x ∈ appearance.numbers ink, (isPdfNumber (streamNumeral x) ↔ x.isFinite) ∧
        (streamNumeral x ∈ ["NaN", "inf", "-inf"] ↔ ¬ x.isFinite)) ∧
      ((∀ s ∈ numbers, isPdfNumber s) ↔ (∀ x ∈ appearance.style.numbers, x.isFinite) ∧
        ∀ x ∈ (appearance.smoothing.smooth ink).path.toList.flatMap Command.numbers, x.isFinite) ∧
      (appearance.smoothing = .polyline →
        ((∀ s ∈ numbers, isPdfNumber s) ↔ ∀ x ∈ appearance.style.numbers, x.isFinite)) := by
  obtain ⟨operator, hoperator, hwidth⟩ := Style.isVisible_iff.mp hvisible
  have hall : (∀ s ∈ (appearance.numbers ink).map streamNumeral, isPdfNumber s) ↔
      (∀ x ∈ appearance.style.numbers, x.isFinite) ∧
        ∀ x ∈ (appearance.smoothing.smooth ink).path.toList.flatMap Command.numbers,
          x.isFinite := by
    simp only [List.forall_mem_map, Binary64.isPdfNumber_streamNumeral]
    exact List.forall_mem_append
  refine ⟨_, _, contentStream?_eq_some hoperator hwidth ink,
    streamNumbers?_stream hoperator ink, rfl, fun x _ => ⟨?_, ?_⟩, hall, fun hpolyline => ?_⟩
  · rw [Binary64.isPdfNumber_streamNumeral]
  · rw [Bool.not_eq_true]
    exact Binary64.streamNumeral_mem_names_iff
  · rw [hall, and_iff_left]
    rw [hpolyline]
    exact fun x => Smoothing.isFinite_of_polyline

/-- A dashed style with straight lines, and ink with a stroke that cannot be drawn. -/
theorem Appearance.pdf_numbers_iff_dashed :
    let appearance : Appearance Float := ⟨⟨[1 / 2], 2, some [3, 1]⟩, .polyline⟩
    let ink : Ink Float := ⟨[⟨[⟨1, 2⟩, ⟨3, -0⟩]⟩, ⟨[⟨0 / 0, 1⟩]⟩]⟩
    appearance.style.isVisible ∧ ∃ text numbers, appearance.contentStream? ink = some text ∧
      streamNumbers? text = some numbers ∧ ∀ s ∈ numbers, isPdfNumber s := by
  intro appearance ink
  have hvisible : appearance.style.isVisible := by decide +kernel
  have hfinite : ∀ x ∈ appearance.style.numbers, x.isFinite := by decide +kernel
  obtain ⟨text, numbers, htext, hread, -, -, -, hpolyline⟩ :=
    Appearance.pdf_numbers_iff appearance ink hvisible
  exact ⟨hvisible, text, numbers, htext, hread, (hpolyline rfl).mpr hfinite⟩

/-- An infinite width is positive, so the style can be seen, and the name
of infinity is written. -/
theorem Appearance.infinite_width_written :
    let appearance : Appearance Float := ⟨⟨[0], 1 / 0, none⟩, .polyline⟩
    let ink : Ink Float := ⟨[⟨[⟨0, 0⟩, ⟨10, 0⟩]⟩]⟩
    let text := "0 G\ninf w\n0 0 m\n10 0 l\nS\n"
    appearance.style.isVisible ∧ appearance.contentStream? ink = some text ∧
      streamNumbers? text = some ["0", "inf", "0", "0", "10", "0"] ∧ ¬ isPdfNumber "inf" := by
  decide +kernel

end PenStroke
