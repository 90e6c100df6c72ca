import PenStroke.Proofs.GraphicsState

/-! What comes of writing an appearance: one text if its style can be seen, and a notice if not. -/
namespace PenStroke

open scoped Scalar
open Writing (put put_append)

section Visible
variable {α : Type} [Scalar α]

theorem Style.isVisible_iff {style : Style α} : style.isVisible = true ↔
    ∃ operator, style.colorOperator? = some operator ∧ 0 < style.width := by
  rw [isVisible, Bool.and_eq_true, Option.isSome_iff_exists, decide_eq_true_eq, exists_and_right]

theorem Style.isVisible_iff_length {style : Style α} : style.isVisible = true ↔
    style.color.length ∈ [1, 3, 4] ∧ 0 < style.width := by
  simp only [isVisible_iff, colorOperator?_eq_some_iff, exists_and_right]
  refine and_congr_left' ⟨?_, fun h => ?_⟩
  · rintro ⟨operator, h⟩
    exact List.mem_map_of_mem (f := Prod.fst) h
  · obtain ⟨⟨count, operator⟩, hmem, hcount⟩ :=
      List.mem_map.mp (show style.color.length ∈ colorOperators.map Prod.fst from h)
    exact ⟨operator, hcount ▸ hmem⟩

variable [Hypotenuse α] [Numeral α]

namespace Appearance
variable {appearance : Appearance α} {operator : String}

/-- The text of ink in a style whose color is set by an operator. -/
def stream (appearance : Appearance α) (operator : String) (ink : Ink α) : String :=
  appearance.style.stateText operator ++ (appearance.smoothing.smooth ink).path.operators

theorem deliver_of_not_isVisible (h : ¬ appearance.style.isVisible) (ink : Ink α) (sink : Sink) :
    appearance.deliver ink sink = ⟨.ok false, sink,
      #[.invisible appearance.style.color.length appearance.style.width]⟩ := by
  rw [Style.isVisible_iff, not_exists] at h
  have hnone : (appearance.style.colorOperator?.filter fun _ =>
      decide (0 < appearance.style.width)) = none := by
    rw [Option.filter_eq_none_iff]
    intro operator hoperator
    simpa using fun hwidth => h operator ⟨hoperator, hwidth⟩
  rw [deliver, hnone]

/-- The state and the path are written as one text. -/
theorem deliver_eq_put (hoperator : appearance.style.colorOperator? = some operator)
    (hwidth : 0 < appearance.style.width) (ink : Ink α) (sink : Sink) :
    (appearance.deliver ink sink).result =
        ((put (appearance.stream operator ink)).into sink).1.map (fun _ => true) ∧
      (appearance.deliver ink sink).sink =
        ((put (appearance.stream operator ink)).into sink).2 := by
  have hsome : (appearance.style.colorOperator?.filter fun _ =>
      decide (0 < appearance.style.width)) = some operator := by
    rw [hoperator, Option.filter_some, if_pos (decide_eq_true hwidth)]
  rw [stream, ← put_append, deliver, hsome]
  dsimp only
  rw [Style.writeGraphicsState_eq, Path.writeOperators_eq]
  let operators := put (appearance.smoothing.smooth ink).path.operators
  rcases hstate : (put (appearance.style.stateText operator)).into sink with ⟨_ | _, written⟩
  · have hwhole :
        (do put (appearance.style.stateText operator); operators : Writing Unit) sink = _ :=
      Writing.bind_of_error hstate
    exact ⟨congrArg (Except.map _) (congrArg Prod.fst hwhole).symm,
      (congrArg Prod.snd hwhole).symm⟩
  · have hwhole :
        (do put (appearance.style.stateText operator); operators : Writing Unit) sink = _ :=
      Writing.bind_of_ok hstate
    exact ⟨congrArg (Except.map _) (congrArg Prod.fst hwhole).symm,
      (congrArg Prod.snd hwhole).symm⟩

theorem deliver_unlimited (hoperator : appearance.style.colorOperator? = some operator)
    (hwidth : 0 < appearance.style.width) (ink : Ink α) (text : String) :
    (appearance.deliver ink ⟨text, none⟩).result = .ok true ∧
      (appearance.deliver ink ⟨text, none⟩).sink.text =
        text ++ appearance.stream operator ink := by
  obtain ⟨hresult, hsink⟩ := deliver_eq_put hoperator hwidth ink ⟨text, none⟩
  exact ⟨hresult, congrArg Sink.text hsink⟩

theorem contentStream?_eq_some (hoperator : appearance.style.colorOperator? = some operator)
    (hwidth : 0 < appearance.style.width) (ink : Ink α) :
    appearance.contentStream? ink = some (appearance.stream operator ink) := by
  obtain ⟨hresult, htext⟩ := deliver_unlimited hoperator hwidth ink ""
  rw [String.empty_append] at htext
  rw [contentStream?, Delivery.text?, hresult, htext]

theorem contentStream?_of_not_isVisible (h : ¬ appearance.style.isVisible) (ink : Ink α) :
    appearance.contentStream? ink = none := by
  rw [contentStream?, deliver_of_not_isVisible h]
  rfl

theorem isSome_contentStream?_iff (ink : Ink α) :
    (appearance.contentStream? ink).isSome ↔ appearance.style.isVisible := by
  refine ⟨fun hsome => ?_, fun hvisible => ?_⟩
  · by_contra hinvisible
    rw [contentStream?_of_not_isVisible hinvisible] at hsome
    cases hsome
  · obtain ⟨operator, hoperator, hwidth⟩ := Style.isVisible_iff.mp hvisible
    rw [contentStream?_eq_some hoperator hwidth]
    rfl

theorem result_deliver_iff (ink : Ink α) (text : String) :
    (appearance.deliver ink ⟨text, none⟩).result = .ok true ↔ appearance.style.isVisible := by
  refine ⟨fun hok => ?_, fun hvisible => ?_⟩
  · by_contra hinvisible
    rw [deliver_of_not_isVisible hinvisible] at hok
    cases hok
  · obtain ⟨operator, hoperator, hwidth⟩ := Style.isVisible_iff.mp hvisible
    exact (deliver_unlimited hoperator hwidth ink text).1

end Appearance

end Visible

section Doubles

/-- The state and the path are read from a content stream, with the numerals written. -/
theorem Appearance.readStream?_numerals {appearance : Appearance Float} {operator : String}
    (hoperator : appearance.style.colorOperator? = some operator) (ink : Ink Float) :
    readStream? (appearance.stream operator ink) = some (appearance.style.map streamNumeral,
      (appearance.smoothing.smooth ink).path.toList.map (Command.map streamNumeral)) := by
  have hlegible : Numeral.Legible [' ', '\n', '[', ']'] :=
    Binary64.legible (by simp [Binary64.marks])
  exact readStream?_append hlegible.free Binary64.numeral_ne_empty hoperator _

variable (value : String → Float) (hvalue : Function.LeftInverse value numeral)
include hvalue

/-- The state and the path are read from a content stream with rounded numbers. -/
theorem Appearance.readStream?_stream {appearance : Appearance Float} {operator : String}
    (hoperator : appearance.style.colorOperator? = some operator) (ink : Ink Float) :
    (readStream? (appearance.stream operator ink)).map
        (Prod.map (Style.map value) (List.map (Command.map value))) =
      some (appearance.style.map (Scalar.roundTo 4),
        (appearance.smoothing.smooth ink).path.toList.map (Command.map (Scalar.roundTo 4))) := by
  have hround : value ∘ streamNumeral = Scalar.roundTo 4 :=
    funext fun x => hvalue (Scalar.roundTo 4 x)
  have hcommand : Command.map value ∘ Command.map streamNumeral =
      Command.map (Scalar.roundTo (α := Float) 4) := by
    funext c
    rw [Function.comp_apply, Command.map_map, hround]
  rw [readStream?_numerals hoperator, Option.map_some, Prod.map_apply,
    Style.map_map, hround, List.map_map, hcommand]

/-- An appearance has a content stream if and only if its style can be seen, and then the state and
the path are read from it with rounded numbers. If not, that is noticed and nothing is written. -/
theorem Appearance.contentStream?_legible (appearance : Appearance Float) (ink : Ink Float) :
    let style := appearance.style
    let path := (appearance.smoothing.smooth ink).path
    (style.isVisible ↔ style.color.length ∈ [1, 3, 4] ∧ 0 < style.width) ∧
    (style.width.isNaN → ¬ style.isVisible) ∧
    (style.isVisible ↔ (appearance.contentStream? ink).isSome) ∧
    (∀ text, style.isVisible ↔ (appearance.deliver ink ⟨text, none⟩).result = .ok true) ∧
    (style.isVisible → ∃ operator text,
      (style.color.length, operator) ∈ [(1, "G"), (3, "RG"), (4, "K")] ∧
      appearance.contentStream? ink = some text ∧
      text = style.stateText operator ++ path.operators ∧
      (readStream? text).map (Prod.map (Style.map value) (List.map (Command.map value))) =
        some (style.map (Scalar.roundTo 4), path.toList.map (Command.map (Scalar.roundTo 4)))) ∧
    (¬ style.isVisible →
      (Notice.invisible style.color.length style.width).level = .debug ∧
      ∀ sink, appearance.deliver ink sink =
        ⟨.ok false, sink, #[.invisible style.color.length style.width]⟩) := by
  intro style path
  refine ⟨Style.isVisible_iff_length, fun hnan hvisible => ?_,
    (isSome_contentStream?_iff ink).symm, fun text => (result_deliver_iff ink text).symm,
    fun hvisible => ?_, fun hinvisible => ?_⟩
  · exact Binary64.not_lt_of_isNaN hnan 0 (Style.isVisible_iff_length.mp hvisible).2
  · obtain ⟨operator, hoperator, hwidth⟩ := Style.isVisible_iff.mp hvisible
    exact ⟨operator, _, Style.colorOperator?_eq_some_iff.mp hoperator,
      contentStream?_eq_some hoperator hwidth ink, rfl,
      readStream?_stream value hvalue hoperator ink⟩
  · exact ⟨rfl, fun sink => deliver_of_not_isVisible hinvisible ink sink⟩

omit hvalue in
/-- Four components, a dash pattern without lengths, and ink with a stroke that cannot be drawn. -/
theorem Appearance.contentStream?_legible_dashed :
    Function.LeftInverse (Function.invFun numeral) (numeral : Float → String) ∧
    (let appearance : Appearance Float := ⟨⟨[0, 1 / 3, 1e-9, 1], 2.5, some []⟩, .polyline⟩
    let ink : Ink Float := ⟨[⟨[⟨1, 2⟩, ⟨3, -0⟩]⟩, ⟨[⟨0 / 0, 1⟩]⟩, ⟨[]⟩]⟩
    appearance.style.isVisible ∧ ∃ text, appearance.contentStream? ink = some text ∧
      (readStream? text).map (Prod.map (Style.map (Function.invFun numeral))
          (List.map (Command.map (Function.invFun numeral)))) =
        some (appearance.style.map (Scalar.roundTo 4),
          (appearance.smoothing.smooth ink).path.toList.map
            (Command.map (Scalar.roundTo 4)))) := by
  have h := Function.leftInverse_invFun Binary64.numeral_injective
  refine ⟨h, ?_⟩
  intro appearance ink
  have hvisible : appearance.style.isVisible := by decide
  obtain ⟨-, -, -, -, hlegible, -⟩ := Appearance.contentStream?_legible _ h appearance ink
  obtain ⟨operator, text, -, htext, -, hread⟩ := hlegible hvisible
  exact ⟨hvisible, text, htext, hread⟩

end Doubles

end PenStroke
