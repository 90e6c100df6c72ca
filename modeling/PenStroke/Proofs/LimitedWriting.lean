import PenStroke.Proofs.Delivery
import PenStroke.Proofs.PathData

/-! Writing where there is room for some bytes only: as much of the text is accepted as fits. -/
namespace PenStroke

open Writing (put)

section Bytes

/-- Each character is one that takes a single byte. -/
def IsAscii (s : String) : Prop := ∀ c ∈ s.toList, c.val ≤ 127

namespace IsAscii

theorem append {s t : String} (hs : IsAscii s) (ht : IsAscii t) : IsAscii (s ++ t) := by
  rw [IsAscii, String.toList_append]
  exact List.forall_mem_append.mpr ⟨hs, ht⟩

theorem utf8ByteSize_ofList {cs : List Char} (h : ∀ c ∈ cs, c.val ≤ 127) :
    (String.ofList cs).utf8ByteSize = cs.length := by
  induction cs with
  | nil => simp
  | cons c cs ih =>
    rw [List.forall_mem_cons] at h
    have hsplit : String.ofList (c :: cs) = String.singleton c ++ String.ofList cs := by
      rw [String.singleton_eq_ofList, ← String.ofList_append]
      rfl
    rw [hsplit, String.utf8ByteSize_append, String.utf8ByteSize_singleton,
      Char.utf8Size_eq_one_iff.mpr h.1, ih h.2, List.length_cons, Nat.add_comm]

theorem utf8ByteSize_eq {s : String} (h : IsAscii s) : s.utf8ByteSize = s.length := by
  rw [← String.ofList_toList (s := s), utf8ByteSize_ofList h, String.length_ofList]

end IsAscii

/-- A character that takes more than one byte. -/
def IsWide (a : Char) : Prop := ¬ a.val ≤ 127

theorem isAscii_iff {s : String} : IsAscii s ↔ ∀ a, IsWide a → a ∉ s.toList :=
  ⟨fun h a ha hmem => ha (h a hmem), fun h c hc => by_contra fun hwide => h c hwide hc⟩

theorem IsWide.not_mem {a : Char} (ha : IsWide a) {cs : List Char} (h : ∀ c ∈ cs, c.val ≤ 127) :
    a ∉ cs := fun hmem => ha (h a hmem)

end Bytes

section Room

/-- What comes of writing a text where there is room for a number of bytes: the first of its bytes
are accepted, as many as there is room for, and the writing succeeds if these are all. -/
structure Sink.Holds {β : Type} (limit : ℕ) (text : String) (value : β)
    (outcome : Except Overflow β × Sink) : Prop where
  accepted : outcome.2.text.toList <+: text.toList
  size : outcome.2.text.utf8ByteSize = min limit text.utf8ByteSize
  result : outcome.1 = if text.utf8ByteSize ≤ limit then .ok value else .error .overflow

theorem Writing.holds_put {text : String} (h : IsAscii text) (limit : ℕ) :
    Sink.Holds limit text () ((put text).into ⟨"", some limit⟩) := by
  have hlength := h.utf8ByteSize_eq
  rcases Nat.lt_or_ge limit text.length with hlt | hle
  · have hwritten : (put text).into ⟨"", some limit⟩ = _ := put_of_gt hlt
    have htake : ∀ c ∈ text.toList.take limit, c.val ≤ 127 :=
      fun c hc => h c (List.mem_of_mem_take hc)
    rw [hwritten, String.empty_append]
    refine ⟨?_, ?_, ?_⟩
    · rw [String.toList_ofList]
      exact List.take_prefix limit _
    · rw [IsAscii.utf8ByteSize_ofList htake, List.length_take, String.length_toList, hlength]
    · rw [if_neg (by omega)]
  · have hwritten : (put text).into ⟨"", some limit⟩ = _ := put_of_le hle
    rw [hwritten, String.empty_append]
    refine ⟨List.prefix_rfl, ?_, ?_⟩
    · rw [hlength, Nat.min_eq_right hle]
    · rw [hlength, if_pos hle]

/-- An act that writes a text and then gives a value. -/
theorem Sink.Holds.map {β γ : Type} {limit : ℕ} {text : String} {value : β}
    {outcome : Except Overflow β × Sink} (h : Sink.Holds limit text value outcome) (f : β → γ) :
    Sink.Holds limit text (f value) (outcome.1.map f, outcome.2) := by
  refine ⟨h.accepted, h.size, ?_⟩
  rw [h.result]
  split <;> rfl

end Room

section Doubles

theorem IsWide.not_mem_numeral {a : Char} (ha : IsWide a) (x : Float) :
    a ∉ (numeral x).toList := by
  intro hmem
  rcases Binary64.mem_numeral hmem with hdigit | hmark
  · rw [Char.isDigit, Bool.and_eq_true, decide_eq_true_eq, decide_eq_true_eq] at hdigit
    exact ha (UInt32.le_trans hdigit.2 (by decide))
  · exact ha.not_mem (by simp [Binary64.marks]) hmark

theorem not_mem_flatMap_concat {a b : Char} (hab : a ∉ [b]) {ls : List (List Char)}
    (h : ∀ l ∈ ls, a ∉ l) : a ∉ ls.flatMap (· ++ [b]) := by
  intro hmem
  obtain ⟨l, hl, hmem⟩ := List.mem_flatMap.mp hmem
  exact (List.mem_append.mp hmem).elim (h l hl) hab

theorem Path.isAscii_svg (path : Path Float) : IsAscii path.svg := by
  refine isAscii_iff.mpr fun a ha => ?_
  rw [toList_svg]
  exact not_mem_intercalate (ha.not_mem (by simp))
    (path.not_mem_words (ha.not_mem (by simp)) ha.not_mem_numeral)

theorem Path.isAscii_operators (path : Path Float) : IsAscii path.operators := by
  refine isAscii_iff.mpr fun a ha => ?_
  rw [toList_operators]
  refine not_mem_flatMap_concat (ha.not_mem (by simp)) (List.forall_mem_map.mpr fun c _ => ?_)
  exact c.not_mem_line (ha.not_mem (by simp)) fun x => ha.not_mem_numeral _

theorem Style.isAscii_stateText {style : Style Float} {operator : String}
    (h : style.colorOperator? = some operator) : IsAscii (style.stateText operator) := by
  refine isAscii_iff.mpr fun a ha => ?_
  rw [toList_stateText]
  exact not_mem_flatMap_concat (ha.not_mem (by simp))
    (not_mem_stateLines (ha.not_mem (by simp)) (fun x => ha.not_mem_numeral _) h)

/-- Where there is room for some bytes, the first bytes of each text are written, as many as there
is room for, and the writing succeeds if these are all; so it is for path data, for operators and
for content streams. If there is nothing to show, nothing is written and the writing succeeds. -/
theorem Writing.limited (limit : ℕ) :
    (∀ path : Path Float,
      Sink.Holds limit path.svg () (path.writeAsSvg.into ⟨"", some limit⟩) ∧
      Sink.Holds limit path.operators () (path.writeOperators.into ⟨"", some limit⟩)) ∧
    ∀ (appearance : Appearance Float) (ink : Ink Float),
      let delivery := appearance.deliver ink ⟨"", some limit⟩
      (appearance.style.isVisible → ∃ text, appearance.contentStream? ink = some text ∧
        Sink.Holds limit text true (delivery.result, delivery.sink)) ∧
      (¬ appearance.style.isVisible → delivery.result = .ok false ∧ delivery.sink.text = "") := by
  refine ⟨fun path => ⟨?_, ?_⟩, fun appearance ink => ⟨fun hvisible => ?_, fun hinvisible => ?_⟩⟩
  · rw [Path.writeAsSvg_eq]
    exact holds_put path.isAscii_svg limit
  · rw [Path.writeOperators_eq]
    exact holds_put path.isAscii_operators limit
  · obtain ⟨operator, hoperator, hwidth⟩ := Style.isVisible_iff.mp hvisible
    obtain ⟨hresult, hsink⟩ := Appearance.deliver_eq_put hoperator hwidth ink ⟨"", some limit⟩
    refine ⟨_, Appearance.contentStream?_eq_some hoperator hwidth ink, ?_⟩
    rw [hresult, hsink]
    exact (holds_put ((Style.isAscii_stateText hoperator).append
      (Path.isAscii_operators _)) limit).map fun _ => true
  · rw [Appearance.deliver_of_not_isVisible hinvisible]
    exact ⟨rfl, rfl⟩

end Doubles

end PenStroke
