import PenStroke.Decimal.Binary64
import PenStroke.Proofs.ShortestDecimal

/-! The texts of doubles: which characters they have, and that they tell the doubles apart. -/
namespace PenStroke

namespace Binary64

open Float.Model Float.Model.UnpackedFloat Decimal

/-- The sign that is written; undefined values have none. -/
def signOf : UnpackedFloat → Sign
  | .infinity s | .zero s | .finite s _ _ _ => s
  | .notANumber => .positive

/-- What is written after the sign. -/
def unsignedText : UnpackedFloat → List Char
  | .notANumber => "NaN".toList
  | .infinity _ => "inf".toList
  | .zero _ => (⟨0, 0⟩ : Decimal).positional
  | .finite _ m e _ => (shortest m e).positional

theorem write_coordinate (d : Decimal) : d.write .coordinate = d.positional := by
  simp [write, Layout.coordinate]

theorem textChars_coordinate (x : Float) : textChars .coordinate {} x =
    signText false (signOf (parts x)) ++ unsignedText (parts x) := by
  unfold textChars
  cases parts x with
  | notANumber => rfl
  | infinity s => rfl
  | zero s => simp only [zeroText, write_coordinate, signOf, unsignedText]
  | finite s m e hm => simp only [magnitudeText, write_coordinate, signOf, unsignedText]

theorem toList_numeral (x : Float) : (numeral x).toList =
    signText false (signOf (parts x)) ++ unsignedText (parts x) := by
  rw [← textChars_coordinate]
  simp [numeral, coordinateText]

/-- The letters and marks in texts of doubles beside the digits. -/
def marks : List Char := ['.', '-', 'N', 'a', 'i', 'n', 'f']

theorem mem_marks_of_positional {d : Decimal} {c : Char} (h : c ∈ d.positional) :
    c.isDigit ∨ c ∈ marks ∧ c ≠ '-' := by
  rcases mem_positional h with h | rfl
  · exact .inl h
  · exact .inr (by decide)

theorem mem_unsignedText {p : UnpackedFloat} {c : Char} (h : c ∈ unsignedText p) :
    c.isDigit ∨ c ∈ marks ∧ c ≠ '-' := by
  cases p with
  | notANumber =>
    have hletters : ∀ c ∈ "NaN".toList, c ∈ marks ∧ c ≠ '-' := by simp [marks]
    exact .inr (hletters c h)
  | infinity s =>
    have hletters : ∀ c ∈ "inf".toList, c ∈ marks ∧ c ≠ '-' := by simp [marks]
    exact .inr (hletters c h)
  | zero s => exact mem_marks_of_positional (d := ⟨0, 0⟩) h
  | finite s m e hm => exact mem_marks_of_positional (d := shortest m e) h

theorem minus_not_mem_unsignedText (p : UnpackedFloat) : '-' ∉ unsignedText p := by
  intro h
  rcases mem_unsignedText h with h | ⟨-, h⟩
  · exact absurd h (by decide)
  · exact h rfl

/-- Texts of doubles have digits, marks and nothing else. -/
theorem mem_numeral {x : Float} {c : Char} (h : c ∈ (numeral x).toList) :
    c.isDigit ∨ c ∈ marks := by
  rw [toList_numeral] at h
  rcases List.mem_append.mp h with h | h
  · cases hs : signOf (parts x) with
    | positive => simp [hs, signText] at h
    | negative =>
      obtain rfl : c = '-' := by simpa [hs, signText] using h
      exact .inr (by decide)
  · exact (mem_unsignedText h).imp_right And.left

theorem positional_ne_nil (d : Decimal) : d.positional ≠ [] := by
  unfold positional
  dsimp only
  split
  · exact List.append_ne_nil_of_left_ne_nil Nat.toDigits_ne_nil _
  · exact List.append_ne_nil_of_right_ne_nil _ (List.cons_ne_nil _ _)

theorem numeral_ne_empty (x : Float) : numeral x ≠ "" := by
  have hunsigned : unsignedText (parts x) ≠ [] := by
    cases parts x with
    | notANumber | infinity s => simp [unsignedText]
    | zero s => exact positional_ne_nil ⟨0, 0⟩
    | finite s m e hm => exact positional_ne_nil (shortest m e)
  rw [Ne, ← String.toList_eq_nil_iff, toList_numeral]
  exact List.append_ne_nil_of_right_ne_nil _ hunsigned

section Distinct

theorem signText_append_inj {s t : Sign} {cs ds : List Char} (hcs : '-' ∉ cs) (hds : '-' ∉ ds)
    (h : signText false s ++ cs = signText false t ++ ds) : s = t ∧ cs = ds := by
  rcases s with _ | _ <;> rcases t with _ | _
  · exact ⟨rfl, (List.cons.inj h).2⟩
  · obtain rfl : '-' :: cs = ds := h
    exact absurd List.mem_cons_self hds
  · obtain rfl : cs = '-' :: ds := h
    exact absurd List.mem_cons_self hcs
  · exact ⟨rfl, h⟩

/-- A letter tells what is not a number; positional notation has none. -/
theorem letter_mem_iff (p : UnpackedFloat) :
    ('N' ∈ unsignedText p ↔ p = .notANumber) ∧ ('i' ∈ unsignedText p ↔ ∃ s, p = .infinity s) := by
  have hnumber (d : Decimal) : 'N' ∉ d.positional ∧ 'i' ∉ d.positional := by
    constructor <;> intro h <;> rcases mem_positional h with h | h <;> exact absurd h (by decide)
  cases p with
  | notANumber => simp [unsignedText]
  | infinity s => simp [unsignedText]
  | zero s => simp [unsignedText, hnumber]
  | finite s m e hm => simp [unsignedText, hnumber]

/-- Whether mantissa and exponent of a value are those of a double. -/
def IsDouble (p : UnpackedFloat) : Prop :=
  ∀ s m e hm, p = .finite s m e hm → Canonical m e

theorem isDouble_parts (x : Float) : IsDouble (parts x) :=
  fun _ _ _ _ h => canonical_of_parts h

/-- The sign and the text after it tell a double. -/
theorem eq_of_unsignedText {p q : UnpackedFloat} (hp : IsDouble p) (hq : IsDouble q)
    (hsign : signOf p = signOf q) (h : unsignedText p = unsignedText q) : p = q := by
  have hnan : p = .notANumber ↔ q = .notANumber := by
    rw [← (letter_mem_iff p).1, h, (letter_mem_iff q).1]
  have hinfinity : (∃ s, p = .infinity s) ↔ ∃ s, q = .infinity s := by
    rw [← (letter_mem_iff p).2, h, (letter_mem_iff q).2]
  have hvalue := congrArg ofText h
  cases p with
  | notANumber => exact (hnan.mp rfl).symm
  | infinity s =>
    obtain ⟨t, rfl⟩ := hinfinity.mp ⟨s, rfl⟩
    exact congrArg _ hsign
  | zero s =>
    cases q with
    | notANumber => simp at hnan
    | infinity t => simp at hinfinity
    | zero t => exact congrArg _ hsign
    | finite t n f hn =>
      have hpos := value_shortest_pos (hq _ _ _ _ rfl)
      simp only [unsignedText, ofText_positional] at hvalue
      rw [← hvalue] at hpos
      simp [value] at hpos
  | finite s m e hm =>
    have hm := hp _ _ _ _ rfl
    cases q with
    | notANumber => simp at hnan
    | infinity t => simp at hinfinity
    | zero t =>
      have hpos := value_shortest_pos hm
      simp only [unsignedText, ofText_positional] at hvalue
      rw [hvalue] at hpos
      simp [value] at hpos
    | finite t n f hn =>
      simp only [unsignedText, ofText_positional] at hvalue
      obtain ⟨rfl, rfl⟩ := eq_of_value_shortest_eq hm (hq _ _ _ _ rfl) hvalue
      obtain rfl : s = t := hsign
      rfl

theorem numeral_injective : Function.Injective (numeral : Float → String) := by
  intro x y h
  have htext := congrArg String.toList h
  rw [toList_numeral, toList_numeral] at htext
  obtain ⟨hsign, hunsigned⟩ := signText_append_inj (minus_not_mem_unsignedText _)
    (minus_not_mem_unsignedText _) htext
  exact parts_injective (eq_of_unsignedText (isDouble_parts x) (isDouble_parts y) hsign hunsigned)

end Distinct

end Binary64

/-- Numerals of doubles that use no reserved character and tell different doubles apart. -/
structure Numeral.Legible [Numeral Float] (reserved : List Char) : Prop where
  free : ∀ (x : Float), ∀ c ∈ reserved, c ∉ (numeral x).toList
  distinct : ∀ x y : Float, numeral x = numeral y → x = y ∨ x.isNaN ∧ y.isNaN

theorem Binary64.legible {reserved : List Char} (h : ∀ c ∈ reserved, ¬ c.isDigit ∧ c ∉ marks) :
    Numeral.Legible reserved where
  free _ c hc hmem := (mem_numeral hmem).elim (h c hc).1 (h c hc).2
  distinct _ _ hxy := .inl (numeral_injective hxy)

end PenStroke
