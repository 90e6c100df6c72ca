import PenStroke.Proofs.NearestDouble
import PenStroke.Proofs.PdfNumbers

/-! Decimal places in a content stream. A value is rounded in binary, but it stays nearest to a
whole number of ten-thousandths, and the shortest decimal has no more places than that. -/
namespace PenStroke

namespace Decimal

variable {m n : ℕ} {e power : ℤ}

/-- A decimal that a double is nearest to has at least as many places as the shortest one. -/
theorem le_exponent_shortest (hm : 0 < m) (hm' : m < 2 ^ 53)
    (h : (Bracket.ofDouble m e).Contains (n * 10 ^ power)) (hle : (10 : ℚ) ^ power ≤ m * 2 ^ e) :
    power ≤ (shortest m e).exponent := by
  have hden := Bracket.den_ofDouble_pos m e
  have htop : power < (Bracket.ofDouble m e).magnitude := by
    rw [← Bracket.middle_ofDouble_eq] at hle
    exact (zpow_lt_zpow_iff_right₀ (by norm_num)).mp
      (hle.trans_lt (Bracket.lt_zpow_magnitude hden (Bracket.value_ofDouble_pos hm e)))
  obtain ⟨c, k, power', hpower, hshortest, -, hbefore⟩ := exists_shortest hm hm' e
  rw [hshortest]
  refine le_trans ?_ (le_exponent_trim c power')
  by_contra! hlt
  -- The larger unit was tried first, and a number of it is in the bracket.
  obtain ⟨j, hj⟩ : ∃ j : ℕ, power = (Bracket.ofDouble m e).magnitude - (j + 1 : ℕ) :=
    ⟨((Bracket.ofDouble m e).magnitude - power - 1).toNat, by omega⟩
  obtain ⟨c, hc⟩ := Bracket.exists_nearest?_of_contains (Bracket.den_inUnits_pos hden power)
    (n := n) (by
      rw [Bracket.contains_inUnits, Bracket.middle_inUnits,
        div_mul_cancel₀ _ (by positivity : (10 : ℚ) ^ power ≠ 0), Bracket.middle_ofDouble_eq]
      exact Bracket.contains_self hm)
    ((Bracket.contains_inUnits power).mpr h)
  have hnone := hbefore j (by omega)
  rw [← hj, hc] at hnone
  cases hnone

end Decimal

section Texts

/-- The number of digits after the point. -/
def decimalPlaces (text : String) : ℕ := (text.toList.dropWhile (· != '.')).tail.length

open Float.Model.UnpackedFloat (Sign)

theorem decimalPlaces_of_toList {text : String} {s : Sign} {d : Decimal}
    (h : text.toList = Binary64.signText false s ++ d.positional) {places : ℕ}
    (hd : -(places : ℤ) ≤ d.exponent) : decimalPlaces text ≤ places := by
  have hunsigned : text.toList.dropWhile (· != '.') = d.positional.dropWhile (· != '.') := by
    rw [h]
    cases s with
    | negative => exact List.dropWhile_cons_of_pos (by decide)
    | positive => rfl
  rw [decimalPlaces, hunsigned]
  obtain ⟨coefficient, zeros | k⟩ := d
  · have hdigits : ∀ c ∈ Decimal.positional ⟨coefficient, .ofNat zeros⟩, c.isDigit :=
      List.forall_mem_append.mpr ⟨Decimal.isDigit_digits _, Decimal.isDigit_zeros _⟩
    rw [Decimal.dropWhile_whole hdigits]
    exact Nat.zero_le _
  · obtain ⟨whole, fraction, hpositional, -, hlength, hwhole, -⟩ :=
      Decimal.exists_positional_negSucc coefficient k
    rw [hpositional, Decimal.dropWhile_point hwhole, List.tail_cons, hlength]
    change -(places : ℤ) ≤ Int.negSucc k at hd
    omega

end Texts

namespace Binary64

open Decimal (Bracket shortest)
open Float.Model Float.Model.UnpackedFloat

section Rounding
variable {x : Float} {s t : Sign} {m n : ℕ} {e : ℤ} {hm : 0 < m}

/-- The double next to a ten-thousandth is a little above it. -/
theorem tenThousandth_le (h : Canonical m e)
    (hcontains : (Bracket.ofDouble m e).Contains (10 ^ (-4 : ℤ))) :
    (10 : ℚ) ^ (-4 : ℤ) ≤ m * 2 ^ e := by
  have hnearest : Canonical 7378697629483821 (-66) :=
    ⟨by decide, by decide, by decide, by decide, .inl (by decide)⟩
  have hbracket : (Bracket.ofDouble 7378697629483821 (-66)).Contains (10 ^ (-4 : ℤ)) := by
    apply Bracket.contains_of_lt
    · rw [Bracket.lower_ofDouble (by decide), Bracket.lowerGap]
      norm_num
    · rw [Bracket.upper_ofDouble]
      norm_num
  obtain ⟨rfl, rfl⟩ := Bracket.eq_of_contains h hnearest hcontains hbracket
  norm_num

/-- A quotient by ten thousand is in the bracket of what it is rounded to, which is not below a
ten-thousandth. -/
theorem contains_div_tenThousand (hx : InRange s (parts x)) (hn : magnitude (parts x) = n)
    (h : parts (x / Float.ofNat 10000) = .finite t m e hm) :
    (Bracket.ofDouble m e).Contains (n * 10 ^ (-4 : ℤ)) ∧ (10 : ℚ) ^ (-4 : ℤ) ≤ m * 2 ^ e := by
  obtain ⟨hscale, hscale'⟩ := inRange_ofNat (n := 10000) (by decide)
  have hne : magnitude (parts (Float.ofNat 10000)) ≠ 0 := by
    rw [hscale']
    norm_num
  have hquotient : magnitude (parts x) / magnitude (parts (Float.ofNat 10000)) =
      n * 10 ^ (-4 : ℤ) := by
    rw [hn, hscale', zpow_neg, div_eq_mul_inv]
    norm_num
  have hle :
      magnitude (parts x) / magnitude (parts (Float.ofNat 10000)) ≤ magnitude (parts x) := by
    rw [hscale']
    exact div_le_self (magnitude_nonneg _) (by norm_num)
  have hcontains := contains_div hx hscale hne hx.isMagnitude hle h
  have hrounded := rounded_div hx hscale hne hx.isMagnitude hle
  rw [hquotient] at hcontains hrounded
  refine ⟨hcontains, ?_⟩
  have hvalue : magnitude (parts (x / Float.ofNat 10000)) = m * 2 ^ e := by
    rw [h]
    rfl
  rcases n with _ | _ | n
  · -- Nothing is divided into nothing.
    have hzero := hrounded.le (isMagnitude_natCast (n := 0) (by decide)) (by simp)
    have hpos : (0 : ℚ) < m := by exact_mod_cast hm
    rw [hvalue] at hzero
    exact absurd hzero (not_le.mpr (mul_pos hpos (by positivity)))
  · rw [zero_add, Nat.cast_one, one_mul] at hcontains
    exact tenThousandth_le (canonical_of_parts h) hcontains
  · have hb : IsMagnitude (2 ^ (-13 : ℤ)) :=
      ⟨1, -13, by decide, by decide, by decide, by norm_num⟩
    have hge : (2 : ℚ) ^ (-13 : ℤ) ≤ m * 2 ^ e := by
      rw [← hvalue]
      apply hrounded.ge hb
      have htwo : (2 : ℚ) ≤ (n + 1 + 1 : ℕ) := by exact_mod_cast Nat.le_add_left 2 n
      norm_num
      linarith
    refine le_trans ?_ hge
    norm_num

/-- A value that is out of range once it is multiplied is a large one. -/
theorem lt_of_isFinite_mul (hx : x.isFinite = true) (hn : n ≤ 2 ^ 53)
    (h : ¬ (x * Float.ofNat n).isFinite = true) {b : ℚ} (hb : IsMagnitude b) :
    b < magnitude (parts x) * n := by
  obtain ⟨s, hx⟩ := isFinite_iff.mp hx
  obtain ⟨hscale, hscale'⟩ := inRange_ofNat hn
  by_contra! hle
  rw [← hscale'] at hle
  exact h (isFinite_iff.mpr ⟨_, (rounded_mul hx hscale hb hle).inRange hb hle⟩)

/-- A value rounded to four decimal places is nearest to a decimal with no more of them. -/
theorem exists_contains_roundTo (hx : x.isFinite = true)
    (h : parts (Scalar.roundTo 4 x) = .finite t m e hm) : ∃ (n : ℕ) (power : ℤ), -4 ≤ power ∧
      (Bracket.ofDouble m e).Contains (n * 10 ^ power) ∧ (10 : ℚ) ^ power ≤ m * 2 ^ e := by
  have hcanonical := canonical_of_parts h
  have hround : Scalar.roundTo 4 x =
      if (x * Float.ofNat 10000).isFinite = true then
        if (round (x * Float.ofNat 10000) / Float.ofNat 10000 == 0) = true then 0
        else round (x * Float.ofNat 10000) / Float.ofNat 10000
      else x := rfl
  rw [hround] at h
  split_ifs at h with hfinite hzero
  · cases h
  · obtain ⟨s, hscaled⟩ := isFinite_iff.mp hfinite
    obtain ⟨hrange, n, hn⟩ := inRange_round hscaled
    exact ⟨n, -4, le_rfl, contains_div_tenThousand hrange hn h⟩
  · -- A value so large is a whole number.
    have hb : IsMagnitude (2 ^ 67) := ⟨1, 67, by decide, by decide, by decide, by norm_num⟩
    have hlarge := lt_of_isFinite_mul hx (n := 10000) (by decide) hfinite hb
    rw [h, magnitude] at hlarge
    have hmost : (m : ℚ) < 2 ^ 53 := by exact_mod_cast hcanonical.most
    have he : 0 ≤ e := by
      by_contra! hneg
      have hsmall : (m : ℚ) * 2 ^ e ≤ 2 ^ 53 * 1 :=
        mul_le_mul hmost.le (zpow_le_one_of_nonpos₀ one_le_two hneg.le) (by positivity)
          (by positivity)
      norm_num at hlarge hsmall
      linarith
    obtain ⟨k, rfl⟩ := Int.eq_ofNat_of_zero_le he
    have hone : (1 : ℚ) ≤ (m * 2 ^ k : ℕ) := by exact_mod_cast Nat.mul_pos hm (by positivity)
    have hvalue : ((m * 2 ^ k : ℕ) : ℚ) = m * 2 ^ (k : ℤ) := by
      push_cast
      rw [zpow_natCast]
    refine ⟨m * 2 ^ k, 0, by decide, ?_, ?_⟩
    · rw [zpow_zero, mul_one, hvalue]
      exact Bracket.contains_self hm
    · rwa [zpow_zero, ← hvalue]

end Rounding

/-- A finite double is written to a content stream in digits, with a point among them at most, and
never by a power of ten. At most four digits stand after the point, and where a minus sign stands
in front, the number behind it is not zero. -/
theorem streamNumeral_plain (x : Float) (h : x.isFinite) :
    isPdfNumber (streamNumeral x) ∧ decimalPlaces (streamNumeral x) ≤ 4 ∧
      ∀ cs, (streamNumeral x).toList = '-' :: cs → 0 < Decimal.ofText cs := by
  have htext : (streamNumeral x).toList = _ := toList_numeral (Scalar.roundTo 4 x)
  have hrounded : (Scalar.roundTo 4 x).isFinite = true := by rw [isFinite_roundTo, h]
  change (parts _).isFinite = true at hrounded
  have hnumber : isPdfNumber (streamNumeral x) = true := by rw [isPdfNumber_streamNumeral, h]
  cases hy : parts (Scalar.roundTo 4 x) with
  | notANumber | infinity s => rw [hy] at hrounded; cases hrounded
  | zero s =>
    -- Rounding leaves no sign on zero.
    obtain rfl : s = .positive := by
      cases s with
      | negative => exact absurd hy (parts_roundTo_ne 4 x)
      | positive => rfl
    rw [hy] at htext
    refine ⟨hnumber, decimalPlaces_of_toList (d := ⟨0, 0⟩) htext (by decide), fun cs hcs => ?_⟩
    rw [htext] at hcs
    cases hcs
  | finite s m e hm =>
    rw [hy] at htext
    have hcanonical := canonical_of_parts hy
    obtain ⟨n, power, hpower, hcontains, hle⟩ := exists_contains_roundTo h hy
    have hexponent := Decimal.le_exponent_shortest hm hcanonical.most hcontains hle
    refine ⟨hnumber, decimalPlaces_of_toList htext (hpower.trans hexponent), fun cs hcs => ?_⟩
    rw [htext] at hcs
    cases s with
    | negative =>
      obtain rfl : (shortest m e).positional = cs := (List.cons.inj hcs).2
      rw [Decimal.ofText_positional]
      exact Decimal.value_shortest_pos hcanonical
    | positive =>
      have hmem : '-' ∈ unsignedText (.finite .positive m e hm) := by
        have hcs : unsignedText (.finite .positive m e hm) = '-' :: cs := hcs
        rw [hcs]
        exact List.mem_cons_self
      exact absurd hmem (minus_not_mem_unsignedText _)

/-- A value that is rounded to zero, one with a long fraction and one too large to be scaled. -/
theorem streamNumeral_plain_sizes :
    let small : Float := -0.00001
    let ordinary : Float := -1 / 3
    let large : Float := 1e306
    streamNumeral small = "0" ∧ streamNumeral ordinary = "-0.3333" ∧
      (∀ x ∈ [small, ordinary, large], x.isFinite ∧ decimalPlaces (streamNumeral x) ≤ 4) := by
  intro small ordinary large
  have hfinite : ∀ x ∈ [small, ordinary, large], x.isFinite := by decide +kernel
  refine ⟨by decide +kernel, by decide +kernel, fun x hx => ⟨hfinite x hx, ?_⟩⟩
  exact (streamNumeral_plain x (hfinite x hx)).2.1

end Binary64

end PenStroke
