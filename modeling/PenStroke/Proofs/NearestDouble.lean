import PenStroke.Proofs.DoubleArithmetic
import PenStroke.Proofs.ShortestDecimal

/-! Rounding goes to the nearest double. The two bits beside a mantissa tell where a number lies
within a place, so a number is rounded to a double whose bracket it lies in. -/
namespace PenStroke.Binary64

open Float.Model Float.Model.UnpackedFloat

section Places

/-- A mantissa and the bit after it, counted in halves of a place. -/
def halves (em : ExtendedMantissa) : ℕ := 2 * em.mantissa + em.roundBit.toNat

/-- A number of places begins with a mantissa and its round bit, and the sticky bit tells whether
anything is left of it. -/
def Splits (em : ExtendedMantissa) (x : ℚ) : Prop :=
  if em.stickyBit then (halves em : ℚ) < 2 * x ∧ 2 * x < halves em + 1 else 2 * x = halves em

/-- A whole number nearest to a number; of two, the even one. -/
structure Nearest (n : ℕ) (x : ℚ) : Prop where
  le : x ≤ n + 1 / 2
  ge : (n : ℚ) - 1 / 2 ≤ x
  tie : x = n + 1 / 2 ∨ x = n - 1 / 2 → n % 2 = 0

variable {em : ExtendedMantissa} {x : ℚ}

theorem Splits.shiftRightOne (h : Splits em x) : Splits em.shiftRightOne (x / 2) := by
  obtain ⟨m, roundBit, stickyBit⟩ := em
  have hhalves : halves (ExtendedMantissa.shiftRightOne ⟨m, roundBit, stickyBit⟩) = m := by
    have hbit : (m % 2 != 0).toNat = m % 2 := by
      rcases Nat.mod_two_eq_zero_or_one m with h | h <;> rw [h] <;> rfl
    simp only [halves, ExtendedMantissa.shiftRightOne, hbit]
    omega
  have hdouble : 2 * (x / 2) = x := by ring
  unfold Splits
  rw [hhalves, hdouble]
  unfold Splits at h
  cases roundBit <;> cases stickyBit <;> simp [halves, ExtendedMantissa.shiftRightOne] at h ⊢
  · exact h
  · constructor <;> linarith
  · constructor <;> linarith
  · constructor <;> linarith

theorem Splits.shiftRight (h : Splits em x) (k : ℕ) : Splits (em >>> k) (x / 2 ^ k) := by
  induction k with
  | zero =>
    rw [pow_zero, div_one]
    exact h
  | succ k ih =>
    rw [pow_succ, ← div_div]
    exact ih.shiftRightOne

theorem Splits.nearest (h : Splits em x) : Nearest em.roundedMantissa x := by
  obtain ⟨m, _ | _, _ | _⟩ := em <;>
    simp only [Splits, halves, Bool.toNat_false, Bool.toNat_true, if_true, if_false,
      Bool.false_eq_true, Nat.add_zero] at h <;> push_cast at h
  · have hrounded : ExtendedMantissa.roundedMantissa ⟨m, false, false⟩ = m := rfl
    rw [hrounded]
    refine ⟨by linarith, by linarith, ?_⟩
    rintro (heq | heq) <;> linarith
  · have hrounded : ExtendedMantissa.roundedMantissa ⟨m, false, true⟩ = m := rfl
    rw [hrounded]
    refine ⟨by linarith, by linarith, ?_⟩
    rintro (heq | heq) <;> linarith
  · -- Half a place is left, and the even neighbour is taken.
    have hrounded : ExtendedMantissa.roundedMantissa ⟨m, true, false⟩ = m + m % 2 := rfl
    rw [hrounded]
    rcases Nat.mod_two_eq_zero_or_one m with heven | hodd
    · rw [heven, Nat.add_zero]
      exact ⟨by linarith, by linarith, fun _ => heven⟩
    · rw [hodd]
      exact ⟨by push_cast; linarith, by push_cast; linarith, fun _ => by omega⟩
  · have hrounded : ExtendedMantissa.roundedMantissa ⟨m, true, true⟩ = m + 1 := rfl
    rw [hrounded]
    refine ⟨by push_cast; linarith, by push_cast; linarith, ?_⟩
    rintro (heq | heq) <;> push_cast at heq <;> linarith

/-- A quotient of whole numbers lies in the place of its whole part as the rest tells. -/
theorem splits_div (m : ℕ) {n : ℕ} (hn : 0 < n) :
    Splits (.ofMantissaAndAccuracy (m / n) (accuracyOfFraction (m % n) n)) (m / n) := by
  have hden : (0 : ℚ) < n := by exact_mod_cast hn
  have hwhole : (n : ℚ) * (m / n : ℕ) + (m % n : ℕ) = m := by exact_mod_cast Nat.div_add_mod m n
  have hdiv : (m / n : ℚ) = (m / n : ℕ) + (m % n : ℕ) / n := by
    rw [← hwhole, add_div, mul_div_cancel_left₀ _ hden.ne']
  have hrest : m % n < n := Nat.mod_lt _ hn
  have htwice : 2 * ((m % n : ℕ) / n : ℚ) = (2 * (m % n) : ℕ) / n := by
    push_cast
    ring
  have hpos : 0 ≤ ((m % n : ℕ) : ℚ) / n := by positivity
  rw [hdiv]
  unfold accuracyOfFraction
  split_ifs with hzero
  · simp [Splits, ExtendedMantissa.ofMantissaAndAccuracy, halves, hzero]
  · have hpos : (0 : ℚ) < (m % n : ℕ) / n :=
      div_pos (by exact_mod_cast Nat.pos_of_ne_zero hzero) hden
    rcases lt_trichotomy (2 * (m % n)) n with hlt | heq | hgt
    · have hhalf : 2 * ((m % n : ℕ) / n : ℚ) < 1 := by
        rw [htwice, div_lt_one hden]
        exact_mod_cast hlt
      rw [Nat.compare_eq_lt.mpr hlt]
      simp only [Splits, ExtendedMantissa.ofMantissaAndAccuracy, halves]
      norm_num
      constructor <;> linarith
    · have hhalf : 2 * ((m % n : ℕ) / n : ℚ) = 1 := by
        rw [htwice, heq, div_self hden.ne']
      rw [Nat.compare_eq_eq.mpr heq]
      simp only [Splits, ExtendedMantissa.ofMantissaAndAccuracy, halves]
      norm_num
      linarith
    · have hhalf : 1 < 2 * ((m % n : ℕ) / n : ℚ) := by
        rw [htwice, one_lt_div hden]
        exact_mod_cast hgt
      have hone : ((m % n : ℕ) / n : ℚ) < 1 := by
        rw [div_lt_one hden]
        exact_mod_cast hrest
      rw [Nat.compare_eq_gt.mpr hgt]
      simp only [Splits, ExtendedMantissa.ofMantissaAndAccuracy, halves]
      norm_num
      constructor <;> linarith

end Places

section Rounding

open Decimal (Bracket)

variable {m n : ℕ} {e f : ℤ} {q : ℚ} {accuracy : Accuracy} {em : ExtendedMantissa} {s t : Sign}

/-- What is cut at a larger exponent is told by its bits as before. -/
theorem Splits.of_shift (h : Splits (.ofMantissaAndAccuracy m accuracy) (q / 2 ^ e))
    (hshift : shiftToTargetExponent Format.binary64 m e accuracy = (em, f)) :
    Splits em (q / 2 ^ f) := by
  obtain ⟨k, hem, rfl⟩ : ∃ k : ℕ, ExtendedMantissa.ofMantissaAndAccuracy m accuracy >>> k = em ∧
      e + k = f := ⟨_, (Prod.mk.inj hshift).1, (Prod.mk.inj hshift).2⟩
  rw [zpow_add_natCast, ← div_div, ← hem]
  exact h.shiftRight k

/-- A number lies in the bracket of the double it is nearest to. Below the least mantissa of full
length the bracket is narrower. -/
theorem Nearest.contains (h : Nearest m (q / 2 ^ e)) (hm : 0 < m)
    (hleast : m = 2 ^ 52 → -1074 < e → (m - 1 / 4) * 2 ^ e ≤ q) :
    (Bracket.ofDouble m e).Contains q := by
  obtain ⟨hle, hge, htie⟩ := h
  have hunit : (0 : ℚ) < 2 ^ e := by positivity
  have hquarter : (2 : ℚ) ^ (e - 2) = 2 ^ e / 4 := by
    rw [zpow_sub₀ two_ne_zero]
    norm_num
  rw [div_le_iff₀ hunit] at hle
  rw [le_div_iff₀ hunit] at hge
  rw [div_eq_iff hunit.ne', div_eq_iff hunit.ne'] at htie
  have hupper : (Bracket.ofDouble m e).upper = (m + 1 / 2) * 2 ^ e := by
    rw [Bracket.upper_ofDouble, hquarter]
    ring
  have hlower : (Bracket.ofDouble m e).lower = (m - Bracket.lowerGap m e / 4) * 2 ^ e := by
    rw [Bracket.lower_ofDouble hm, hquarter]
    ring
  by_cases hgap : m = 2 ^ 52 ∧ -1074 < e
  · -- The least mantissa of full length is even.
    have hone : Bracket.lowerGap m e = 1 := if_pos hgap
    have heven : (Bracket.ofDouble m e).closed = true := by
      rw [hgap.1]
      rfl
    rw [Bracket.Contains, if_pos heven, hupper, hlower, hone, Nat.cast_one]
    exact ⟨hleast hgap.1 hgap.2, hle⟩
  · have htwo : Bracket.lowerGap m e = 2 := if_neg hgap
    have hhalf : (m : ℚ) - (2 : ℕ) / 4 = m - 1 / 2 := by norm_num
    rw [Bracket.Contains, hupper, hlower, htwo, hhalf]
    split_ifs with hclosed
    · exact ⟨hge, hle⟩
    · have hodd : ¬ m % 2 = 0 := by simpa [Bracket.ofDouble] using hclosed
      have hne := not_or.mp (mt htie hodd)
      exact ⟨lt_of_le_of_ne hge (Ne.symm hne.2), lt_of_le_of_ne hle hne.1⟩

/-- A number that is rounded lies in the bracket of the double that comes of it. -/
theorem contains_roundWithAccuracy (hfine : e ≤ -1074 ∨ 2 ^ 52 ≤ m)
    (hcut : Cuts q (.ofMantissaAndAccuracy m accuracy) e)
    (hsplit : Splits (.ofMantissaAndAccuracy m accuracy) (q / 2 ^ e)) {hn : 0 < n}
    (hx : roundWithAccuracy Format.binary64 s m e accuracy = .finite t n f hn) :
    (Bracket.ofDouble n f).Contains q := by
  obtain ⟨em, g, n', f', hshift, hcut, -, -, hfull, -, hsame, -, hx'⟩ :=
    exists_roundWithAccuracy s hfine hcut
  have hnearest := (hsplit.of_shift hshift).nearest
  obtain ⟨rfl, rfl⟩ : n' = n ∧ f' = f := by
    rw [hx'] at hx
    split_ifs at hx
    cases hx
    exact ⟨rfl, rfl⟩
  rcases hsame with ⟨rfl, rfl⟩ | ⟨hcarry, rfl, rfl⟩
  · refine hnearest.contains hn fun hm hleast => ?_
    rw [hm]
    push_cast
    have hlong : (2 ^ 52 : ℚ) ≤ em.mantissa := by exact_mod_cast hfull.resolve_right hleast.ne'
    exact (mul_le_mul_of_nonneg_right (by linarith) (by positivity)).trans hcut.le
  · -- The mantissa was carried into the next place, where it is half as long.
    have hunit : (0 : ℚ) < 2 ^ (g + 1) := by positivity
    have hhalf : q / 2 ^ g = 2 * (q / 2 ^ (g + 1)) := by
      rw [zpow_add_one₀ two_ne_zero, ← div_div, mul_div_cancel₀ _ two_ne_zero]
    obtain ⟨hle, hge, -⟩ := hnearest
    rw [hcarry, hhalf] at hle hge
    push_cast at hle hge
    refine Nearest.contains ⟨?_, ?_, fun _ => rfl⟩ hn fun _ _ => ?_
    · push_cast
      linarith
    · push_cast
      linarith
    · rw [← le_div_iff₀ hunit]
      push_cast
      linarith

end Rounding

section Quotients

open Decimal (Bracket)

variable {s t : Sign} {n : ℕ} {f : ℤ} {hn : 0 < n}

/-- A quotient lies in the bracket of the value it is rounded to. -/
theorem InRange.contains_div {x y : UnpackedFloat} (hx : InRange s x) (hy : InRange t y)
    (hne : magnitude y ≠ 0) {u : Sign}
    (h : UnpackedFloat.div Format.binary64 x y = .finite u n f hn) :
    (Bracket.ofDouble n f).Contains (magnitude x / magnitude y) := by
  cases hy with
  | zero t' => exact absurd rfl hne
  | @finite m' e' hm' h' =>
    cases hx with
    | zero s' => cases h
    | @finite m e hm h'' =>
      obtain ⟨k, target, hcore, hexponent, hfine⟩ := exists_divCore hm hm' e e'
      have hunit : (2 : ℚ) ^ target ≠ 0 := by positivity
      have hquotient : magnitude (.finite s m e hm) / magnitude (.finite t m' e' hm') =
          (m <<< k : ℕ) / m' * 2 ^ target := div_eq_shiftLeft_div m m' hexponent
      rw [UnpackedFloat.div, hcore] at h
      dsimp only at h
      rw [hquotient]
      refine contains_roundWithAccuracy hfine (cuts_div _ hm' _) ?_ h
      rw [mul_div_cancel_right₀ _ hunit]
      exact splits_div _ hm'

theorem contains_div {x y : Float} (hx : InRange s (parts x)) (hy : InRange t (parts y))
    (hne : magnitude (parts y) ≠ 0) {b : ℚ} (hb : IsMagnitude b)
    (hq : magnitude (parts x) / magnitude (parts y) ≤ b) {u : Sign}
    (h : parts (x / y) = .finite u n f hn) :
    (Bracket.ofDouble n f).Contains (magnitude (parts x) / magnitude (parts y)) := by
  apply hx.contains_div hy hne
  rw [← h]
  exact ((hx.div hy hne).inRange hb hq).parts_ofModel.symm

end Quotients

end PenStroke.Binary64
