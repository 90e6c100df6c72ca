import Mathlib
import PenStroke.Decimal.Basic

/-! Decimals in positional notation can be read again: the text tells the number. -/
namespace PenStroke.Decimal

def value (d : Decimal) : ℚ := d.coefficient * 10 ^ d.exponent

/-- Leaving out zeros at the end keeps the number. -/
theorem value_trim (c : ℕ) (e : ℤ) : (trim c e).value = c * 10 ^ e := by
  fun_induction trim c e with
  | case1 c e h ih =>
    have hdiv : ((c / 10 : ℕ) : ℚ) * 10 = c := by
      exact_mod_cast Nat.div_mul_cancel (Nat.dvd_of_mod_eq_zero h.2)
    rw [ih, zpow_add_one₀ (by norm_num), ← hdiv]
    ring
  | case2 c e h => rfl

theorem le_exponent_trim (c : ℕ) (e : ℤ) : e ≤ (trim c e).exponent := by
  fun_induction trim c e with
  | case1 c e h ih => exact (Int.le_add_one le_rfl).trans ih
  | case2 c e h => exact le_rfl

section Characters

theorem isDigit_digits (n : ℕ) : ∀ c ∈ digits n, c.isDigit :=
  fun _ hc => Nat.isDigit_of_mem_toDigits (by decide) (by decide) hc

theorem isDigit_zeros (k : ℕ) : ∀ c ∈ List.replicate k '0', c.isDigit := by
  intro c hc
  rw [List.eq_of_mem_replicate hc]
  rfl

theorem isDigit_padded (k n : ℕ) : ∀ c ∈ List.replicate k '0' ++ digits n, c.isDigit :=
  List.forall_mem_append.mpr ⟨isDigit_zeros k, isDigit_digits n⟩

/-- With a fraction there are digits on both sides of the point, those of the coefficient with
zeros in front. -/
theorem exists_positional_negSucc (coefficient n : ℕ) : ∃ whole fraction,
    positional ⟨coefficient, .negSucc n⟩ = whole ++ '.' :: fraction ∧ whole ≠ [] ∧
      fraction.length = n + 1 ∧ (∀ c ∈ whole, c.isDigit) ∧ (∀ c ∈ fraction, c.isDigit) ∧
      ∃ k, whole ++ fraction = List.replicate k '0' ++ digits coefficient := by
  obtain ⟨k, hk⟩ : ∃ k, k = n + 2 - (digits coefficient).length := ⟨_, rfl⟩
  obtain ⟨ds, hds⟩ : ∃ ds, ds = List.replicate k '0' ++ digits coefficient := ⟨_, rfl⟩
  have hdigits : ∀ c ∈ ds, c.isDigit := hds ▸ isDigit_padded k coefficient
  -- Padded with zeros, the digits reach beyond the point.
  have hlength : n + 2 ≤ ds.length := by
    rw [hds, List.length_append, List.length_replicate]
    omega
  refine ⟨ds.take (ds.length - (n + 1)), ds.drop (ds.length - (n + 1)), ?_, ?_, ?_,
    fun c hc => hdigits c (List.mem_of_mem_take hc),
    fun c hc => hdigits c (List.mem_of_mem_drop hc), k, ?_⟩
  · rw [hds, hk]
    rfl
  · rw [← List.length_pos_iff, List.length_take]
    omega
  · rw [List.length_drop]
    omega
  · rw [List.take_append_drop, hds]

/-- Positional notation has digits and a point. -/
theorem mem_positional {d : Decimal} {c : Char} (h : c ∈ d.positional) : c.isDigit ∨ c = '.' := by
  obtain ⟨coefficient, _ | n⟩ := d
  · exact .inl (List.forall_mem_append.mpr ⟨isDigit_digits _, isDigit_zeros _⟩ c h)
  · obtain ⟨whole, fraction, hpositional, -, -, hwhole, hfraction, -⟩ :=
      exists_positional_negSucc coefficient n
    rw [hpositional, List.mem_append, List.mem_cons] at h
    rcases h with h | h | h
    · exact .inl (hwhole c h)
    · exact .inr h
    · exact .inl (hfraction c h)

end Characters

section Reading

/-- The number that digits with at most one point among them stand for. -/
def ofText (cs : List Char) : ℚ :=
  let whole := cs.takeWhile (· != '.')
  let fraction := (cs.dropWhile (· != '.')).tail
  Nat.ofDigitChars 10 (whole ++ fraction) 0 / 10 ^ fraction.length

theorem bne_point {cs : List Char} (h : ∀ c ∈ cs, c.isDigit) : ∀ c ∈ cs, (c != '.') = true := by
  intro c hc
  rw [bne_iff_ne]
  rintro rfl
  exact absurd (h _ hc) (by decide)

theorem dropWhile_whole {cs : List Char} (h : ∀ c ∈ cs, c.isDigit) :
    cs.dropWhile (· != '.') = [] :=
  List.dropWhile_eq_nil_iff.mpr (bne_point h)

theorem dropWhile_point {whole : List Char} (h : ∀ c ∈ whole, c.isDigit) (fraction : List Char) :
    (whole ++ '.' :: fraction).dropWhile (· != '.') = '.' :: fraction := by
  rw [List.dropWhile_append_of_pos (bne_point h)]
  simp

theorem ofText_whole {cs : List Char} (h : ∀ c ∈ cs, c.isDigit) :
    ofText cs = Nat.ofDigitChars 10 cs 0 := by
  have htake : cs.takeWhile (· != '.') = cs := List.takeWhile_eq_self_iff.mpr (bne_point h)
  simp [ofText, htake, dropWhile_whole h]

theorem ofText_point {whole : List Char} (h : ∀ c ∈ whole, c.isDigit) (fraction : List Char) :
    ofText (whole ++ '.' :: fraction) =
      Nat.ofDigitChars 10 (whole ++ fraction) 0 / 10 ^ fraction.length := by
  have htake : (whole ++ '.' :: fraction).takeWhile (· != '.') = whole := by
    rw [List.takeWhile_append_of_pos (bne_point h)]
    simp
  simp only [ofText, htake, dropWhile_point h, List.tail_cons]

theorem ofDigitChars_padded (k n : ℕ) :
    Nat.ofDigitChars 10 (List.replicate k '0' ++ digits n) 0 = n := by
  rw [Nat.ofDigitChars_append, Nat.ofDigitChars_replicate_zero, Nat.mul_zero, digits,
    Nat.ofDigitChars_ten_toDigits]

/-- What is written in positional notation is read again. -/
theorem ofText_positional (d : Decimal) : ofText d.positional = d.value := by
  obtain ⟨coefficient, zeros | n⟩ := d
  · have hpositional : positional ⟨coefficient, .ofNat zeros⟩ =
        digits coefficient ++ List.replicate zeros '0' := rfl
    rw [hpositional, value,
      ofText_whole (List.forall_mem_append.mpr ⟨isDigit_digits _, isDigit_zeros _⟩),
      Nat.ofDigitChars_append, Nat.ofDigitChars_replicate_zero, digits,
      Nat.ofDigitChars_ten_toDigits, Int.ofNat_eq_natCast, zpow_natCast]
    push_cast
    ring
  · obtain ⟨whole, fraction, hpositional, -, hlength, hwhole, -, k, hdigits⟩ :=
      exists_positional_negSucc coefficient n
    rw [hpositional, ofText_point hwhole, hdigits, ofDigitChars_padded, hlength, value,
      zpow_negSucc, div_eq_mul_inv]

end Reading

end PenStroke.Decimal
