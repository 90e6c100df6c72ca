import PenStroke.Decimal.Shortest
import PenStroke.Proofs.DecimalText
import PenStroke.Proofs.Doubles

/-! The shortest decimal of a double rounds to that double and to no other. -/
namespace PenStroke.Decimal

namespace Bracket

def lower (b : Bracket) : ℚ := b.low / b.den

def middle (b : Bracket) : ℚ := b.value / b.den

def upper (b : Bracket) : ℚ := b.high / b.den

/-- A number lies in a bracket, at an end of it only if the bracket is closed. -/
def Contains (b : Bracket) (q : ℚ) : Prop :=
  if b.closed then b.lower ≤ q ∧ q ≤ b.upper else b.lower < q ∧ q < b.upper

/-- One bracket is below another: they meet at most in an end that one of them does not hold. -/
def Below (b b' : Bracket) : Prop :=
  b.upper ≤ b'.lower ∧ (b.closed → b'.closed → b.upper < b'.lower)

variable {b b' : Bracket} {q : ℚ}

theorem Contains.le (h : b.Contains q) : b.lower ≤ q ∧ q ≤ b.upper := by
  unfold Contains at h
  split at h
  · exact h
  · exact ⟨h.1.le, h.2.le⟩

theorem contains_of_lt (hlow : b.lower < q) (hhigh : q < b.upper) : b.Contains q := by
  unfold Contains
  split
  · exact ⟨hlow.le, hhigh.le⟩
  · exact ⟨hlow, hhigh⟩

/-- What lies between numbers of a bracket is in it. -/
theorem Contains.of_between {p r : ℚ} (hp : b.Contains p) (hr : b.Contains r) (hpq : p ≤ q)
    (hqr : q ≤ r) : b.Contains q := by
  unfold Contains at hp hr ⊢
  split_ifs at hp hr ⊢
  · exact ⟨hp.1.trans hpq, hqr.trans hr.2⟩
  · exact ⟨hp.1.trans_le hpq, hqr.trans_lt hr.2⟩

theorem Below.not_contains (h : b.Below b') (hq : b.Contains q) : ¬ b'.Contains q := by
  intro hq'
  obtain ⟨hle, hlt⟩ := h
  have hupper := hq.le.2
  have hlower := hq'.le.1
  unfold Contains at hq hq'
  split_ifs at hq hq' with hclosed hclosed'
  · have hstrict := hlt hclosed hclosed'
    linarith
  · linarith
  · linarith
  · linarith

section Whole

theorem holds_iff (hden : 0 < b.den) (n : ℕ) : b.holds n = true ↔ b.Contains n := by
  have hpos : (0 : ℚ) < b.den := by exact_mod_cast hden
  unfold holds Contains lower upper
  split
  · rw [Bool.and_eq_true, decide_eq_true_eq, decide_eq_true_eq, div_le_iff₀ hpos, le_div_iff₀ hpos]
    norm_cast
  · rw [Bool.and_eq_true, decide_eq_true_eq, decide_eq_true_eq, div_lt_iff₀ hpos, lt_div_iff₀ hpos]
    norm_cast

theorem contains_of_nearest? (hden : 0 < b.den) {n : ℕ} (h : b.nearest? = some n) :
    b.Contains n := by
  rw [← holds_iff hden]
  unfold nearest? at h
  dsimp only at h
  split_ifs at h with hlt hnearer hnearer
  · cases h
    exact hnearer
  · exact List.find?_some h
  · cases h
    exact hnearer
  · exact List.find?_some h

/-- The whole number that is tried first is at most half a unit away. -/
theorem nearer_mem (hden : 0 < b.den) :
    let below := b.value / b.den
    let nearer := if 2 * b.value < (2 * below + 1) * b.den then below else below + 1
    b.middle - 1 / 2 ≤ (nearer : ℚ) ∧ (nearer : ℚ) ≤ b.middle + 1 / 2 := by
  intro below nearer
  have hpos : (0 : ℚ) < b.den := by exact_mod_cast hden
  have hvalue : b.den * below + b.value % b.den = b.value := Nat.div_add_mod _ _
  have hrest : b.value % b.den < b.den := Nat.mod_lt _ hden
  have hhalf : (2 * below + 1) * b.den = 2 * (b.den * below) + b.den := by ring
  have hnearer : 2 * b.value ≤ 2 * (b.den * nearer) + b.den ∧
      2 * (b.den * nearer) ≤ 2 * b.value + b.den := by
    simp only [nearer]
    split_ifs with h
    · omega
    · rw [Nat.mul_add_one]
      omega
  have hmiddle : b.den * b.middle = b.value := mul_div_cancel₀ _ hpos.ne'
  have hlow : (2 * b.value : ℚ) ≤ 2 * (b.den * nearer) + b.den := by exact_mod_cast hnearer.1
  have hhigh : (2 * (b.den * nearer) : ℚ) ≤ 2 * b.value + b.den := by exact_mod_cast hnearer.2
  constructor
  · refine le_of_mul_le_mul_left ?_ hpos
    linarith
  · refine le_of_mul_le_mul_left ?_ hpos
    linarith

/-- A bracket that reaches further than half a unit to both sides holds a whole number. -/
theorem exists_nearest? (hden : 0 < b.den) (hlow : b.lower + 1 / 2 < b.middle)
    (hhigh : b.middle + 1 / 2 < b.upper) : ∃ n, b.nearest? = some n := by
  obtain ⟨hbelow, habove⟩ := nearer_mem hden
  refine ⟨_, if_pos ((holds_iff hden _).mpr (contains_of_lt ?_ ?_))⟩
  · linarith
  · linarith

/-- Of the whole numbers in a bracket, those next to its value are looked at. -/
theorem exists_nearest?_of_contains (hden : 0 < b.den) (hmiddle : b.Contains b.middle) {n : ℕ}
    (h : b.Contains n) : ∃ c, b.nearest? = some c := by
  have hpos : (0 : ℚ) < b.den := by exact_mod_cast hden
  obtain ⟨below, hbelow⟩ : ∃ below, below = b.value / b.den := ⟨_, rfl⟩
  have hle : (below : ℚ) ≤ b.middle := hbelow ▸ Nat.cast_div_le
  have hlt : b.middle < (below + 1 : ℕ) := by
    rw [middle, div_lt_iff₀ hpos, hbelow]
    exact_mod_cast Nat.lt_mul_of_div_lt (Nat.lt_succ_self (b.value / b.den)) hden
  have hnext : ∃ c ∈ [below, below + 1], b.holds c = true := by
    rcases Nat.lt_or_ge below n with hn | hn
    · have hn : ((below + 1 : ℕ) : ℚ) ≤ n := by exact_mod_cast hn
      exact ⟨below + 1, by simp, (holds_iff hden _).mpr (hmiddle.of_between h hlt.le hn)⟩
    · have hn : (n : ℚ) ≤ below := by exact_mod_cast hn
      exact ⟨below, by simp, (holds_iff hden _).mpr (h.of_between hmiddle hn hle)⟩
  rw [hbelow] at hnext
  unfold nearest?
  dsimp only
  have hfound := Option.isSome_iff_exists.mp (List.find?_isSome.mpr hnext)
  split_ifs
  · exact ⟨_, rfl⟩
  · exact hfound
  · exact ⟨_, rfl⟩
  · exact hfound

end Whole

section Units

theorem zpow_mul_toNat {x : ℚ} (hx : x ≠ 0) (k : ℤ) : x ^ k * x ^ (-k).toNat = x ^ k.toNat := by
  rw [← zpow_natCast, ← zpow_natCast, ← zpow_add₀ hx]
  congr 1
  omega

theorem div_units (n d : ℕ) (power : ℤ) : ((n * Nat.pow 10 (-power).toNat : ℕ) : ℚ) /
    (d * Nat.pow 10 power.toNat : ℕ) = (n / d : ℚ) / 10 ^ power := by
  have hpower := zpow_mul_toNat (x := 10) (by norm_num) power
  have hne : (10 : ℚ) ^ power ≠ 0 := by positivity
  have hne' : (10 : ℚ) ^ (-power).toNat ≠ 0 := by positivity
  push_cast [Nat.pow_eq]
  rw [← hpower, div_div, ← mul_assoc, mul_div_mul_right _ _ hne']

theorem lower_inUnits (power : ℤ) : (b.inUnits power).lower = b.lower / 10 ^ power :=
  div_units _ _ _

theorem middle_inUnits (power : ℤ) : (b.inUnits power).middle = b.middle / 10 ^ power :=
  div_units _ _ _

theorem upper_inUnits (power : ℤ) : (b.inUnits power).upper = b.upper / 10 ^ power :=
  div_units _ _ _

theorem den_inUnits_pos (hden : 0 < b.den) (power : ℤ) : 0 < (b.inUnits power).den :=
  Nat.mul_pos hden (Nat.pow_pos (by decide))

/-- A bracket counted in units of a power of ten. -/
theorem contains_inUnits (power : ℤ) :
    (b.inUnits power).Contains q ↔ b.Contains (q * 10 ^ power) := by
  have hpos : (0 : ℚ) < 10 ^ power := by positivity
  unfold Contains
  rw [lower_inUnits, upper_inUnits, div_le_iff₀ hpos, le_div_iff₀ hpos, div_lt_iff₀ hpos,
    lt_div_iff₀ hpos]
  rfl

end Units

section Magnitude

theorem digitCount_eq (n : ℕ) : digitCount n = Nat.log 10 n + 1 := by
  fun_induction digitCount n with
  | case1 n h => rw [Nat.log_of_lt h]
  | case2 n h ih => rw [ih, Nat.log_of_one_lt_of_le (by decide) (show 10 ≤ n by omega)]

/-- The value reaches the power of ten below its magnitude. -/
theorem zpow_magnitude_le (hden : 0 < b.den) (hvalue : 0 < b.value) :
    (10 : ℚ) ^ (b.magnitude - 1) ≤ b.middle := by
  have hpos : (0 : ℚ) < b.den := by exact_mod_cast hden
  rw [middle, le_div_iff₀ hpos, magnitude]
  split_ifs with h
  · have hlog : 10 ^ Nat.log 10 (b.value / b.den) * b.den ≤ b.value :=
      Nat.mul_le_of_le_div _ _ _ (Nat.pow_log_le_self 10 (Nat.div_pos h hden).ne')
    rw [digitCount_eq, Nat.cast_succ, add_sub_cancel_right, zpow_natCast]
    exact_mod_cast hlog
  · have hlog : (b.den - 1) / b.value < 10 ^ (Nat.log 10 ((b.den - 1) / b.value) + 1) :=
      Nat.lt_pow_succ_log_self (by decide) _
    rw [Nat.div_lt_iff_lt_mul hvalue] at hlog
    have hle : b.den ≤ 10 ^ (Nat.log 10 ((b.den - 1) / b.value) + 1) * b.value := by omega
    rw [digitCount_eq, sub_sub_cancel_left, zpow_neg, inv_mul_le_iff₀ (by positivity),
      zpow_natCast]
    exact_mod_cast hle

theorem lt_zpow_magnitude (hden : 0 < b.den) (hvalue : 0 < b.value) :
    b.middle < (10 : ℚ) ^ b.magnitude := by
  have hpos : (0 : ℚ) < b.den := by exact_mod_cast hden
  rw [middle, div_lt_iff₀ hpos, magnitude]
  split_ifs with h
  · have hlog : b.value / b.den < 10 ^ (Nat.log 10 (b.value / b.den) + 1) :=
      Nat.lt_pow_succ_log_self (by decide) _
    rw [Nat.div_lt_iff_lt_mul hden] at hlog
    rw [digitCount_eq, zpow_natCast]
    exact_mod_cast hlog
  · have hne : (b.den - 1) / b.value ≠ 0 := (Nat.div_pos (by omega) hvalue).ne'
    have hlog : 10 ^ Nat.log 10 ((b.den - 1) / b.value) * b.value ≤ b.den - 1 :=
      Nat.mul_le_of_le_div _ _ _ (Nat.pow_log_le_self 10 hne)
    have hlt : 10 ^ Nat.log 10 ((b.den - 1) / b.value) * b.value < b.den := by omega
    rw [digitCount_eq, Nat.cast_succ, sub_add_cancel_right, zpow_neg,
      lt_inv_mul_iff₀ (by positivity), zpow_natCast]
    exact_mod_cast hlt

end Magnitude

section Doubles
variable {m : ℕ} {e : ℤ}

/-- The distance from a mantissa to the lower end of its bracket, in quarters of the last place. -/
def lowerGap (m : ℕ) (e : ℤ) : ℕ := if m = Nat.pow 2 52 ∧ -1074 < e then 1 else 2

theorem lowerGap_mem (m : ℕ) (e : ℤ) : lowerGap m e = 1 ∨ lowerGap m e = 2 := by
  unfold lowerGap
  split
  · exact .inl rfl
  · exact .inr rfl

theorem lowerGap_le (m : ℕ) (e : ℤ) : (lowerGap m e : ℚ) ≤ 2 := by
  exact_mod_cast (lowerGap_mem m e).elim (by omega) (by omega)

theorem den_ofDouble_pos (m : ℕ) (e : ℤ) : 0 < (ofDouble m e).den := Nat.pow_pos (by decide)

theorem div_ofDouble (n : ℕ) (e : ℤ) : ((n * Nat.pow 2 (e - 2).toNat : ℕ) : ℚ) /
    (Nat.pow 2 (2 - e).toNat : ℕ) = n * 2 ^ (e - 2) := by
  have hpower := zpow_mul_toNat (x := 2) (by norm_num) (e - 2)
  have hne : (2 : ℚ) ^ (2 - e).toNat ≠ 0 := by positivity
  rw [neg_sub] at hpower
  push_cast [Nat.pow_eq]
  rw [div_eq_iff hne, mul_assoc, hpower]

theorem lower_ofDouble (hm : 0 < m) :
    (ofDouble m e).lower = (4 * m - lowerGap m e) * 2 ^ (e - 2) := by
  have hle : lowerGap m e ≤ 4 * m := by
    obtain h | h := lowerGap_mem m e <;> omega
  refine (div_ofDouble (4 * m - lowerGap m e) e).trans ?_
  rw [Nat.cast_sub hle, Nat.cast_mul, Nat.cast_ofNat]

theorem middle_ofDouble : (ofDouble m e).middle = 4 * m * 2 ^ (e - 2) := by
  refine (div_ofDouble _ _).trans ?_
  push_cast
  rfl

theorem upper_ofDouble : (ofDouble m e).upper = (4 * m + 2) * 2 ^ (e - 2) := by
  refine (div_ofDouble _ _).trans ?_
  push_cast
  rfl

theorem value_ofDouble_pos (hm : 0 < m) (e : ℤ) : 0 < (ofDouble m e).value :=
  Nat.mul_pos (Nat.mul_pos (by decide) hm) (Nat.pow_pos (by decide))

theorem middle_ofDouble_eq : (ofDouble m e).middle = m * 2 ^ e := by
  rw [middle_ofDouble, zpow_sub₀ two_ne_zero]
  ring

/-- A double lies in its own bracket. -/
theorem contains_self (hm : 0 < m) : (ofDouble m e).Contains (m * 2 ^ e) := by
  have hunit : (0 : ℚ) < 2 ^ (e - 2) := by positivity
  have hgap : (0 : ℚ) < lowerGap m e := by
    exact_mod_cast (lowerGap_mem m e).elim (by omega) (by omega)
  rw [← middle_ofDouble_eq]
  apply contains_of_lt
  · rw [lower_ofDouble hm, middle_ofDouble]
    exact mul_lt_mul_of_pos_right (by linarith) hunit
  · rw [upper_ofDouble, middle_ofDouble]
    exact mul_lt_mul_of_pos_right (by linarith) hunit

/-- The unit of the seventeenth digit is smaller than the whole gap below a double. -/
theorem zpow_lt_gap (hm : 0 < m) (hm' : m < 2 ^ 53) :
    (10 : ℚ) ^ ((ofDouble m e).magnitude - 17) < 2 * lowerGap m e * 2 ^ (e - 2) := by
  have hle := zpow_magnitude_le (den_ofDouble_pos m e) (value_ofDouble_pos hm e)
  have hpower : (ofDouble m e).magnitude - 1 = (ofDouble m e).magnitude - 17 + 16 := by ring
  rw [middle_ofDouble, hpower, zpow_add₀ (by norm_num)] at hle
  have hunit : (0 : ℚ) < 2 ^ (e - 2) := by positivity
  have hdigits : (2 * m : ℚ) < 10 ^ 16 * lowerGap m e := by
    norm_cast
    unfold lowerGap
    split_ifs with h
    · rw [h.1]
      decide
    · omega
  have hscaled := mul_lt_mul_of_pos_right hdigits hunit
  norm_num at hle hscaled
  linarith

/-- Seventeen digits are enough. -/
theorem exists_nearest?_ofDouble (hm : 0 < m) (hm' : m < 2 ^ 53) : ∃ n,
    ((ofDouble m e).inUnits ((ofDouble m e).magnitude - 17)).nearest? = some n := by
  have hstep := zpow_lt_gap (e := e) hm hm'
  have hpos : (0 : ℚ) < 10 ^ ((ofDouble m e).magnitude - 17) := by positivity
  have hunit : (0 : ℚ) < 2 ^ (e - 2) := by positivity
  have hupper := mul_le_mul_of_nonneg_right (lowerGap_le m e) hunit.le
  apply exists_nearest? (den_inUnits_pos (den_ofDouble_pos m e) _)
  · rw [lower_inUnits, middle_inUnits, lower_ofDouble hm, middle_ofDouble, lt_div_iff₀ hpos,
      add_mul, div_mul_cancel₀ _ hpos.ne']
    linarith
  · rw [upper_inUnits, middle_inUnits, upper_ofDouble, middle_ofDouble, lt_div_iff₀ hpos,
      add_mul, div_mul_cancel₀ _ hpos.ne']
    linarith

end Doubles

section Apart

open Binary64 (Canonical)

variable {m m' : ℕ} {e e' : ℤ}

/-- Above the least exponent the lower end is at most a quarter below the least full mantissa. -/
theorem lowerGap_of_least_lt (h : Canonical m e) (he : -1074 < e) :
    2 ^ 54 + lowerGap m e ≤ 4 * m + 1 := by
  have hfull : 2 ^ 52 ≤ m := h.least.resolve_right he.ne'
  unfold lowerGap
  split_ifs with hpower
  · omega
  · have hne : m ≠ 2 ^ 52 := fun heq => hpower ⟨heq, he⟩
    omega

theorem below_of_mantissa (hm : m < m') : (ofDouble m e).Below (ofDouble m' e) := by
  have hunit : (0 : ℚ) < 2 ^ (e - 2) := by positivity
  have hgap := lowerGap_le m' e
  rw [Below, upper_ofDouble, lower_ofDouble (by omega)]
  constructor
  · have hstep : (m + 1 : ℚ) ≤ m' := by exact_mod_cast hm
    exact mul_le_mul_of_nonneg_right (by linarith) hunit.le
  · -- Of neighbouring mantissas one is odd.
    intro heven heven'
    have heven : m % 2 = 0 := of_decide_eq_true heven
    have heven' : m' % 2 = 0 := of_decide_eq_true heven'
    have hstep : (m + 2 : ℚ) ≤ m' := by exact_mod_cast (show m + 2 ≤ m' by omega)
    exact mul_lt_mul_of_pos_right (by linarith) hunit

theorem below_of_exponent (h : Canonical m e) (h' : Canonical m' e') (he : e < e') :
    (ofDouble m e).Below (ofDouble m' e') := by
  have hunit : (0 : ℚ) < 2 ^ (e - 2) := by positivity
  have hdouble : (2 : ℚ) ^ (e - 2) * 2 ≤ 2 ^ (e' - 2) := by
    rw [← zpow_add_one₀ (by norm_num)]
    exact zpow_le_zpow_right₀ (by norm_num) (by omega)
  have hgap : (2 ^ 54 + lowerGap m' e' : ℚ) ≤ 4 * m' + 1 := by
    exact_mod_cast lowerGap_of_least_lt h' (h.above.trans_lt he)
  have hlower : (2 ^ 55 - 2) * 2 ^ (e - 2) ≤ (ofDouble m' e').lower := by
    rw [lower_ofDouble h'.pos]
    calc (2 ^ 55 - 2) * (2 : ℚ) ^ (e - 2) = (2 ^ 54 - 1) * (2 ^ (e - 2) * 2) := by ring
      _ ≤ (2 ^ 54 - 1) * 2 ^ (e' - 2) := mul_le_mul_of_nonneg_left hdouble (by norm_num)
      _ ≤ (4 * m' - lowerGap m' e') * 2 ^ (e' - 2) :=
        mul_le_mul_of_nonneg_right (by linarith) (by positivity)
  have hmost := h.most
  rw [Below, upper_ofDouble]
  constructor
  · have hle : (m + 1 : ℚ) ≤ 2 ^ 53 := by exact_mod_cast hmost
    exact (mul_le_mul_of_nonneg_right (by linarith) hunit.le).trans hlower
  · -- The largest mantissa is odd.
    intro heven _
    have heven : m % 2 = 0 := of_decide_eq_true heven
    have hle : (m + 2 : ℚ) ≤ 2 ^ 53 := by exact_mod_cast (show m + 2 ≤ 2 ^ 53 by omega)
    exact (mul_lt_mul_of_pos_right (by linarith) hunit).trans_le hlower

/-- The brackets of different doubles have no number in common. -/
theorem eq_of_contains (h : Canonical m e) (h' : Canonical m' e')
    (hq : (ofDouble m e).Contains q) (hq' : (ofDouble m' e').Contains q) : m = m' ∧ e = e' := by
  rcases lt_trichotomy e e' with he | rfl | he
  · exact absurd hq' ((below_of_exponent h h' he).not_contains hq)
  · rcases lt_trichotomy m m' with hm | rfl | hm
    · exact absurd hq' ((below_of_mantissa hm).not_contains hq)
    · exact ⟨rfl, rfl⟩
    · exact absurd hq ((below_of_mantissa hm).not_contains hq')
  · exact absurd hq ((below_of_exponent h' h he).not_contains hq')

end Apart

end Bracket

/-- The shortest decimal is a whole number of units in the bracket, without the zeros at its end.
No larger unit has such a number. -/
theorem exists_shortest {m : ℕ} (hm : 0 < m) (hm' : m < 2 ^ 53) (e : ℤ) :
    ∃ (c k : ℕ) (power : ℤ), power = (Bracket.ofDouble m e).magnitude - (k + 1 : ℕ) ∧
      shortest m e = trim c power ∧
      ((Bracket.ofDouble m e).inUnits power).nearest? = some c ∧
      ∀ j < k, ((Bracket.ofDouble m e).inUnits
        ((Bracket.ofDouble m e).magnitude - (j + 1 : ℕ))).nearest? = none := by
  obtain ⟨n, hn⟩ := Bracket.exists_nearest?_ofDouble (e := e) hm hm'
  let decimal? (k : ℕ) : Option Decimal :=
    let power := (Bracket.ofDouble m e).magnitude - (k + 1 : ℕ)
    ((Bracket.ofDouble m e).inUnits power).nearest?.map fun c => trim c power
  have hlast : decimal? 16 = some (trim n _) := Option.map_eq_some_iff.mpr ⟨n, hn, rfl⟩
  have hfound : ((List.range 17).findSome? decimal?).isSome :=
    List.findSome?_isSome_iff.mpr ⟨16, by decide, by rw [hlast]; rfl⟩
  obtain ⟨d, hd⟩ := Option.isSome_iff_exists.mp hfound
  obtain ⟨before, k, after, hrange, hk, hbefore⟩ := List.findSome?_eq_some_iff.mp hd
  obtain ⟨c, hc, rfl⟩ := Option.map_eq_some_iff.mp hk
  refine ⟨c, k, _, rfl, ?_, hc, fun j hj => ?_⟩
  · change ((List.range 17).findSome? decimal?).getD _ = _
    rw [hd, Option.getD_some]
  · have hordered : (before ++ k :: after).Pairwise (· < ·) := hrange ▸ List.pairwise_lt_range
    have hafter := (List.pairwise_cons.mp (List.pairwise_append.mp hordered).2.1).1
    have hk : k < 17 := List.mem_range.mp (hrange ▸ List.mem_append_cons_self)
    have hmem : j ∈ before ++ k :: after := hrange ▸ List.mem_range.mpr (hj.trans hk)
    rcases List.mem_append.mp hmem with hmem | hmem
    · exact Option.map_eq_none_iff.mp (hbefore j hmem)
    · rcases List.mem_cons.mp hmem with rfl | hmem
      · exact absurd hj (lt_irrefl _)
      · exact absurd hj (hafter j hmem).not_gt

/-- The shortest decimal of a double rounds to it. -/
theorem contains_shortest {m : ℕ} (hm : 0 < m) (hm' : m < 2 ^ 53) (e : ℤ) :
    (Bracket.ofDouble m e).Contains (shortest m e).value := by
  obtain ⟨c, k, power, -, hshortest, hc, -⟩ := exists_shortest hm hm' e
  rw [hshortest, value_trim, ← Bracket.contains_inUnits]
  exact Bracket.contains_of_nearest?
    (Bracket.den_inUnits_pos (Bracket.den_ofDouble_pos m e) power) hc

section Canonical

open Binary64 (Canonical)

variable {m n : ℕ} {e f : ℤ}

theorem value_shortest_pos (h : Canonical m e) : 0 < (shortest m e).value := by
  have hlower := (contains_shortest h.pos h.most e).le.1
  have hgap := Bracket.lowerGap_le m e
  have hone : (1 : ℚ) ≤ m := by exact_mod_cast h.pos
  have hunit : (0 : ℚ) < 2 ^ (e - 2) := by positivity
  rw [Bracket.lower_ofDouble h.pos] at hlower
  exact (mul_pos (by linarith) hunit).trans_le hlower

/-- The shortest decimal tells the double. -/
theorem eq_of_value_shortest_eq (h : Canonical m e) (h' : Canonical n f)
    (hvalue : (shortest m e).value = (shortest n f).value) : m = n ∧ e = f := by
  have hmem := contains_shortest h.pos h.most e
  rw [hvalue] at hmem
  exact Bracket.eq_of_contains h h' hmem (contains_shortest h'.pos h'.most f)

end Canonical

end PenStroke.Decimal
