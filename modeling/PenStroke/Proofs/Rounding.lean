import PenStroke.Proofs.Doubles

/-! Rounding does not pass a double. A number is rounded to one of the doubles next to it, so what
lies between two doubles stays between them, and what is a double is kept. -/
namespace PenStroke.Binary64

open Float.Model Float.Model.UnpackedFloat

/-- The magnitude of a finite value; zero for any other. -/
def magnitude : UnpackedFloat → ℚ
  | .finite _ m e _ => m * 2 ^ e
  | _ => 0

/-- The magnitudes of finite doubles. -/
def IsMagnitude (q : ℚ) : Prop :=
  ∃ (n : ℕ) (f : ℤ), n < 2 ^ 53 ∧ -1074 ≤ f ∧ f ≤ 971 ∧ q = n * 2 ^ f

theorem magnitude_nonneg (x : UnpackedFloat) : 0 ≤ magnitude x := by
  cases x with
  | finite s m e hm => exact mul_nonneg m.cast_nonneg (by positivity)
  | infinity s | notANumber | zero s => exact le_rfl

theorem IsMagnitude.nonneg {q : ℚ} (h : IsMagnitude q) : 0 ≤ q := by
  obtain ⟨n, f, -, -, -, rfl⟩ := h
  positivity

theorem Canonical.isMagnitude {m : ℕ} {e : ℤ} (h : Canonical m e) :
    IsMagnitude (m * 2 ^ e) :=
  ⟨m, e, h.most, h.above, h.below, rfl⟩

/-- Whole numbers up to this bound are doubles. -/
theorem isMagnitude_natCast {n : ℕ} (h : n ≤ 2 ^ 53) : IsMagnitude n := by
  rcases h.lt_or_eq with h | rfl
  · exact ⟨n, 0, h, by decide, by decide, by simp⟩
  · exact ⟨1, 53, by decide, by decide, by decide, by norm_num⟩

theorem zpow_add_natCast (e : ℤ) (k : ℕ) : (2 : ℚ) ^ (e + k) = 2 ^ e * 2 ^ k := by
  rw [zpow_add₀ two_ne_zero, zpow_natCast]

/-- A mantissa can be made longer at a smaller exponent. -/
theorem natCast_shiftLeft_mul_zpow (m : ℕ) {k : ℕ} {e f : ℤ} (h : f + k = e) :
    ((m <<< k : ℕ) : ℚ) * 2 ^ f = m * 2 ^ e := by
  rw [← h, Nat.shiftLeft_eq, zpow_add_natCast]
  push_cast
  ring

/-- Mantissas of full length pass every mantissa at a smaller exponent. -/
theorem natCast_mul_zpow_lt {n : ℕ} (hn : n < 2 ^ 53) {e f : ℤ} (h : f < e) :
    (n : ℚ) * 2 ^ f < 2 ^ 52 * 2 ^ e := by
  have hn : (n : ℚ) < 2 ^ 53 := by exact_mod_cast hn
  calc (n : ℚ) * 2 ^ f < 2 ^ 53 * 2 ^ f := mul_lt_mul_of_pos_right hn (by positivity)
    _ = 2 ^ 52 * 2 ^ (f + 1) := by rw [zpow_add_one₀ two_ne_zero]; ring
    _ ≤ 2 ^ 52 * 2 ^ e := mul_le_mul_of_nonneg_left
        (zpow_le_zpow_right₀ one_le_two (by omega)) (by positivity)

/-- A double on a grid of powers of two is a whole number of units of it, unless the grid is coarse
enough for mantissas of full length to pass it. -/
theorem IsMagnitude.eq_units_or_lt {b : ℚ} (h : IsMagnitude b) {e : ℤ} (he : -1074 ≤ e) :
    (∃ units : ℕ, b = units * 2 ^ e) ∨ -1074 < e ∧ b < 2 ^ 52 * 2 ^ e := by
  obtain ⟨n, f, hn, hf, -, rfl⟩ := h
  rcases lt_or_ge f e with hlt | hle
  · exact .inr ⟨by omega, natCast_mul_zpow_lt hn hlt⟩
  · obtain ⟨k, rfl⟩ := Int.le.dest hle
    refine .inl ⟨n * 2 ^ k, ?_⟩
    rw [zpow_add_natCast]
    push_cast
    ring

section Cutting

/-- A number lies in the place that a mantissa begins, and the bits beside the mantissa are not set
where it lies at the beginning. -/
structure Cuts (q : ℚ) (em : ExtendedMantissa) (e : ℤ) : Prop where
  le : em.mantissa * 2 ^ e ≤ q
  lt : q < (em.mantissa + 1) * 2 ^ e
  exact : q = em.mantissa * 2 ^ e → em.accuracy = .exact

variable {q : ℚ} {em : ExtendedMantissa} {e : ℤ}

theorem accuracy_eq_exact_iff :
    em.accuracy = .exact ↔ em.roundBit = false ∧ em.stickyBit = false := by
  obtain ⟨m, _ | _, _ | _⟩ := em <;> simp [ExtendedMantissa.accuracy]

theorem roundedMantissa_of_exact (h : em.accuracy = .exact) :
    em.roundedMantissa = em.mantissa := by
  rw [ExtendedMantissa.roundedMantissa, h]
  rfl

theorem Cuts.shiftRightOne (h : Cuts q em e) : Cuts q em.shiftRightOne (e + 1) := by
  have hunit : (0 : ℚ) < 2 ^ e := by positivity
  obtain ⟨half, hhalf⟩ : ∃ half, half = em.shiftRightOne.mantissa := ⟨_, rfl⟩
  have hmantissa : 2 * half + em.mantissa % 2 = em.mantissa := by
    rw [hhalf]
    exact Nat.div_add_mod em.mantissa 2
  have hwide (x : ℚ) : x * 2 ^ (e + 1) = 2 * x * 2 ^ e := by
    rw [zpow_add_one₀ two_ne_zero]
    ring
  constructor
  · rw [← hhalf, hwide]
    have hle : (2 * half : ℚ) ≤ em.mantissa := by exact_mod_cast (by omega)
    exact (mul_le_mul_of_nonneg_right hle hunit.le).trans h.le
  · rw [← hhalf, hwide]
    have hle : (em.mantissa + 1 : ℚ) ≤ 2 * (half + 1) := by exact_mod_cast (by omega)
    exact h.lt.trans_le (mul_le_mul_of_nonneg_right hle hunit.le)
  · -- At the beginning of the wider place the mantissa was even and exact.
    rw [← hhalf, hwide]
    intro hq
    have hle : (em.mantissa : ℚ) ≤ 2 * half := le_of_mul_le_mul_right (hq ▸ h.le) hunit
    have heven : em.mantissa = 2 * half := by
      have : em.mantissa ≤ 2 * half := by exact_mod_cast hle
      omega
    have hexact : q = em.mantissa * 2 ^ e := by
      rw [hq, heven]
      push_cast
      rfl
    obtain ⟨hround, hsticky⟩ := accuracy_eq_exact_iff.mp (h.exact hexact)
    rw [accuracy_eq_exact_iff]
    simp [ExtendedMantissa.shiftRightOne, heven, hround, hsticky]

theorem Cuts.shiftRight (h : Cuts q em e) (k : ℕ) : Cuts q (em >>> k) (e + k) := by
  induction k with
  | zero =>
    rw [Nat.cast_zero, add_zero]
    exact h
  | succ k ih =>
    rw [Nat.cast_succ, ← add_assoc]
    exact ih.shiftRightOne

/-- The rounded mantissa does not pass a whole number of units. -/
theorem Cuts.roundedMantissa_le (h : Cuts q em e) {units : ℕ} (hq : q ≤ units * 2 ^ e) :
    em.roundedMantissa ≤ units := by
  have hunit : (0 : ℚ) < 2 ^ e := by positivity
  rcases h.le.eq_or_lt with heq | hlt
  · rw [roundedMantissa_of_exact (h.exact heq.symm)]
    exact_mod_cast le_of_mul_le_mul_right (h.le.trans hq) hunit
  · have hmantissa : em.mantissa < units := by
      exact_mod_cast lt_of_mul_lt_mul_right (hlt.trans_le hq) hunit.le
    have := (roundedMantissa_mem em).2
    omega

theorem Cuts.le_roundedMantissa (h : Cuts q em e) {units : ℕ} (hq : units * 2 ^ e ≤ q) :
    units ≤ em.roundedMantissa := by
  have hunit : (0 : ℚ) < 2 ^ e := by positivity
  have hmantissa : (units : ℚ) < (em.mantissa + 1 : ℕ) := by
    push_cast
    exact lt_of_mul_lt_mul_right (hq.trans_lt h.lt) hunit.le
  have := (roundedMantissa_mem em).1
  have : units < em.mantissa + 1 := by exact_mod_cast hmantissa
  omega

/-- Where a double is no whole number of units, mantissas have full length and pass it. -/
theorem lt_mantissa_mul (hfull : 2 ^ 52 ≤ em.mantissa ∨ e = -1074) {b : ℚ}
    (hb : -1074 < e ∧ b < 2 ^ 52 * 2 ^ e) : b < em.mantissa * 2 ^ e := by
  have hfull : (2 ^ 52 : ℚ) ≤ em.mantissa := by exact_mod_cast hfull.resolve_right hb.1.ne'
  exact hb.2.trans_le (mul_le_mul_of_nonneg_right hfull (by positivity))

/-- What is cut to full length or to the least exponent is not rounded past a double. -/
theorem Cuts.roundedMantissa_mul_le (h : Cuts q em e) (he : -1074 ≤ e)
    (hfull : 2 ^ 52 ≤ em.mantissa ∨ e = -1074) {b : ℚ} (hb : IsMagnitude b) (hq : q ≤ b) :
    em.roundedMantissa * 2 ^ e ≤ b := by
  have hunit : (0 : ℚ) < 2 ^ e := by positivity
  rcases hb.eq_units_or_lt he with ⟨units, rfl⟩ | hb
  · have hle : (em.roundedMantissa : ℚ) ≤ units := by exact_mod_cast h.roundedMantissa_le hq
    exact mul_le_mul_of_nonneg_right hle hunit.le
  · exact absurd (h.le.trans hq) (lt_mantissa_mul hfull hb).not_ge

theorem Cuts.le_roundedMantissa_mul (h : Cuts q em e) (he : -1074 ≤ e)
    (hfull : 2 ^ 52 ≤ em.mantissa ∨ e = -1074) {b : ℚ} (hb : IsMagnitude b) (hq : b ≤ q) :
    b ≤ em.roundedMantissa * 2 ^ e := by
  have hunit : (0 : ℚ) < 2 ^ e := by positivity
  rcases hb.eq_units_or_lt he with ⟨units, rfl⟩ | hb
  · have hle : (units : ℚ) ≤ em.roundedMantissa := by exact_mod_cast h.le_roundedMantissa hq
    exact mul_le_mul_of_nonneg_right hle hunit.le
  · have hle : (em.mantissa : ℚ) ≤ em.roundedMantissa := by
      exact_mod_cast (roundedMantissa_mem em).1
    exact (lt_mantissa_mul hfull hb).le.trans (mul_le_mul_of_nonneg_right hle hunit.le)

theorem cuts_exact (m : ℕ) (e : ℤ) : Cuts (m * 2 ^ e) (.ofMantissaAndAccuracy m .exact) e where
  le := le_rfl
  lt := by
    have hunit : (0 : ℚ) < 2 ^ e := by positivity
    exact mul_lt_mul_of_pos_right (lt_add_one _) hunit
  exact _ := rfl

end Cutting

/-- A finite double, which has that sign unless it is zero. -/
inductive InRange (sign : Sign) : UnpackedFloat → Prop where
  | zero (s : Sign) : InRange sign (.zero s)
  | finite {m : ℕ} {e : ℤ} (hm : 0 < m) (h : Canonical m e) : InRange sign (.finite sign m e hm)

/-- What a number is rounded to: zero or a mantissa and an exponent in range from below, such that
no double is passed. -/
structure Rounded (sign : Sign) (q : ℚ) (x : UnpackedFloat) : Prop where
  form : (∃ s, x = .zero s) ∨ ∃ m e hm, x = .finite sign m e hm ∧
    m < 2 ^ 53 ∧ -1074 ≤ e ∧ (2 ^ 52 ≤ m ∨ e = -1074)
  le {b : ℚ} : IsMagnitude b → q ≤ b → magnitude x ≤ b
  ge {b : ℚ} : IsMagnitude b → b ≤ q → b ≤ magnitude x

section Rounding
variable {sign : Sign} {q : ℚ} {m : ℕ} {e : ℤ} {accuracy : Accuracy}

/-- A number that is cut at the least exponent or below, or to a long mantissa, is cut to full
length or to the least exponent. -/
theorem exists_shiftToTargetExponent (hfine : e ≤ -1074 ∨ 2 ^ 52 ≤ m)
    (h : Cuts q (.ofMantissaAndAccuracy m accuracy) e) :
    ∃ em f, shiftToTargetExponent Format.binary64 m e accuracy = (em, f) ∧ Cuts q em f ∧
      em.mantissa < 2 ^ 53 ∧ -1074 ≤ f ∧ (2 ^ 52 ≤ em.mantissa ∨ f = -1074) := by
  obtain ⟨target, htarget⟩ : ∃ target : ℤ, target = max (m.log2 + 1 + e - 53) (-1074) := ⟨_, rfl⟩
  have hle : e ≤ target := by
    rcases hfine with hleast | hlong
    · omega
    · have : 52 ≤ m.log2 := (Nat.le_log2 (by omega)).mpr hlong
      omega
  obtain ⟨k, rfl⟩ := Int.le.dest hle
  have hmantissa :
      (ExtendedMantissa.ofMantissaAndAccuracy m accuracy >>> k).mantissa = m / 2 ^ k := by
    rw [mantissa_shiftRight, mantissa_ofMantissaAndAccuracy]
  have hshift : (e + k - e).toNat = k := by omega
  refine ⟨_, _, ?_, h.shiftRight k, ?_, ?_, ?_⟩
  · change shiftToExponent m e accuracy (max (m.log2 + 1 + e - 53) (-1074)) = _
    rw [← htarget, shiftToExponent, hshift]
  · rw [hmantissa, Nat.div_lt_iff_lt_mul (Nat.two_pow_pos k), ← Nat.pow_add]
    exact Nat.lt_log2_self.trans_le (Nat.pow_le_pow_right (by decide) (by omega))
  · omega
  · rw [hmantissa]
    rcases eq_or_ne (e + k) (-1074) with hleast | hne
    · exact .inr hleast
    · have hlog : 52 + k = m.log2 := by omega
      rw [Nat.le_div_iff_mul_le (Nat.two_pow_pos k), ← Nat.pow_add, hlog]
      exact .inl (Nat.log2_self_le fun hzero => by simp [hzero] at hlog)

/-- A rounded mantissa fits, or it is a power of two one too long. -/
theorem shiftToTargetExponent_of_le (hm : m ≤ 2 ^ 53) (he : -1074 ≤ e) :
    ∃ n f, shiftToTargetExponent Format.binary64 m e .exact = (⟨n, false, false⟩, f) ∧
      (n : ℚ) * 2 ^ f = m * 2 ^ e ∧ n < 2 ^ 53 ∧ -1074 ≤ f ∧
      (n = m ∧ f = e ∨ m = 2 ^ 53 ∧ n = 2 ^ 52 ∧ f = e + 1) := by
  rcases hm.lt_or_eq with hm | rfl
  · refine ⟨m, e, ?_, rfl, hm, he, .inl ⟨rfl, rfl⟩⟩
    have hlog : m.log2 ≤ 52 := by
      rcases eq_or_ne m 0 with rfl | hne
      · decide
      · exact Nat.le_of_lt_succ ((Nat.log2_lt hne).mpr hm)
    have hshift : (max ((m.log2 : ℤ) + 1 + e - 53) (-1074) - e).toNat = 0 := by omega
    change shiftToExponent m e .exact (max (m.log2 + 1 + e - 53) (-1074)) = _
    rw [shiftToExponent, hshift]
    change (ExtendedMantissa.ofMantissaAndAccuracy m .exact, e + 0) = _
    rw [add_zero]
    rfl
  · have hhalf : ExtendedMantissa.ofMantissaAndAccuracy (2 ^ 53) .exact >>> 1 =
        ⟨2 ^ 52, false, false⟩ := by
      change ExtendedMantissa.shiftRightOne ⟨2 ^ 53, false, false⟩ = _
      simp [ExtendedMantissa.shiftRightOne]
    refine ⟨2 ^ 52, e + 1, ?_, ?_, by decide, by omega, .inr ⟨rfl, rfl, rfl⟩⟩
    · rw [shiftToTargetExponent_eq (by decide) he, Nat.log2_two_pow, hhalf]
      rfl
    · rw [zpow_add_one₀ two_ne_zero]
      push_cast
      ring

/-- A number that is cut is rounded in the place it is cut to, or one place further if the mantissa
is carried there. -/
theorem exists_roundWithAccuracy (sign : Sign) (hfine : e ≤ -1074 ∨ 2 ^ 52 ≤ m)
    (h : Cuts q (.ofMantissaAndAccuracy m accuracy) e) :
    ∃ em f n g, shiftToTargetExponent Format.binary64 m e accuracy = (em, f) ∧ Cuts q em f ∧
      em.mantissa < 2 ^ 53 ∧ -1074 ≤ f ∧ (2 ^ 52 ≤ em.mantissa ∨ f = -1074) ∧ n < 2 ^ 53 ∧
      (n = em.roundedMantissa ∧ g = f ∨ em.roundedMantissa = 2 ^ 53 ∧ n = 2 ^ 52 ∧ g = f + 1) ∧
      (n : ℚ) * 2 ^ g = em.roundedMantissa * 2 ^ f ∧
      roundWithAccuracy Format.binary64 sign m e accuracy =
        if h : n = 0 then .zero sign else .finite sign n g (Nat.pos_of_ne_zero h) := by
  obtain ⟨em, f, hshift, hcut, hmost, hf, hfull⟩ := exists_shiftToTargetExponent hfine h
  have hrounded := roundedMantissa_mem em
  obtain ⟨n, g, hshift', hvalue, hn, -, hsame⟩ :=
    shiftToTargetExponent_of_le (m := em.roundedMantissa) (by omega) hf
  refine ⟨em, f, n, g, hshift, hcut, hmost, hf, hfull, hn, hsame, hvalue, ?_⟩
  rw [roundWithAccuracy, hshift]
  dsimp only
  rw [hshift']

theorem rounded_roundWithAccuracy (hfine : e ≤ -1074 ∨ 2 ^ 52 ≤ m)
    (h : Cuts q (.ofMantissaAndAccuracy m accuracy) e) :
    Rounded sign q (roundWithAccuracy Format.binary64 sign m e accuracy) := by
  obtain ⟨em, f, n, g, -, hcut, hmost, hf, hfull, hn, hsame, hvalue, hx⟩ :=
    exists_roundWithAccuracy sign hfine h
  have hrounded := roundedMantissa_mem em
  have hmagnitude : magnitude (roundWithAccuracy Format.binary64 sign m e accuracy) =
      em.roundedMantissa * 2 ^ f := by
    rw [hx, ← hvalue]
    split_ifs with hzero
    · rw [hzero, Nat.cast_zero, zero_mul]
      rfl
    · rfl
  refine ⟨?_, fun hb hq => ?_, fun hb hq => ?_⟩
  · rw [hx]
    split_ifs with hzero
    · exact .inl ⟨sign, rfl⟩
    · refine .inr ⟨n, g, Nat.pos_of_ne_zero hzero, rfl, hn, by omega, ?_⟩
      rcases hsame with ⟨rfl, rfl⟩ | ⟨-, rfl, -⟩
      · exact hfull.imp_left fun hfull => hfull.trans hrounded.1
      · exact .inl le_rfl
  · rw [hmagnitude]
    exact hcut.roundedMantissa_mul_le hf hfull hb hq
  · rw [hmagnitude]
    exact hcut.le_roundedMantissa_mul hf hfull hb hq

/-- What is not below the power of two above all doubles is rounded past them. -/
theorem not_inRange_roundWithAccuracy (hfine : e ≤ -1074 ∨ 2 ^ 52 ≤ m)
    (h : Cuts q (.ofMantissaAndAccuracy m accuracy) e) (hq : 2 ^ (1024 : ℤ) ≤ q) :
    ¬ InRange sign (roundWithAccuracy Format.binary64 sign m e accuracy) := by
  obtain ⟨em, f, n, g, -, hcut, hmost, hf, hfull, hn, hsame, -, hx⟩ :=
    exists_roundWithAccuracy sign hfine h
  have hrounded := roundedMantissa_mem em
  have hlarge : 971 < f := by
    by_contra! hle
    have hmantissa : (em.mantissa + 1 : ℚ) ≤ 2 ^ 53 := by exact_mod_cast hmost
    have hlt : q < 2 ^ (1024 : ℤ) := by
      calc q < (em.mantissa + 1) * 2 ^ f := hcut.lt
        _ ≤ 2 ^ 53 * 2 ^ (971 : ℤ) := mul_le_mul hmantissa
            (zpow_le_zpow_right₀ one_le_two hle) (by positivity) (by positivity)
        _ = 2 ^ (1024 : ℤ) := by rw [← zpow_natCast, ← zpow_add₀ two_ne_zero]; rfl
    exact absurd hq hlt.not_ge
  rw [hx, dif_neg (by omega)]
  intro hrange
  cases hrange with
  | finite hm hcanonical =>
    have hbelow := hcanonical.below
    omega

end Rounding

section Packing
variable {sign : Sign} {q b : ℚ} {m : ℕ} {e : ℤ} {x : UnpackedFloat}

/-- Mantissa and exponent of a finite double are kept in its bits. -/
theorem Canonical.unpack_pack (h : Canonical m e) (hm : 0 < m) :
    UnpackedFloat.unpack Format.binary64
      (UnpackedFloat.pack Format.binary64 (.finite sign m e hm)) = .finite sign m e hm := by
  obtain ⟨-, most, above, below, least⟩ := h
  rcases lt_or_ge m (2 ^ 52) with hsmall | hfull
  · obtain rfl : e = -1074 := least.resolve_left (by omega)
    have hlog : m.log2 < 52 := (Nat.log2_lt (by omega)).mpr hsmall
    have hpack : UnpackedFloat.pack Format.binary64 (.finite sign m (-1074) hm) =
        packComponents Format.binary64 sign 0#11 (.ofNat 52 m) := by
      rw [UnpackedFloat.pack, if_neg (by decide), if_neg]
      change ¬ m.log2 + 1 = 53
      omega
    have hmantissa : (BitVec.ofNat 52 m).toNat = m := by
      rw [BitVec.toNat_ofNat]
      omega
    have hzero : BitVec.ofNat 52 m ≠ 0#52 := ne_of_apply_ne BitVec.toNat <| by
      rw [hmantissa]
      exact hm.ne'
    rw [hpack, UnpackedFloat.unpack]
    simp only [unpackExponent_packComponents, unpackMantissa_packComponents,
      unpackSign_packComponents, Sign.ofBitVec_toBitVec]
    rw [if_neg (by decide), if_pos trivial, dif_neg hzero]
    congr
  · exact (Normal.finite hm hfull most above below).unpack_pack

/-- What does not exceed a double is rounded to a finite one. -/
theorem Rounded.inRange (h : Rounded sign q x) (hb : IsMagnitude b) (hq : q ≤ b) :
    InRange sign x := by
  have hle := h.le hb hq
  obtain ⟨n, f, hn, -, hf, rfl⟩ := hb
  rcases h.form with ⟨s, rfl⟩ | ⟨m, e, hm, rfl, most, above, least⟩
  · exact .zero s
  · refine .finite hm ⟨hm, most, above, ?_, least⟩
    by_contra hlarge
    have hfull : (2 ^ 52 : ℚ) ≤ m := by exact_mod_cast least.resolve_right (by omega)
    have hlt := natCast_mul_zpow_lt hn (show f < e by omega)
    exact absurd hle (hlt.trans_le (mul_le_mul_of_nonneg_right hfull (by positivity))).not_ge

theorem InRange.unpack_pack (h : InRange sign x) :
    UnpackedFloat.unpack Format.binary64 (UnpackedFloat.pack Format.binary64 x) = x := by
  cases h with
  | zero s => cases s <;> rfl
  | finite hm h => exact h.unpack_pack hm

theorem InRange.parts_ofModel (h : InRange sign x) : parts (.ofModel (.pack x)) = x :=
  h.unpack_pack

theorem InRange.parts_ofParts (h : InRange sign x) : parts (ofParts x) = x := by
  change UnpackedFloat.unpack Format.binary64 (UnpackedFloat.pack Format.binary64
    (UnpackedFloat.unpack Format.binary64 (UnpackedFloat.pack Format.binary64 x))) = x
  rw [h.unpack_pack, h.unpack_pack]

theorem InRange.isMagnitude (h : InRange sign x) : IsMagnitude (magnitude x) := by
  cases h with
  | zero s => exact isMagnitude_natCast (n := 0) (by decide)
  | finite hm h => exact h.isMagnitude

/-- A rounded value that is too large for a double is packed as infinity. -/
theorem Rounded.inRange_or_infinite (h : Rounded sign q x) : InRange sign x ∨
    UnpackedFloat.unpack Format.binary64 (UnpackedFloat.pack Format.binary64 x) =
      .infinity sign := by
  rcases h.form with ⟨s, rfl⟩ | ⟨m, e, hm, rfl, most, above, least⟩
  · exact .inl (.zero s)
  · rcases le_or_gt e 971 with hle | hlt
    · exact .inl (.finite hm ⟨hm, most, above, hle, least⟩)
    · right
      have hpack : UnpackedFloat.pack Format.binary64 (.finite sign m e hm) =
          packedInfinity Format.binary64 sign := by
        have hlarge : 2 ^ 11 ≤ (e + 1023 + 52).toNat + 1 := by omega
        exact if_pos hlarge
      rw [hpack]
      cases sign <;> rfl

/-- A double is rounded to itself. -/
theorem Rounded.magnitude_eq (h : Rounded sign q x) (hq : IsMagnitude q) : magnitude x = q :=
  le_antisymm (h.le hq le_rfl) (h.ge hq le_rfl)

end Packing

section Operations
variable {s t : Sign} {x y : UnpackedFloat}

theorem Rounded.of_zero (s : Sign) (sign : Sign) : Rounded sign 0 (.zero s) where
  form := .inl ⟨s, rfl⟩
  le hb _ := hb.nonneg
  ge _ hq := hq

/-- A product of mantissas is long, or it is cut at the least exponent. -/
theorem Canonical.mul_fine {m n : ℕ} {e f : ℤ} (h : Canonical m e) (h' : Canonical n f) :
    e + f ≤ -1074 ∨ 2 ^ 52 ≤ m * n := by
  rcases h.least with hm | rfl
  · exact .inr (hm.trans (Nat.le_mul_of_pos_right m h'.pos))
  · rcases h'.least with hn | rfl
    · exact .inr (hn.trans (Nat.le_mul_of_pos_left n h.pos))
    · exact .inl (by decide)

theorem InRange.mul (hx : InRange s x) (hy : InRange t y) :
    Rounded (s * t) (magnitude x * magnitude y) (UnpackedFloat.mul Format.binary64 x y) := by
  cases hx with
  | zero s' =>
    have hzero : magnitude (.zero s') * magnitude y = 0 := zero_mul _
    rw [hzero]
    cases hy with
    | zero t' => exact .of_zero _ _
    | finite hn h' => exact .of_zero _ _
  | @finite m e hm h =>
    cases hy with
    | zero t' =>
      have hzero : magnitude (.finite s m e hm) * magnitude (.zero t') = 0 := mul_zero _
      rw [hzero]
      exact .of_zero _ _
    | @finite n f hn h' =>
      have hproduct : magnitude (.finite s m e hm) * magnitude (.finite t n f hn) =
          (m * n : ℕ) * 2 ^ (e + f) := by
        rw [zpow_add₀ two_ne_zero]
        push_cast
        exact mul_mul_mul_comm ..
      rw [hproduct]
      exact rounded_roundWithAccuracy (h.mul_fine h') (cuts_exact _ _)

/-- A quotient is cut to full length, or at the least exponent. -/
theorem exists_divCore {m n : ℕ} (hm : 0 < m) (hn : 0 < n) (e f : ℤ) :
    ∃ (k : ℕ) (target : ℤ), divCore Format.binary64 m e n f =
        (m <<< k / n, target, accuracyOfFraction (m <<< k % n) n) ∧
      target + k = e - f ∧ (target ≤ -1074 ∨ 2 ^ 52 ≤ m <<< k / n) := by
  obtain ⟨target, htarget⟩ : ∃ target : ℤ, target = min (e - f)
    (max ((m.log2 + 1 + e) - (n.log2 + 1 + f) - 53) (-1074)) := ⟨_, rfl⟩
  refine ⟨(e - f - target).toNat, target, ?_, by omega, ?_⟩
  · rw [htarget]
    rfl
  · rcases le_or_gt target (-1074) with hleast | habove
    · exact .inl hleast
    · right
      have hshift : n.log2 + 53 ≤ m.log2 + (e - f - target).toNat := by omega
      rw [Nat.le_div_iff_mul_le hn, Nat.shiftLeft_eq]
      calc 2 ^ 52 * n ≤ 2 ^ 52 * 2 ^ (n.log2 + 1) := Nat.mul_le_mul_left _ Nat.lt_log2_self.le
        _ = 2 ^ (n.log2 + 53) := by rw [← Nat.pow_add]; congr 1; omega
        _ ≤ 2 ^ (m.log2 + (e - f - target).toNat) := Nat.pow_le_pow_right (by decide) hshift
        _ = 2 ^ m.log2 * 2 ^ (e - f - target).toNat := Nat.pow_add ..
        _ ≤ m * 2 ^ (e - f - target).toNat := Nat.mul_le_mul_right _ (Nat.log2_self_le hm.ne')

/-- A quotient of whole numbers is cut to its whole part. -/
theorem cuts_div (m : ℕ) {n : ℕ} (hn : 0 < n) (e : ℤ) :
    Cuts (m / n * 2 ^ e) (.ofMantissaAndAccuracy (m / n) (accuracyOfFraction (m % n) n)) e := by
  have hunit : (0 : ℚ) < 2 ^ e := by positivity
  have hden : (0 : ℚ) < n := by exact_mod_cast hn
  constructor
  · rw [mantissa_ofMantissaAndAccuracy]
    exact mul_le_mul_of_nonneg_right Nat.cast_div_le hunit.le
  · rw [mantissa_ofMantissaAndAccuracy]
    refine mul_lt_mul_of_pos_right ?_ hunit
    rw [div_lt_iff₀ hden]
    exact_mod_cast Nat.lt_mul_of_div_lt (Nat.lt_succ_self (m / n)) hn
  · rw [mantissa_ofMantissaAndAccuracy]
    intro hq
    have hwhole : (m : ℚ) = (m / n : ℕ) * n :=
      (div_eq_iff hden.ne').mp (mul_right_cancel₀ hunit.ne' hq)
    have hrest : m % n = 0 := by
      have hsplit := Nat.div_add_mod m n
      have hwhole : m = m / n * n := by exact_mod_cast hwhole
      rw [Nat.mul_comm] at hwhole
      omega
    rw [hrest]
    rfl

/-- A quotient is one of whole numbers at the exponent it is cut at. -/
theorem div_eq_shiftLeft_div (m n : ℕ) {k : ℕ} {e f target : ℤ} (h : target + k = e - f) :
    (m * 2 ^ e : ℚ) / (n * 2 ^ f) = (m <<< k : ℕ) / n * 2 ^ target := by
  calc (m * 2 ^ e : ℚ) / (n * 2 ^ f) = m * 2 ^ (e - f) / n := by
        rw [zpow_sub₀ two_ne_zero, div_mul_eq_div_div_swap, mul_div_assoc]
    _ = (m <<< k : ℕ) * 2 ^ target / n := by rw [natCast_shiftLeft_mul_zpow m h]
    _ = (m <<< k : ℕ) / n * 2 ^ target := mul_div_right_comm ..

theorem InRange.div (hx : InRange s x) (hy : InRange t y) (hne : magnitude y ≠ 0) :
    Rounded (s / t) (magnitude x / magnitude y) (UnpackedFloat.div Format.binary64 x y) := by
  cases hy with
  | zero t' => exact absurd rfl hne
  | @finite n f hn h' =>
    cases hx with
    | zero s' =>
      have hzero : magnitude (.zero s') / magnitude (.finite t n f hn) = 0 := zero_div _
      rw [hzero]
      exact .of_zero _ _
    | @finite m e hm h =>
      obtain ⟨k, target, hcore, hexponent, hfine⟩ := exists_divCore hm hn e f
      have hquotient : magnitude (.finite s m e hm) / magnitude (.finite t n f hn) =
          (m <<< k : ℕ) / n * 2 ^ target := div_eq_shiftLeft_div m n hexponent
      rw [hquotient, UnpackedFloat.div, hcore]
      exact rounded_roundWithAccuracy hfine (cuts_div _ hn _)

theorem rounded_round {m : ℕ} (hm : 0 < m) (e : ℤ) :
    Rounded s (m * 2 ^ e) (UnpackedFloat.round Format.binary64 s m e) := by
  obtain ⟨target, htarget⟩ : ∃ target : ℤ, target = max (m.log2 + 1 + e - 53) (-1074) := ⟨_, rfl⟩
  have hround : UnpackedFloat.round Format.binary64 s m e =
      roundWithAccuracy Format.binary64 s (m <<< (e - target).toNat) (e - (e - target).toNat)
        .exact := by
    rw [htarget]
    rfl
  have hfine : e - (e - target).toNat ≤ -1074 ∨ 2 ^ 52 ≤ m <<< (e - target).toNat := by
    rcases le_or_gt (e - (e - target).toNat) (-1074) with hleast | habove
    · exact .inl hleast
    · right
      have hlog : 52 ≤ m.log2 + (e - target).toNat := by omega
      rw [Nat.shiftLeft_eq]
      calc 2 ^ 52 ≤ 2 ^ (m.log2 + (e - target).toNat) := Nat.pow_le_pow_right (by decide) hlog
        _ = 2 ^ m.log2 * 2 ^ (e - target).toNat := Nat.pow_add ..
        _ ≤ m * 2 ^ (e - target).toNat := Nat.mul_le_mul_right _ (Nat.log2_self_le hm.ne')
  rw [hround, ← natCast_shiftLeft_mul_zpow m (sub_add_cancel e _)]
  exact rounded_roundWithAccuracy hfine (cuts_exact _ _)

theorem rounded_normalize (m : ℕ) (e : ℤ) (zeroSign : Sign) :
    Rounded .positive (m * 2 ^ e) (UnpackedFloat.normalize Format.binary64 m e zeroSign) := by
  rcases m.eq_zero_or_pos with rfl | hm
  · rw [Nat.cast_zero, zero_mul]
    exact .of_zero _ _
  · have hgt : compare (m : ℤ) 0 = .gt := Int.compare_eq_gt.mpr (by omega)
    simp only [UnpackedFloat.normalize, hgt, Int.toNat_natCast]
    exact rounded_round hm e

theorem Rounded.of_inRange (h : InRange s x) : Rounded s (magnitude x) x where
  form := by
    cases h with
    | zero s' => exact .inl ⟨s', rfl⟩
    | finite hm h => exact .inr ⟨_, _, hm, rfl, h.most, h.above, h.least⟩
  le _ hq := hq
  ge _ hq := hq

/-- The mantissas are subtracted at the smaller exponent, without a loss. -/
theorem rounded_sub_finite {m n : ℕ} {e f : ℤ} (hm : 0 < m) (hn : 0 < n)
    (hle : (n * 2 ^ f : ℚ) ≤ m * 2 ^ e) : Rounded .positive (m * 2 ^ e - n * 2 ^ f)
      (UnpackedFloat.sub Format.binary64 (.finite .positive m e hm)
        (.finite .positive n f hn)) := by
  obtain ⟨unit, hunit⟩ : ∃ unit, unit = min e f := ⟨_, rfl⟩
  have hm' := natCast_shiftLeft_mul_zpow m (k := (e - unit).toNat) (f := unit) (e := e) (by omega)
  have hn' := natCast_shiftLeft_mul_zpow n (k := (f - unit).toNat) (f := unit) (e := f) (by omega)
  rw [← hm', ← hn'] at hle ⊢
  have hmantissa : n <<< (f - unit).toNat ≤ m <<< (e - unit).toNat := by
    exact_mod_cast le_of_mul_le_mul_right hle (by positivity)
  rw [← sub_mul, ← Nat.cast_sub hmantissa, hunit]
  change Rounded _ _ (UnpackedFloat.normalize Format.binary64
    ((m <<< (e - min e f).toNat : ℕ) - (n <<< (f - min e f).toNat : ℕ) : ℤ) (min e f) .positive)
  rw [← hunit, ← Nat.cast_sub hmantissa]
  exact rounded_normalize _ _ _

/-- The difference of values that are not negative, where it is not negative itself. -/
theorem InRange.sub (hx : InRange .positive x) (hy : InRange .positive y)
    (hle : magnitude y ≤ magnitude x) :
    Rounded .positive (magnitude x - magnitude y) (UnpackedFloat.sub Format.binary64 x y) := by
  cases hy with
  | zero t' =>
    have hzero : magnitude x - magnitude (.zero t') = magnitude x := sub_zero _
    rw [hzero]
    cases hx with
    | zero s' =>
      rcases s' <;> rcases t' <;> exact .of_zero _ _
    | finite hm h => exact .of_inRange (.finite hm h)
  | @finite n f hn h' =>
    have hpos : 0 < magnitude (.finite .positive n f hn) := by
      have : (0 : ℚ) < n := by exact_mod_cast hn
      exact mul_pos this (by positivity)
    cases hx with
    | zero s' => exact absurd (hpos.trans_le hle) (lt_irrefl _)
    | finite hm h => exact rounded_sub_finite hm hn hle

end Operations

end PenStroke.Binary64
