import Mathlib
import PenStroke.Scalar.Binary64

/-! Doubles with a mantissa of full length. Rounding keeps a long mantissa at full length, so whole
numbers of 64 bits are such doubles, and their quotients by themselves are exactly one. -/
namespace PenStroke.Binary64

open Float.Model Float.Model.UnpackedFloat

variable {sign : Sign}

/-- A finite value with a mantissa of full length and an exponent within bounds. -/
inductive Normal (sign : Sign) (lo hi : Int) : UnpackedFloat → Prop where
  | finite {m : Nat} {e : Int} (h : 0 < m) (least : 2 ^ 52 ≤ m) (most : m < 2 ^ 53)
      (above : lo ≤ e) (below : e ≤ hi) : Normal sign lo hi (.finite sign m e h)

theorem Normal.mono {lo hi lo' hi' : Int} {x : UnpackedFloat} (h : Normal sign lo hi x)
    (hlo : lo' ≤ lo) (hhi : hi ≤ hi') : Normal sign lo' hi' x := by
  obtain ⟨h, least, most, above, below⟩ := h
  exact .finite h least most (by omega) (by omega)

section Rounding

theorem mantissa_shiftRight (em : ExtendedMantissa) (n : Nat) :
    (em >>> n).mantissa = em.mantissa / 2 ^ n := by
  induction n with
  | zero => exact (Nat.div_one _).symm
  | succ n ih =>
    change (em >>> n).mantissa / 2 = _
    rw [ih, Nat.div_div_eq_div_mul, Nat.pow_succ]

theorem mantissa_ofMantissaAndAccuracy (m : Nat) (accuracy : Accuracy) :
    (ExtendedMantissa.ofMantissaAndAccuracy m accuracy).mantissa = m := by
  unfold ExtendedMantissa.ofMantissaAndAccuracy
  split <;> rfl

theorem roundedMantissa_mem (em : ExtendedMantissa) :
    em.mantissa ≤ em.roundedMantissa ∧ em.roundedMantissa ≤ em.mantissa + 1 := by
  unfold ExtendedMantissa.roundedMantissa Accuracy.roundToNearestEven
  split <;> omega

/-- A mantissa of full length or longer is cut to full length. -/
theorem shiftToTargetExponent_eq {m : Nat} (hm : 2 ^ 52 ≤ m) {e : Int} (he : -1074 ≤ e)
    (accuracy : Accuracy) :
    shiftToTargetExponent Format.binary64 m e accuracy =
      (ExtendedMantissa.ofMantissaAndAccuracy m accuracy >>> (m.log2 - 52),
        e + (m.log2 - 52 : Nat)) := by
  have hlog : 52 ≤ m.log2 := (Nat.le_log2 (by omega)).mpr hm
  have htarget : Format.binary64.targetExponent (totalExponent m e) = e + (m.log2 - 52 : Nat) := by
    change max ((m.log2 : Int) + 1 + e - 53) (-1074) = _
    omega
  have hshift : (e + (m.log2 - 52 : Nat) - e).toNat = m.log2 - 52 := by omega
  simp only [shiftToTargetExponent, shiftToExponent, htarget, hshift]

theorem div_two_pow_log2 {m : Nat} (hm : 2 ^ 52 ≤ m) :
    2 ^ 52 ≤ m / 2 ^ (m.log2 - 52) ∧ m / 2 ^ (m.log2 - 52) < 2 ^ 53 := by
  have hlog : 52 ≤ m.log2 := (Nat.le_log2 (by omega)).mpr hm
  constructor
  · rw [Nat.le_div_iff_mul_le (Nat.two_pow_pos _), ← Nat.pow_add, Nat.add_sub_cancel' hlog]
    exact Nat.log2_self_le (by omega)
  · rw [Nat.div_lt_iff_lt_mul (Nat.two_pow_pos _), ← Nat.pow_add,
      show 53 + (m.log2 - 52) = m.log2 + 1 by omega]
    exact Nat.lt_log2_self

theorem normal_of_length {lo hi : Int} {m : Nat} {e : Int} (least : 2 ^ 52 ≤ m)
    (most : m < 2 ^ 53) (above : lo ≤ e) (below : e ≤ hi) :
    Normal sign lo hi (if h : m = 0 then .zero sign
      else .finite sign m e (Nat.pos_of_ne_zero h)) := by
  rw [dif_neg (by omega)]
  exact .finite _ least most above below

/-- Rounding gives a mantissa of full length again; the last step may carry into the exponent. -/
theorem normal_roundWithAccuracy {m : Nat} (hm : 2 ^ 52 ≤ m) {e : Int}
    (he : -1074 ≤ e) (accuracy : Accuracy) :
    Normal sign e (e + m.log2 - 51) (roundWithAccuracy Format.binary64 sign m e accuracy) := by
  have hlog : 52 ≤ m.log2 := (Nat.le_log2 (by omega)).mpr hm
  obtain ⟨em, hem⟩ : ∃ em, em = ExtendedMantissa.ofMantissaAndAccuracy m accuracy >>>
    (m.log2 - 52) := ⟨_, rfl⟩
  have hcut := div_two_pow_log2 hm
  have hrounded := roundedMantissa_mem em
  rw [show em.mantissa = m / 2 ^ (m.log2 - 52) by
    rw [hem, mantissa_shiftRight, mantissa_ofMantissaAndAccuracy]] at hrounded
  have hfull : 2 ^ 52 ≤ em.roundedMantissa := by omega
  have hagain := div_two_pow_log2 hfull
  -- The rounded mantissa is at most the power of two after the last one of full length.
  have hcarry : em.roundedMantissa.log2 < 54 := (Nat.log2_lt (by omega)).mpr (by omega)
  have hfinal : (ExtendedMantissa.ofMantissaAndAccuracy em.roundedMantissa .exact >>>
      (em.roundedMantissa.log2 - 52)).mantissa =
        em.roundedMantissa / 2 ^ (em.roundedMantissa.log2 - 52) := by
    rw [mantissa_shiftRight, mantissa_ofMantissaAndAccuracy]
  rw [← hfinal] at hagain
  rw [roundWithAccuracy, shiftToTargetExponent_eq hm he, ← hem]
  dsimp only
  rw [shiftToTargetExponent_eq hfull (by omega)]
  exact normal_of_length hagain.1 hagain.2 (by omega) (by omega)

theorem normal_round {m : Nat} (hm : 0 < m) (hm' : m < 2 ^ 53) :
    Normal sign (-52) 1 (UnpackedFloat.round Format.binary64 sign m 0) := by
  have hlog : m.log2 < 53 := (Nat.log2_lt (by omega)).mpr hm'
  have htarget : Format.binary64.targetExponent (totalExponent m 0) = m.log2 - 52 := by
    change max ((m.log2 : Int) + 1 + 0 - 53) (-1074) = _
    omega
  have hshift : (0 - ((m.log2 : Int) - 52)).toNat = 52 - m.log2 := by omega
  have hfull : 2 ^ 52 ≤ m <<< (52 - m.log2) := by
    rw [Nat.shiftLeft_eq]
    calc 2 ^ 52 = 2 ^ m.log2 * 2 ^ (52 - m.log2) := by rw [← Nat.pow_add]; congr 1; omega
      _ ≤ m * 2 ^ (52 - m.log2) := Nat.mul_le_mul_right _ (Nat.log2_self_le (by omega))
  have hlog' : (m <<< (52 - m.log2)).log2 < 53 := by
    rw [Nat.log2_lt (by omega), Nat.shiftLeft_eq]
    calc m * 2 ^ (52 - m.log2) < 2 ^ (m.log2 + 1) * 2 ^ (52 - m.log2) :=
          Nat.mul_lt_mul_of_pos_right Nat.lt_log2_self (Nat.two_pow_pos _)
      _ = 2 ^ 53 := by rw [← Nat.pow_add]; congr 1; omega
  simp only [UnpackedFloat.round, decreaseExponent, htarget, hshift]
  exact (normal_roundWithAccuracy hfull (by omega) .exact).mono (by omega) (by omega)

end Rounding

/-- Doubles with a mantissa of full length keep what they are made of. -/
theorem Normal.unpack_pack {x : UnpackedFloat} (h : Normal sign (-1074) 971 x) :
    UnpackedFloat.unpack Format.binary64 (UnpackedFloat.pack Format.binary64 x) = x := by
  obtain ⟨h, least, most, above, below⟩ := h
  rename_i m e
  have hlog : m.log2 = 52 := (Nat.log2_eq_iff (by omega)).mpr ⟨least, most⟩
  let exponent : BitVec 11 := BitVec.ofNat 11 (e + 1023 + 52).toNat
  have hexponent : exponent.toNat = (e + 1075).toNat := by
    rw [BitVec.toNat_ofNat]
    omega
  have hpack : UnpackedFloat.pack Format.binary64 (.finite sign m e h) =
      packComponents Format.binary64 sign exponent (BitVec.ofNat 52 m) := by
    have hrange : ¬ 2048 ≤ (e + 1023 + 52).toNat + 1 := by omega
    simp only [UnpackedFloat.pack, hlog]
    exact (if_neg hrange).trans (if_pos rfl)
  have hinfinite : exponent ≠ -1#11 := ne_of_apply_ne BitVec.toNat <| by
    rw [hexponent]
    change _ ≠ 2047
    omega
  have hsmall : exponent ≠ 0#11 := ne_of_apply_ne BitVec.toNat <| by
    rw [hexponent]
    change _ ≠ 0
    omega
  -- The leading bit of the mantissa is not stored.
  have hmantissa : (1#1 ++ BitVec.ofNat 52 m).toNat = m := by
    rw [BitVec.toNat_append, BitVec.toNat_ofNat, ← Nat.shiftLeft_add_eq_or_of_lt (by omega)]
    change 2 ^ 52 + m % 2 ^ 52 = m
    omega
  have hvalue : (exponent.toNat : Int) - (1023 + 52) = e := by
    omega
  rw [hpack, UnpackedFloat.unpack]
  simp only [unpackExponent_packComponents, unpackMantissa_packComponents,
    unpackSign_packComponents, Sign.ofBitVec_toBitVec]
  rw [if_neg hinfinite, if_neg hsmall]
  congr

/-- A double that is finite with a mantissa of full length. -/
def IsNormal (sign : Sign) (x : Float) : Prop := Normal sign (-1074) 970 (parts x)

theorem isNormal_ofModel {x : UnpackedFloat} (h : Normal sign (-1074) 970 x) :
    IsNormal sign (.ofModel (.pack x)) := by
  change Normal _ _ _ (UnpackedFloat.unpack Format.binary64 (UnpackedFloat.pack Format.binary64 x))
  rwa [(h.mono le_rfl (by decide)).unpack_pack]

theorem normal_ofNat {n : Nat} (hn : 0 < n) (hn' : n < 2 ^ 53) :
    Normal .positive (-52) 1 (UnpackedFloat.ofNat Format.binary64 n) := by
  have hgt : compare (n : Int) 0 = .gt := Int.compare_eq_gt.mpr (by omega)
  simp only [UnpackedFloat.ofNat, UnpackedFloat.ofInt, UnpackedFloat.normalize, hgt,
    Int.toNat_natCast]
  exact normal_round hn hn'

theorem Normal.mul_one {x : UnpackedFloat} (h : Normal .positive (-52) 1 x) :
    Normal .positive (-1074) 970
      (UnpackedFloat.mul Format.binary64 x (.finite .positive (2 ^ 52) (-52) (by decide))) := by
  obtain ⟨h, least, most, above, below⟩ := h
  rename_i m e
  have hlog : (m * 2 ^ 52).log2 < 105 := (Nat.log2_lt (by omega)).mpr (by omega)
  exact (normal_roundWithAccuracy (m := m * 2 ^ 52) (e := e + -52) (by omega) (by omega)
    .exact).mono (by omega) (by omega)

/-- Whole numbers that fit 64 bits are normal, also where they have to be rounded. -/
theorem isNormal_ofNat {n : Nat} (hn : 0 < n) (hn' : n < 2 ^ 64) :
    IsNormal .positive (Float.ofNat n) := by
  change IsNormal .positive (Float.ofScientific n false 0)
  unfold Float.ofScientific
  by_cases hsmall : n < 2 ^ 53
  · have hword : n.toUInt64.toNat = n := Nat.mod_eq_of_lt hn'
    have hn := normal_ofNat hn hsmall
    have hparts : parts n.toUInt64.toFloat = UnpackedFloat.ofNat Format.binary64 n := by
      change UnpackedFloat.unpack _ (UnpackedFloat.pack _
        (UnpackedFloat.ofNat _ n.toUInt64.toNat)) = _
      rw [hword, (hn.mono (by decide) (by decide)).unpack_pack]
    have hten : parts Float.exactlyRepresentablePowersOfTen[0] =
        .finite .positive (2 ^ 52) (-52) (by decide) := rfl
    have hproduct := hn.mul_one
    rw [← hparts, ← hten] at hproduct
    rw [dif_pos ⟨hsmall, by decide⟩, if_neg (by decide)]
    exact isNormal_ofModel hproduct
  · have hone : (n <<< 53) * 1 = n * 2 ^ 53 := by rw [Nat.shiftLeft_eq, Nat.mul_one]
    have hlog : (n * 2 ^ 53).log2 < 117 := (Nat.log2_lt (by omega)).mpr (by omega)
    have hproduct : Normal .positive (-1074) 970
        (roundWithAccuracy Format.binary64 .positive (n * 2 ^ 53) (-53) .exact) :=
      (normal_roundWithAccuracy (by omega) (by omega) .exact).mono (by omega) (by omega)
    rw [dif_neg (by omega)]
    apply isNormal_ofModel
    change Normal _ _ _ (UnpackedFloat.ofScientific _ n 0)
    have hrange : ¬ (0 : Int) < -((2 ^ 11 : Int) + n.log2) := by omega
    rw [UnpackedFloat.ofScientific, dif_neg (by omega), if_neg (by decide), if_neg hrange,
      if_pos (by decide)]
    rw [← hone] at hproduct
    exact hproduct

theorem divCore_self {m : Nat} (hm : 0 < m) (e : Int) :
    divCore Format.binary64 m e m e = (2 ^ 53, -53, .exact) := by
  simp only [divCore, Int.sub_self]
  change ((m <<< 53) / m, (-53 : Int), accuracyOfFraction ((m <<< 53) % m) m) = _
  rw [Nat.shiftLeft_eq, Nat.mul_div_cancel_left _ hm, Nat.mul_mod_right]
  rfl

theorem IsNormal.div_self {x : Float} (h : IsNormal sign x) : x / x = 1 := by
  change Float.ofModel (.pack (UnpackedFloat.div Format.binary64 (parts x) (parts x))) = 1
  unfold IsNormal at h
  generalize parts x = y at h
  obtain ⟨hm, -, -, -, -⟩ := h
  simp only [UnpackedFloat.div, divCore_self hm]
  cases sign <;> rfl

theorem IsNormal.zero_div {x : Float} (h : IsNormal .positive x) : 0 / x = 0 := by
  change Float.ofModel (.pack (UnpackedFloat.div Format.binary64 (parts 0) (parts x))) = 0
  unfold IsNormal at h
  generalize parts x = y at h
  obtain ⟨-, -, -, -, -⟩ := h
  rfl

end PenStroke.Binary64
