import PenStroke.Proofs.Hypotenuses

/-! The root of a sum of squares, rounded once. The sum of the squares of two doubles is exact, and
the length lies on the same side of every double as its root, so that what is relied on of lengths
holds of this one. -/
namespace PenStroke.Binary64

open Float.Model Float.Model.UnpackedFloat

section Roots

/-- A value is the rounding of a square root: of numbers on either side that are as close to the
root as wished. -/
structure RoundedRoot (N : ℚ) (z : UnpackedFloat) : Prop where
  below : ∀ b, 0 ≤ b → N ≤ b ^ 2 → ∃ q ≤ b, Rounded .positive q z
  above : ∀ b, b ^ 2 ≤ N → ∃ q, b ≤ q ∧ Rounded .positive q z

variable {N b : ℚ} {m : ℕ} {e : ℤ} {accuracy : Accuracy}

theorem roundedRoot_roundWithAccuracy (hfine : e ≤ -1074 ∨ 2 ^ 52 ≤ m)
    (hle : (m * 2 ^ e) ^ 2 ≤ N) (hlt : N < ((m + 1) * 2 ^ e) ^ 2)
    (hexact : N = (m * 2 ^ e) ^ 2 ↔ accuracy = .exact) :
    RoundedRoot N (roundWithAccuracy Format.binary64 .positive m e accuracy) := by
  have hunit : (0 : ℚ) < 2 ^ e := by positivity
  have hcut {q : ℚ} (hq : m * 2 ^ e < q) (hq' : q < (m + 1) * 2 ^ e) :
      Rounded .positive q (roundWithAccuracy Format.binary64 .positive m e accuracy) := by
    apply rounded_roundWithAccuracy hfine
    constructor
    · rw [mantissa_ofMantissaAndAccuracy]
      exact hq.le
    · rw [mantissa_ofMantissaAndAccuracy]
      exact hq'
    · rw [mantissa_ofMantissaAndAccuracy]
      exact fun heq => absurd heq hq.ne'
  -- A number inside the place that the root lies in.
  obtain ⟨half, hlow, hhigh⟩ : ∃ half : ℚ, m * 2 ^ e < half ∧ half < (m + 1) * 2 ^ e :=
    exists_between (mul_lt_mul_of_pos_right (lt_add_one _) hunit)
  by_cases haccuracy : accuracy = .exact
  · have hN := hexact.mpr haccuracy
    have hrounded : Rounded .positive (m * 2 ^ e)
        (roundWithAccuracy Format.binary64 .positive m e accuracy) := by
      rw [haccuracy]
      exact rounded_roundWithAccuracy hfine (cuts_exact m e)
    refine ⟨fun b hb hNb => ⟨_, ?_, hrounded⟩, fun b hbN => ⟨_, ?_, hrounded⟩⟩
    · exact le_of_sq_le_sq (hN ▸ hNb) hb
    · exact le_of_sq_le_sq (hN ▸ hbN) (by positivity)
  · have hN := lt_of_le_of_ne hle (Ne.symm (mt hexact.mp haccuracy))
    refine ⟨fun b hb hNb => ⟨min b half, min_le_left _ _, hcut (lt_min ?_ hlow) ?_⟩,
      fun b hbN => ⟨max b half, le_max_left _ _, hcut ?_ (max_lt ?_ hhigh)⟩⟩
    · exact lt_of_pow_lt_pow_left₀ 2 hb (hN.trans_le hNb)
    · exact (min_le_right _ _).trans_lt hhigh
    · exact hlow.trans_le (le_max_right _ _)
    · exact lt_of_pow_lt_pow_left₀ 2 (by positivity) (hbN.trans_lt hlt)

/-- A root is cut to full length, or at the least exponent. -/
theorem exists_sqrtCore {n : ℕ} (hn : 0 < n) (e : ℤ) : ∃ (k : ℕ) (target : ℤ),
    sqrtCore Format.binary64 n e = ((n <<< k).sqrt, target,
      if n <<< k - (n <<< k).sqrt * (n <<< k).sqrt = 0 then .exact
      else .inexact (if n <<< k - (n <<< k).sqrt * (n <<< k).sqrt ≤ (n <<< k).sqrt then .lt
        else .gt)) ∧
      2 * target + k = e ∧ (target ≤ -1074 ∨ 2 ^ 52 ≤ (n <<< k).sqrt) := by
  obtain ⟨target, htarget⟩ : ∃ target : ℤ, target = min (e.ediv 2)
    (max ((n.log2 + 1 + e + 1).ediv 2 - 53) (-1074)) := ⟨_, rfl⟩
  have hediv : e.ediv 2 = e / 2 := rfl
  have hediv' : ((n.log2 : ℤ) + 1 + e + 1).ediv 2 = (n.log2 + 1 + e + 1) / 2 := rfl
  rw [hediv, hediv'] at htarget
  refine ⟨(e - 2 * target).toNat, target, ?_, by omega, ?_⟩
  · rw [htarget]
    rfl
  · rcases le_or_gt target (-1074) with hleast | habove
    · exact .inl hleast
    · right
      have hlog : 104 ≤ n.log2 + (e - 2 * target).toNat := by omega
      rw [Nat.le_sqrt, Nat.shiftLeft_eq]
      calc 2 ^ 52 * 2 ^ 52 = 2 ^ 104 := rfl
        _ ≤ 2 ^ (n.log2 + (e - 2 * target).toNat) := Nat.pow_le_pow_right (by decide) hlog
        _ = 2 ^ n.log2 * 2 ^ (e - 2 * target).toNat := Nat.pow_add ..
        _ ≤ n * 2 ^ (e - 2 * target).toNat := Nat.mul_le_mul_right _ (Nat.log2_self_le hn.ne')

theorem roundedRoot_sqrtScaled {n : ℕ} (hn : 0 < n) (e : ℤ) :
    ∃ z, sqrtScaled n e = ofParts z ∧ RoundedRoot (n * 2 ^ e) z := by
  obtain ⟨k, target, hcore, hexponent, hfine⟩ := exists_sqrtCore hn e
  refine ⟨_, by rw [sqrtScaled, hcore], ?_⟩
  have hunit : (0 : ℚ) < 2 ^ (2 * target) := by positivity
  have hsquare (x : ℚ) : (x * 2 ^ target) ^ 2 = x ^ 2 * 2 ^ (2 * target) := by
    rw [mul_pow, mul_comm 2 target, zpow_mul]
    rfl
  have hroot : (n <<< k).sqrt * (n <<< k).sqrt ≤ n <<< k := Nat.sqrt_le _
  have hroot' : n <<< k < ((n <<< k).sqrt + 1) * ((n <<< k).sqrt + 1) := Nat.lt_succ_sqrt _
  rw [← natCast_shiftLeft_mul_zpow n hexponent]
  apply roundedRoot_roundWithAccuracy hfine
  · rw [hsquare, sq]
    exact mul_le_mul_of_nonneg_right (by exact_mod_cast hroot) hunit.le
  · rw [hsquare, sq]
    exact mul_lt_mul_of_pos_right (by exact_mod_cast hroot') hunit
  · rw [hsquare, sq, mul_left_inj' hunit.ne']
    norm_cast
    split_ifs with hrest
    · exact iff_of_true (by omega) rfl
    · exact iff_of_false (by omega) (by simp)

theorem InRange.roundedRoot {z : UnpackedFloat} (h : InRange .positive z) :
    RoundedRoot (magnitude z ^ 2) z :=
  ⟨fun _ hb hle => ⟨_, le_of_sq_le_sq hle hb, .of_inRange h⟩,
    fun _ hle => ⟨_, le_of_sq_le_sq hle (magnitude_nonneg z), .of_inRange h⟩⟩

end Roots

section Legs
variable {x y : Float} {s t : Sign}

theorem InRange.eq_ofParts (h : InRange s (parts x)) : x = ofParts (parts x) :=
  parts_injective h.parts_ofParts.symm

theorem hypot_of_zero_left (hx : parts x = .zero s) (hy : InRange t (parts y)) :
    hypot x y = y.abs := by
  unfold hypot
  rw [hx]
  cases hparts : parts y with
  | infinity t' | notANumber => rw [hparts] at hy; cases hy
  | zero t' | finite t' n f hn => rfl

theorem hypot_of_zero_right {m : ℕ} {e : ℤ} {hm : 0 < m} (hx : parts x = .finite s m e hm)
    (hy : parts y = .zero t) : hypot x y = x.abs := by
  simp only [hypot, hx, hy]

theorem exists_roundedRoot_abs (hx : InRange s (parts x)) :
    ∃ z, x.abs = ofParts z ∧ RoundedRoot (magnitude (parts x) ^ 2) z := by
  have hrange : InRange .positive (parts x.abs) := by
    rw [parts_abs]
    exact hx.abs
  refine ⟨_, hrange.eq_ofParts, ?_⟩
  have hroot := hrange.roundedRoot
  rwa [parts_abs, magnitude_abs, ← parts_abs] at hroot

/-- Legs that are not zero are whole multiples of a common unit. -/
theorem exists_legs {m n : ℕ} {e f : ℤ} {hm : 0 < m} {hn : 0 < n} (hx : parts x = .finite s m e hm)
    (hy : parts y = .finite t n f hn) :
    ∃ (a b : ℕ) (unit : ℤ), 0 < a ∧ hypot x y = sqrtScaled (a * a + b * b) (2 * unit) ∧
      magnitude (parts x) = a * 2 ^ unit ∧ magnitude (parts y) = b * 2 ^ unit := by
  obtain ⟨unit, hunit⟩ : ∃ unit, unit = min e f := ⟨_, rfl⟩
  refine ⟨m <<< (e - unit).toNat, n <<< (f - unit).toNat, unit, ?_, ?_, ?_, ?_⟩
  · rw [Nat.shiftLeft_eq]
    positivity
  · simp only [hypot, hx, hy, hunit]
  · rw [natCast_shiftLeft_mul_zpow m (f := unit) (e := e) (by omega), hx]
    rfl
  · rw [natCast_shiftLeft_mul_zpow n (f := unit) (e := f) (by omega), hy]
    rfl

/-- The length of a hypotenuse is the rounding of the root of the sum of squares. -/
theorem exists_roundedRoot_hypot (hx : InRange s (parts x)) (hy : InRange t (parts y)) :
    ∃ z, hypot x y = ofParts z ∧
      RoundedRoot (magnitude (parts x) ^ 2 + magnitude (parts y) ^ 2) z := by
  cases hx' : parts x with
  | infinity s' | notANumber => rw [hx'] at hx; cases hx
  | zero s' =>
    have hzero : magnitude (.zero s') = 0 := rfl
    rw [hypot_of_zero_left hx' hy, hzero, zero_pow two_ne_zero, zero_add]
    exact exists_roundedRoot_abs hy
  | finite s' m e hm =>
    cases hy' : parts y with
    | infinity t' | notANumber => rw [hy'] at hy; cases hy
    | zero t' =>
      have hzero : magnitude (.zero t') = 0 := rfl
      rw [hypot_of_zero_right hx' hy', hzero, zero_pow two_ne_zero, add_zero, ← hx']
      exact exists_roundedRoot_abs hx
    | finite t' n f hn =>
      obtain ⟨a, b, unit, hpos, hroot, ha, hb⟩ := exists_legs hx' hy'
      have hsum : magnitude (parts x) ^ 2 + magnitude (parts y) ^ 2 =
          (a * a + b * b : ℕ) * 2 ^ (2 * unit) := by
        rw [ha, hb, two_mul, zpow_add₀ two_ne_zero]
        push_cast
        ring
      have hpos : 0 < a * a := Nat.mul_pos hpos hpos
      rw [← hx', ← hy', hroot, hsum]
      exact roundedRoot_sqrtScaled (by omega) _

/-- The length of a bounded displacement is bounded. -/
theorem Within.hypot {p : ℕ} (hx : Within p x) (hy : Within p y) (hp : p < 1023) :
    Within (p + 1) (hypot x y) := by
  obtain ⟨s, hx'⟩ := hx.exists_inRange
  obtain ⟨t, hy'⟩ := hy.exists_inRange
  obtain ⟨z, hz, hroot⟩ := exists_roundedRoot_hypot hx' hy'
  have hsum : magnitude (parts x) ^ 2 + magnitude (parts y) ^ 2 ≤ (2 ^ (p + 1)) ^ 2 := by
    calc magnitude (parts x) ^ 2 + magnitude (parts y) ^ 2 ≤ (2 ^ p) ^ 2 + (2 ^ p) ^ 2 :=
          add_le_add (pow_le_pow_left₀ (magnitude_nonneg _) hx.le 2)
            (pow_le_pow_left₀ (magnitude_nonneg _) hy.le 2)
      _ ≤ (2 ^ (p + 1)) ^ 2 := by
          rw [pow_succ 2 p, mul_pow]
          linarith [sq_nonneg ((2 : ℚ) ^ p)]
  obtain ⟨q, hq, hrounded⟩ := hroot.below _ (by positivity) hsum
  have hb := isMagnitude_two_pow (Nat.succ_le_of_lt hp)
  have hrange := hrounded.inRange hb hq
  rw [hz]
  refine ⟨isFinite_iff.mpr ⟨.positive, ?_⟩, ?_⟩
  · rwa [hrange.parts_ofParts]
  · rw [hrange.parts_ofParts]
    exact hrounded.le hb hq

theorem isFinite_of_hypot (h : (hypot x y).isFinite = true) :
    x.isFinite = true ∧ y.isFinite = true := by
  have hinfinite : (ofParts (.infinity .positive)).isFinite = false := rfl
  have hundefined : (ofParts .notANumber).isFinite = false := rfl
  change (parts x).isFinite = true ∧ (parts y).isFinite = true
  unfold hypot at h
  generalize parts x = a at h ⊢
  generalize parts y = b at h ⊢
  cases a <;> cases b <;> simp [hinfinite, hundefined, UnpackedFloat.isFinite] at h ⊢

/-- Where a length is finite, the legs are not longer. -/
theorem legs_le_hypot (h : (hypot x y).isFinite = true) :
    magnitude (parts x) ≤ magnitude (parts (hypot x y)) ∧
      magnitude (parts y) ≤ magnitude (parts (hypot x y)) := by
  obtain ⟨hx, hy⟩ := isFinite_of_hypot h
  obtain ⟨s, hx⟩ := isFinite_iff.mp hx
  obtain ⟨t, hy⟩ := isFinite_iff.mp hy
  obtain ⟨z, hz, hroot⟩ := exists_roundedRoot_hypot hx hy
  obtain ⟨q, hq, hrounded⟩ := hroot.above (magnitude (parts x))
    (le_add_of_nonneg_right (sq_nonneg _))
  obtain ⟨q', hq', hrounded'⟩ := hroot.above (magnitude (parts y))
    (le_add_of_nonneg_left (sq_nonneg _))
  have hrange : InRange .positive z := by
    refine hrounded.inRange_or_infinite.resolve_right fun hinfinite => ?_
    rw [hz] at h
    change (UnpackedFloat.unpack _ (UnpackedFloat.pack _
      (UnpackedFloat.unpack _ (UnpackedFloat.pack _ z)))).isFinite = true at h
    rw [hinfinite] at h
    cases h
  rw [hz, hrange.parts_ofParts]
  exact ⟨hrounded.ge hx.isMagnitude hq, hrounded'.ge hy.isMagnitude hq'⟩

/-- What is relied on of lengths holds of the root that is rounded once. -/
theorem hypotenuseLaws_hypot : HypotenuseLaws where
  finite_legs := isFinite_of_hypot
  legs_le {x y} h := by
    obtain ⟨hx, hy⟩ := legs_le_hypot h
    have hdouble : magnitude (parts (hypot x y)) ≤ 2 * magnitude (parts (hypot x y)) :=
      le_mul_of_one_le_left (magnitude_nonneg _) one_le_two
    exact ⟨hx.trans hdouble, hy.trans hdouble⟩
  within := Within.hypot

end Legs

end PenStroke.Binary64
