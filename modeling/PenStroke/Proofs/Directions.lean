import PenStroke.Proofs.KnotCurves
import PenStroke.Proofs.RoundedRoots

/-! Directions and control points over doubles. A direction is a displacement times the reciprocal
of its length, and a length can be so short that its reciprocal is out of range. There is no finite
direction then, and there are no finite control points beside a chord of such a length. Both hold
however closely lengths are computed. -/
namespace PenStroke

namespace Binary64

open Float.Model Float.Model.UnpackedFloat

section Reciprocals
variable {x y : Float} {s t : Sign}

/-- A quotient that is too large for a double is infinite. -/
theorem parts_div_of_large (hx : InRange s (parts x)) (hy : InRange t (parts y))
    (hne : magnitude (parts y) ≠ 0)
    (hq : 2 ^ (1024 : ℤ) ≤ magnitude (parts x) / magnitude (parts y)) :
    parts (x / y) = .infinity (s / t) := by
  have hrounded := hx.div hy hne
  change UnpackedFloat.unpack _
    (UnpackedFloat.pack _ (UnpackedFloat.div _ (parts x) (parts y))) = _
  refine hrounded.inRange_or_infinite.resolve_left ?_
  generalize parts x = a at hx hq ⊢
  generalize parts y = b at hy hne hq ⊢
  cases hy with
  | zero t' => exact absurd rfl hne
  | @finite n f hn h' =>
    cases hx with
    | zero s' =>
      have hzero : magnitude (.zero s') / magnitude (.finite t n f hn) = 0 := zero_div _
      rw [hzero] at hq
      exact absurd hq (not_le.mpr (by positivity))
    | @finite m e hm h =>
      obtain ⟨k, target, hcore, hexponent, hfine⟩ := exists_divCore hm hn e f
      have hquotient : magnitude (.finite s m e hm) / magnitude (.finite t n f hn) =
          (m <<< k : ℕ) / n * 2 ^ target := div_eq_shiftLeft_div m n hexponent
      rw [hquotient] at hq
      rw [UnpackedFloat.div, hcore]
      exact not_inRange_roundWithAccuracy hfine (cuts_div _ hn _) hq

/-- Powers of two in units of the least exponent. -/
theorem inRange_units {k : ℕ} (hk : k ≤ 52) (hm : 0 < 2 ^ k) :
    InRange .positive (.finite .positive (2 ^ k) (-1074) hm) ∧
      magnitude (.finite .positive (2 ^ k) (-1074) hm) = 2 ^ (k - 1074 : ℤ) := by
  have hmost : 2 ^ k < 2 ^ 53 := Nat.pow_lt_pow_right (by decide) (by omega)
  refine ⟨.finite hm ⟨hm, hmost, by decide, by decide, .inr rfl⟩, ?_⟩
  rw [magnitude, Nat.cast_pow, Nat.cast_ofNat, ← zpow_natCast, ← zpow_add₀ two_ne_zero]
  rfl

/-- The largest value whose reciprocal is out of range. -/
def reciprocalLimit : Float := ofParts (.finite .positive (2 ^ 50) (-1074) (by decide))

theorem inRange_reciprocalLimit : InRange .positive (parts reciprocalLimit) ∧
    magnitude (parts reciprocalLimit) = 2 ^ (-1024 : ℤ) :=
  inRange_units (k := 50) (by decide) (by decide)

/-- The least double above zero with a full mantissa. -/
def leastNormal : Float := 2.2250738585072014e-308

theorem inRange_leastNormal : InRange .positive (parts leastNormal) ∧
    magnitude (parts leastNormal) = 2 ^ (-1022 : ℤ) := by
  have hbits : leastNormal.toBits = 0x10000000000000 := by decide +kernel
  rw [parts, hbits]
  exact inRange_units (k := 52) (by decide) (by decide)

theorem within_reciprocalLimit : Within 0 reciprocalLimit := by decide +kernel

/-- Values up to the limit have an infinite reciprocal. -/
theorem parts_reciprocal_of_le (hx : InRange s (parts x)) (hne : magnitude (parts x) ≠ 0)
    (hle : magnitude (parts x) ≤ 2 ^ (-1024 : ℤ)) : parts (1 / x) = .infinity (.positive / s) := by
  obtain ⟨hone, hone'⟩ := inRange_one
  apply parts_div_of_large hone hx hne
  have hpos : 0 < magnitude (parts x) := lt_of_le_of_ne (magnitude_nonneg _) hne.symm
  rw [hone', le_div_iff₀ hpos]
  calc 2 ^ (1024 : ℤ) * magnitude (parts x) ≤ 2 ^ (1024 : ℤ) * 2 ^ (-1024 : ℤ) :=
        mul_le_mul_of_nonneg_left hle (by positivity)
    _ = 1 := by rw [← zpow_add₀ two_ne_zero]; rfl

/-- Doubles above the limit are above it by a unit of the least exponent. -/
theorem le_of_reciprocalLimit_lt {b : ℚ} (hb : IsMagnitude b) (hlt : 2 ^ (-1024 : ℤ) < b) :
    (2 ^ 50 + 1) * 2 ^ (-1074 : ℤ) ≤ b := by
  obtain ⟨n, f, -, hf, -, rfl⟩ := hb
  obtain ⟨k, rfl⟩ := Int.le.dest hf
  have hunit : (0 : ℚ) < 2 ^ (-1074 : ℤ) := by positivity
  have hlimit : (2 : ℚ) ^ (-1024 : ℤ) = 2 ^ 50 * 2 ^ (-1074 : ℤ) := by
    rw [← zpow_natCast, ← zpow_add₀ two_ne_zero]
    rfl
  have hvalue : (n : ℚ) * 2 ^ (-1074 + k : ℤ) = (n * 2 ^ k : ℕ) * 2 ^ (-1074 : ℤ) := by
    rw [zpow_add_natCast, Nat.cast_mul, Nat.cast_pow, Nat.cast_ofNat, mul_comm (2 ^ (-1074 : ℤ)),
      mul_assoc]
  rw [hvalue] at hlt ⊢
  rw [hlimit, mul_lt_mul_iff_of_pos_right hunit] at hlt
  have hunits : 2 ^ 50 < n * 2 ^ k := by exact_mod_cast hlt
  have hunits : (2 ^ 50 + 1 : ℚ) ≤ (n * 2 ^ k : ℕ) := by exact_mod_cast hunits
  exact mul_le_mul_of_nonneg_right hunits hunit.le

theorem isMagnitude_largest : IsMagnitude ((2 ^ 53 - 1) * 2 ^ (971 : ℤ)) :=
  ⟨2 ^ 53 - 1, 971, by decide, by decide, le_rfl, by norm_num⟩

/-- Values above the limit have a finite reciprocal. -/
theorem rounded_reciprocal (hx : InRange s (parts x))
    (hlt : 2 ^ (-1024 : ℤ) < magnitude (parts x)) :
    Rounded (.positive / s) (1 / magnitude (parts x)) (parts (1 / x)) ∧
      (1 / x).isFinite = true ∧ magnitude (parts (1 / x)) ≤ (2 ^ 53 - 1) * 2 ^ (971 : ℤ) := by
  obtain ⟨hone, hone'⟩ := inRange_one
  have hpos : 0 < magnitude (parts x) := lt_trans (by positivity) hlt
  have hunits : (2 : ℚ) ^ (-1074 : ℤ) * 2 ^ (971 : ℤ) = 2 ^ (-103 : ℤ) := by
    rw [← zpow_add₀ two_ne_zero]
    rfl
  have hle : magnitude (parts 1) / magnitude (parts x) ≤ (2 ^ 53 - 1) * 2 ^ (971 : ℤ) := by
    rw [hone', div_le_iff₀ hpos]
    calc (1 : ℚ) ≤ (2 ^ 53 - 1) * (2 ^ 50 + 1) * (2 ^ (-1074 : ℤ) * 2 ^ (971 : ℤ)) := by
          rw [hunits]
          norm_num
      _ = (2 ^ 53 - 1) * 2 ^ (971 : ℤ) * ((2 ^ 50 + 1) * 2 ^ (-1074 : ℤ)) := by ring
      _ ≤ (2 ^ 53 - 1) * 2 ^ (971 : ℤ) * magnitude (parts x) := mul_le_mul_of_nonneg_left
          (le_of_reciprocalLimit_lt hx.isMagnitude hlt) (mul_nonneg (by norm_num) (by positivity))
  have hrounded := rounded_div hone hx hpos.ne' isMagnitude_largest hle
  have hlargest := hrounded.le isMagnitude_largest hle
  have hfinite := isFinite_iff.mpr ⟨_, hrounded.inRange isMagnitude_largest hle⟩
  rw [hone'] at hrounded
  exact ⟨hrounded, hfinite, hlargest⟩

theorem IsMagnitude.lt_two_zpow {b : ℚ} (h : IsMagnitude b) : b < 2 ^ (1024 : ℤ) := by
  obtain ⟨n, f, hn, -, hf, rfl⟩ := h
  calc (n : ℚ) * 2 ^ f < 2 ^ 52 * 2 ^ (972 : ℤ) := natCast_mul_zpow_lt hn (by omega)
    _ = 2 ^ (1024 : ℤ) := by
        rw [← zpow_natCast, ← zpow_add₀ two_ne_zero]
        rfl

/-- The product of a value above the limit with its reciprocal is near one. -/
theorem mul_reciprocal_le (hx : InRange s (parts x))
    (hlt : 2 ^ (-1024 : ℤ) < magnitude (parts x)) :
    magnitude (parts x) * magnitude (parts (1 / x)) ≤ 2 := by
  obtain ⟨hrounded, -, hlargest⟩ := rounded_reciprocal hx hlt
  have hpos : 0 < magnitude (parts x) := lt_trans (by positivity) hlt
  have htwo : (1 : ℚ) < 2 := one_lt_two
  obtain ⟨k, hlow, hhigh⟩ := exists_mem_Ico_zpow hpos htwo
  have hk : k < 1024 :=
    (zpow_lt_zpow_iff_right₀ htwo).mp (hlow.trans_lt hx.isMagnitude.lt_two_zpow)
  -- Near the limit the power of two is out of range, and so above all finite reciprocals.
  have hreciprocal : magnitude (parts (1 / x)) ≤ 2 ^ (-k) := by
    rcases lt_or_ge k (-1023) with hnear | hfar
    · calc magnitude (parts (1 / x)) ≤ (2 ^ 53 - 1) * 2 ^ (971 : ℤ) := hlargest
        _ ≤ 2 ^ (1024 : ℤ) := isMagnitude_largest.lt_two_zpow.le
        _ ≤ 2 ^ (-k) := zpow_le_zpow_right₀ one_le_two (by omega)
    · apply hrounded.le (isMagnitude_two_zpow (by omega) (by omega))
      rw [zpow_neg, ← one_div]
      exact one_div_le_one_div_of_le (by positivity) hlow
  calc magnitude (parts x) * magnitude (parts (1 / x)) ≤ 2 ^ (k + 1) * 2 ^ (-k) :=
        mul_le_mul hhigh.le hreciprocal (magnitude_nonneg _) (by positivity)
    _ = 2 := by rw [← zpow_add₀ two_ne_zero, add_neg_cancel_comm, zpow_one]

end Reciprocals

end Binary64

open Binary64

namespace Offset
variable [Hypotenuse Float] {v : Offset Float}

/-- A displacement with a length so short that its reciprocal is out of range. -/
def IsTiny (v : Offset Float) : Prop := 0 < v.length ∧ v.length ≤ reciprocalLimit

theorem direction_of_length (hpos : 0 < v.length) (hfinite : v.length.isFinite = true) :
    v.direction = ⟨v.x * (1 / v.length), v.y * (1 / v.length)⟩ :=
  if_pos ⟨hpos, hfinite⟩

theorem IsTiny.inRange_length (h : v.IsTiny) : InRange .positive (parts v.length) ∧
    0 < magnitude (parts v.length) ∧ magnitude (parts v.length) ≤ 2 ^ (-1024 : ℤ) := by
  obtain ⟨hpos, hle⟩ := h
  obtain ⟨hlimit, hlimit'⟩ := inRange_reciprocalLimit
  have hfinite := (within_reciprocalLimit.of_nonneg_of_le (le_of_lt hpos) hle).finite
  have hrange := inRange_of_pos hpos hfinite
  refine ⟨hrange, magnitude_pos hpos hfinite, ?_⟩
  rw [← hlimit']
  exact (le_iff_magnitude hrange hlimit).mp hle

/-- A displacement so short has no finite direction. -/
theorem IsTiny.direction (h : v.IsTiny) :
    v.direction.x.isFinite = false ∧ v.direction.y.isFinite = false := by
  obtain ⟨hlength, hpos, hle⟩ := h.inRange_length
  have hfinite : v.length.isFinite = true := isFinite_iff.mpr ⟨_, hlength⟩
  have hinfinite : (1 / v.length).isFinite = false := by
    change (parts (1 / v.length)).isFinite = false
    rw [parts_reciprocal_of_le hlength hpos.ne' hle]
    rfl
  have hproduct (x : Float) : (x * (1 / v.length)).isFinite = false := by
    rw [← Bool.not_eq_true] at hinfinite ⊢
    exact mt (fun h => (isFinite_of_mul h).2) hinfinite
  rw [direction_of_length h.1 hfinite]
  exact ⟨hproduct _, hproduct _⟩

/-- A displacement so short has no component with a full mantissa. -/
theorem IsTiny.lt_leastNormal (laws : HypotenuseLaws) (h : v.IsTiny) :
    v.x.abs < leastNormal ∧ v.y.abs < leastNormal := by
  obtain ⟨hlength, -, hle⟩ := h.inRange_length
  obtain ⟨hnormal, hnormal'⟩ := inRange_leastNormal
  have hcomponent {x : Float} (hx : x.isFinite = true)
      (hxle : magnitude (parts x) ≤ 2 * magnitude (parts v.length)) : x.abs < leastNormal := by
    obtain ⟨s, hx⟩ := isFinite_iff.mp hx
    have hrange : InRange .positive (parts x.abs) := by
      rw [parts_abs]
      exact hx.abs
    rw [lt_iff_magnitude hrange hnormal, hnormal', parts_abs, magnitude_abs]
    calc magnitude (parts x) ≤ 2 * magnitude (parts v.length) := hxle
      _ ≤ 2 ^ (1 : ℤ) * 2 ^ (-1024 : ℤ) := mul_le_mul_of_nonneg_left hle zero_le_two
      _ = 2 ^ (-1023 : ℤ) := by rw [← zpow_add₀ two_ne_zero]; rfl
      _ < 2 ^ (-1022 : ℤ) := zpow_lt_zpow_right₀ one_lt_two (by decide)
  have hfinite : v.length.isFinite = true := isFinite_iff.mpr ⟨_, hlength⟩
  obtain ⟨hx, hy⟩ := laws.finite_legs hfinite
  obtain ⟨hxle, hyle⟩ := laws.legs_le hfinite
  exact ⟨hcomponent hx hxle, hcomponent hy hyle⟩

/-- Any other displacement has a finite direction, of about length one. -/
theorem within_direction (laws : HypotenuseLaws) (h : ¬ v.IsTiny) : v.direction.Within 2 := by
  by_cases hlength : 0 < v.length ∧ v.length.isFinite = true
  · obtain ⟨hpos, hfinite⟩ := hlength
    have hrange := inRange_of_pos hpos hfinite
    obtain ⟨hlimit, hlimit'⟩ := inRange_reciprocalLimit
    have hlt : 2 ^ (-1024 : ℤ) < magnitude (parts v.length) := by
      rw [← hlimit', ← not_le, ← le_iff_magnitude hrange hlimit]
      exact fun hle => h ⟨hpos, hle⟩
    have hproduct := mul_reciprocal_le hrange hlt
    obtain ⟨t, hreciprocal⟩ := isFinite_iff.mp (rounded_reciprocal hrange hlt).2.1
    have hcomponent {x : Float} (hx : x.isFinite = true)
        (hle : magnitude (parts x) ≤ 2 * magnitude (parts v.length)) :
        Binary64.Within 2 (x * (1 / v.length)) := by
      obtain ⟨s, hx⟩ := isFinite_iff.mp hx
      refine .of_rounded (hx.mul hreciprocal) ?_ (by decide)
      calc magnitude (parts x) * magnitude (parts (1 / v.length)) ≤
            2 * magnitude (parts v.length) * magnitude (parts (1 / v.length)) :=
            mul_le_mul_of_nonneg_right hle (magnitude_nonneg _)
        _ ≤ 2 ^ 2 := by linarith
    obtain ⟨hx, hy⟩ := laws.finite_legs hfinite
    obtain ⟨hxle, hyle⟩ := laws.legs_le hfinite
    rw [direction_of_length hpos hfinite]
    exact ⟨hcomponent hx hxle, hcomponent hy hyle⟩
  · have hnone : v.direction = ⟨0, 0⟩ := if_neg hlength
    have hzero : Binary64.Within 2 0 := within_ofNat (n := 0) (by decide) (by decide)
    rw [hnone]
    exact ⟨hzero, hzero⟩

theorem isFinite_direction_iff (laws : HypotenuseLaws) :
    v.direction.isFinite = true ↔ ¬ v.IsTiny := by
  constructor
  · intro h htiny
    have hx : v.direction.x.isFinite = true := (Bool.and_eq_true_iff.mp h).1
    rw [htiny.direction.1] at hx
    cases hx
  · exact fun h => (within_direction laws h).isFinite

end Offset

namespace Handles
variable [Hypotenuse Float] {p : ℕ} {tightness : Float} {a b c : Point Float}

/-- Control points beside a chord with a direction are finite. -/
theorem within_ofKnot (laws : HypotenuseLaws) (ht : Binary64.Within 0 tightness) (ha : a.Within p)
    (hb : b.Within p) (hc : c.Within p) (h : ¬ (c - a).IsTiny) (hp : p + 7 ≤ 1023) :
    (ofKnot tightness a b c).incoming.Within (p + 7) ∧
      (ofKnot tightness a b c).outgoing.Within (p + 7) := by
  have hforward := Offset.within_direction laws h
  have hside {q : Point Float} {v : Offset Float} (hq : q.Within p) (hv : v.Within 2) :
      (b - (tightness * Float.abs ((b - q).dot v)) • v).Within (p + 7) := by
    have hstep : (b - q).Within (p + 1) := hb.sub hq (by omega)
    have hdot : Binary64.Within (p + 4) ((b - q).dot v) := hstep.dot hv (by omega)
    have hreach : Binary64.Within (p + 4) (tightness * Float.abs ((b - q).dot v)) :=
      ht.mul hdot.abs (by omega)
    have hoffset : ((tightness * Float.abs ((b - q).dot v)) • v).Within (p + 6) :=
      hv.smul hreach (by omega)
    exact hb.sub_offset hoffset (by omega)
  exact ⟨hside ha hforward, hside hc hforward.neg⟩

/-- Control points beside a chord without a direction are not finite in either coordinate. -/
theorem ofKnot_of_isTiny (tightness : Float) (b : Point Float) (h : (c - a).IsTiny) :
    ∀ x ∈ [(ofKnot tightness a b c).incoming.x, (ofKnot tightness a b c).incoming.y,
      (ofKnot tightness a b c).outgoing.x, (ofKnot tightness a b c).outgoing.y],
      x.isFinite = false := by
  obtain ⟨hx, hy⟩ := h.direction
  have hoffset {x y s : Float} (h : x.isFinite = false) : (y - x * s).isFinite = false := by
    rw [← Bool.not_eq_true] at h ⊢
    exact mt (fun hfinite => (isFinite_of_mul (isFinite_of_sub hfinite).2).1) h
  have hneg {x : Float} (h : x.isFinite = false) : (-x).isFinite = false := by
    rw [isFinite_neg, h]
  simp only [List.forall_mem_cons]
  exact ⟨hoffset hx, hoffset hy, hoffset (hneg hx), hoffset (hneg hy),
    fun _ h => absurd h (by simp)⟩

end Handles

section Chords
variable [Hypotenuse Float] {tightness : Float} {points : List (Point Float)}

theorem exists_ofKnot_of_mem {h : Handles Float} (hh : h ∈ handles tightness points) :
    ∃ (k : ℕ) (a b c : Point Float), points[k]? = some a ∧ points[k + 1]? = some b ∧
      points[k + 2]? = some c ∧ h = .ofKnot tightness a b c := by
  obtain ⟨k, hk⟩ := List.mem_iff_getElem?.mp hh
  rw [getElem?_handles] at hk
  simp only [Option.bind_eq_bind, Option.bind_eq_some_iff] at hk
  obtain ⟨a, ha, b, hb, c, hc, hk⟩ := hk
  exact ⟨k, a, b, c, ha, hb, hc, (Option.some.inj hk).symm⟩

/-- Of points that are not too far out, all control points are finite if and only if no chord
between the neighbours of a point is tiny. -/
theorem handles_finite_iff (laws : HypotenuseLaws) (ht : Binary64.Within 0 tightness) {p : ℕ}
    (hp : p + 7 ≤ 1023) (hpoints : ∀ q ∈ points, q.Within p) :
    (∀ h ∈ handles tightness points, h.incoming.isFinite ∧ h.outgoing.isFinite) ↔
      ∀ (k : ℕ) (a c : Point Float), points[k]? = some a → points[k + 2]? = some c →
        ¬ (c - a).IsTiny := by
  constructor
  · intro hfinite k a c ha hc htiny
    obtain ⟨hk, -⟩ := List.getElem?_eq_some_iff.mp hc
    have hb := List.getElem?_eq_getElem (show k + 1 < points.length by omega)
    have hmem := List.mem_of_getElem? (handles_of_neighbours tightness ha hb hc)
    have hx : (Handles.ofKnot tightness a _ c).incoming.x.isFinite = true :=
      (Bool.and_eq_true_iff.mp (hfinite _ hmem).1).1
    rw [Handles.ofKnot_of_isTiny tightness _ htiny _ List.mem_cons_self] at hx
    cases hx
  · intro hchords h hh
    obtain ⟨k, a, b, c, ha, hb, hc, rfl⟩ := exists_ofKnot_of_mem hh
    obtain ⟨hincoming, houtgoing⟩ := Handles.within_ofKnot laws ht
      (hpoints a (List.mem_of_getElem? ha)) (hpoints b (List.mem_of_getElem? hb))
      (hpoints c (List.mem_of_getElem? hc)) (hchords k a c ha hc) hp
    exact ⟨hincoming.isFinite, houtgoing.isFinite⟩

end Chords

theorem within_coordinateBound : Binary64.Within 499 1e150 := by decide +kernel

/-- However closely lengths are computed, a direction is finite unless the displacement has a
length whose reciprocal is out of range, and then neither of its components has a full mantissa.
Control points of points within bounds are so finite if and only if the neighbours of every point
coincide or are not so close together. -/
theorem Offset.finite_unless_tiny [Hypotenuse Float] (laws : HypotenuseLaws) (v : Offset Float)
    (tightness : Float) (points : List (Point Float)) :
    (v.direction.isFinite ↔ ¬ v.IsTiny) ∧
    (v.IsTiny → v.x.abs < leastNormal ∧ v.y.abs < leastNormal) ∧
    (0 ≤ tightness → tightness ≤ 1 → (∀ p ∈ points, p.x.abs ≤ 1e150 ∧ p.y.abs ≤ 1e150) →
      ((∀ h ∈ handles tightness points, h.incoming.isFinite ∧ h.outgoing.isFinite) ↔
        ∀ (k : ℕ) (a c : Point Float), points[k]? = some a → points[k + 2]? = some c →
          ¬ (c - a).IsTiny)) :=
  ⟨Offset.isFinite_direction_iff laws, fun htiny => htiny.lt_leastNormal laws,
    fun hzero hone hpoints =>
      handles_finite_iff laws (within_of_mem_unit hzero hone) (by decide) fun p hp =>
        .of_abs_le within_coordinateBound (hpoints p hp)⟩

/-- A tiny displacement, and points with neighbours close together and far apart. -/
theorem Offset.finite_unless_tiny_far :
    let v : Offset Float := ⟨0, 1e-310⟩
    let points : List (Point Float) := [⟨0, 0⟩, ⟨1e150, -1e150⟩, ⟨3, 4⟩, ⟨1e150, 1e150⟩]
    HypotenuseLaws ∧ v.IsTiny ∧ ¬ v.direction.isFinite ∧
    v.x.abs < leastNormal ∧ v.y.abs < leastNormal ∧ (0 : Float) ≤ 1 / 2 ∧ (1 / 2 : Float) ≤ 1 ∧
    (∀ p ∈ points, p.x.abs ≤ 1e150 ∧ p.y.abs ≤ 1e150) ∧
    (∀ h ∈ handles (1 / 2) points, h.incoming.isFinite ∧ h.outgoing.isFinite) ∧
    ∀ (k : ℕ) (a c : Point Float), points[k]? = some a → points[k + 2]? = some c →
      ¬ (c - a).IsTiny := by
  intro v points
  have htiny : v.IsTiny := ⟨by decide +kernel, by decide +kernel⟩
  have hzero : (0 : Float) ≤ 1 / 2 := by decide +kernel
  have hone : (1 / 2 : Float) ≤ 1 := by decide +kernel
  have hpoints : ∀ p ∈ points, p.x.abs ≤ 1e150 ∧ p.y.abs ≤ 1e150 := by decide +kernel
  have hfinite : ∀ h ∈ handles (1 / 2) points, h.incoming.isFinite ∧ h.outgoing.isFinite := by
    decide +kernel
  obtain ⟨hdirection, hcomponents, hhandles⟩ :=
    Offset.finite_unless_tiny hypotenuseLaws_hypot v (1 / 2) points
  exact ⟨hypotenuseLaws_hypot, htiny, fun h => hdirection.mp h htiny, (hcomponents htiny).1,
    (hcomponents htiny).2, hzero, hone, hpoints, hfinite,
    (hhandles hzero hone hpoints).mp hfinite⟩

/-- The least displacement is finite and its direction is not, nor are control points beside it. -/
theorem Offset.direction_of_least :
    let v : Offset Float := ⟨5e-324, 0⟩
    let points : List (Point Float) := [⟨0, 0⟩, ⟨0, 0⟩, ⟨5e-324, 0⟩]
    v.isFinite ∧ ¬ v.direction.isFinite ∧
    (∀ p ∈ points, p.x.abs ≤ 1e150 ∧ p.y.abs ≤ 1e150) ∧
    ∃ h ∈ handles (1 / 2) points, ¬ h.incoming.isFinite ∧ ¬ h.outgoing.isFinite := by
  decide +kernel

end PenStroke
