import PenStroke.Proofs.Binary64

/-! Doubles and their parts. The parts tell the double, and where it stands in the order; those of
a finite one have a mantissa of full length or the least exponent. -/
namespace PenStroke.Binary64

open Float.Model Float.Model.UnpackedFloat

section Packing

theorem toBitVec_ofBitVec (b : BitVec 1) : (Sign.ofBitVec b).toBitVec = b := by
  revert b
  decide

theorem toNat_cons_one (m : BitVec 52) : (1#1 ++ m).toNat = 2 ^ 52 + m.toNat := by
  rw [BitVec.toNat_append, ← Nat.shiftLeft_add_eq_or_of_lt m.isLt]
  rfl

/-- The leading bit of a mantissa of full length is not stored. -/
theorem pack_finite (sign : Sign) {m : ℕ} {e : ℤ} (hm : 0 < m) (least : 2 ^ 52 ≤ m)
    (most : m < 2 ^ 53) (above : -1074 ≤ e) (below : e ≤ 971) :
    UnpackedFloat.pack Format.binary64 (.finite sign m e hm) =
      packComponents Format.binary64 sign (.ofNat 11 (e + 1075).toNat) (.ofNat 52 m) := by
  have hlog : m.log2 + 1 = 53 := by
    rw [(Nat.log2_eq_iff (by omega)).mpr ⟨least, most⟩]
  have hbias : (e + 1023 + 52).toNat = (e + 1075).toNat := by omega
  have hrange : ¬ 2048 ≤ (e + 1023 + 52).toNat + 1 := by omega
  rw [← hbias]
  exact (if_neg hrange).trans (if_pos hlog)

variable {b : BitVec Format.binary64.numBits}

theorem packComponents_unpack :
    packComponents Format.binary64 (.ofBitVec (unpackSign b)) (unpackExponent b)
      (unpackMantissa b) = b := by
  rw [packComponents, toBitVec_ofBitVec]
  apply BitVec.eq_of_getLsbD_eq
  intro i hi
  have hi : i < 64 := hi
  simp only [unpackSign, unpackExponent, unpackMantissa, BitVec.getLsbD_append,
    BitVec.getLsbD_cast, BitVec.getLsbD_extractLsb]
  split_ifs with hmantissa hexponent
  · rw [Nat.zero_add]
    simp
    omega
  · rw [show 52 + (i - 52) = i by omega]
    simp
    omega
  · rw [show 52 + 11 + (i - 52 - 11) = i by omega]
    simp
    omega

theorem exponent_range (hlast : unpackExponent b ≠ -1#11) (hfirst : unpackExponent b ≠ 0#11) :
    1 ≤ (unpackExponent b).toNat ∧ (unpackExponent b).toNat ≤ 2046 := by
  have hlt : (unpackExponent b).toNat < 2048 := (unpackExponent b).isLt
  have hne : (unpackExponent b).toNat ≠ 2047 := fun heq => hlast (BitVec.eq_of_toNat_eq heq)
  have hpos : (unpackExponent b).toNat ≠ 0 := fun heq => hfirst (BitVec.eq_of_toNat_eq heq)
  omega

/-- Valid bits are packed again as they were. -/
theorem pack_unpack (h : Format.binary64.Valid b) :
    UnpackedFloat.pack Format.binary64 (UnpackedFloat.unpack Format.binary64 b) = b := by
  have hpack := packComponents_unpack (b := b)
  have hmantissa : (unpackMantissa b).toNat < 2 ^ 52 := (unpackMantissa b).isLt
  unfold UnpackedFloat.unpack
  dsimp only
  split_ifs with hlast hzero hfirst hzero
  · rwa [hlast, hzero] at hpack
  · exact (h.eq_packedNaN hlast hzero).symm
  · rwa [hfirst, hzero] at hpack
  · have hlog : (unpackMantissa b).toNat.log2 < 52 :=
      (Nat.log2_lt (by simpa [← BitVec.toNat_inj] using hzero)).mpr hmantissa
    rw [hfirst] at hpack ⊢
    rw [UnpackedFloat.pack, if_neg (by decide), if_neg, BitVec.ofNat_toNat, BitVec.setWidth_eq,
      hpack]
    change ¬ (unpackMantissa b).toNat.log2 + 1 = 53
    omega
  · obtain ⟨hleast, hmost⟩ := exponent_range hlast hfirst
    have hfull := toNat_cons_one (unpackMantissa b)
    have hlow : BitVec.ofNat 52 (1#1 ++ unpackMantissa b).toNat = unpackMantissa b := by
      apply BitVec.eq_of_toNat_eq
      rw [hfull, BitVec.toNat_ofNat]
      omega
    have hexponent : BitVec.ofNat 11 (((unpackExponent b).toNat - 1075 : ℤ) + 1075).toNat =
        unpackExponent b := by
      rw [Int.sub_add_cancel, Int.toNat_natCast, BitVec.ofNat_toNat, BitVec.setWidth_eq]
    have hfinite := pack_finite (.ofBitVec (unpackSign b)) (e := (unpackExponent b).toNat - 1075)
      (m := (1#1 ++ unpackMantissa b).toNat) (by omega) (by omega) (by omega) (by omega) (by omega)
    rw [hlow, hexponent, hpack] at hfinite
    exact hfinite

end Packing

/-- The range of mantissa and exponent: a mantissa that is not of full length has the least
exponent. -/
structure Canonical (m : ℕ) (e : ℤ) : Prop where
  pos : 0 < m
  most : m < 2 ^ 53
  above : -1074 ≤ e
  below : e ≤ 971
  least : 2 ^ 52 ≤ m ∨ e = -1074

theorem canonical_of_unpack {b : BitVec Format.binary64.numBits} {sign : Sign} {m : ℕ} {e : ℤ}
    {hm : 0 < m} (h : UnpackedFloat.unpack Format.binary64 b = .finite sign m e hm) :
    Canonical m e := by
  have hmantissa : (unpackMantissa b).toNat < 2 ^ 52 := (unpackMantissa b).isLt
  unfold UnpackedFloat.unpack at h
  dsimp only at h
  split_ifs at h with hlast hzero hfirst hzero
  · cases h
    rw [hfirst]
    exact ⟨hm, by omega, by decide, by decide, .inr (by decide)⟩
  · obtain ⟨hleast, hmost⟩ := exponent_range hlast hfirst
    have hfull := toNat_cons_one (unpackMantissa b)
    have hbias : (Format.binary64.exponentBias : ℤ) = 1023 := rfl
    obtain ⟨-, rfl, rfl, -⟩ := h
    exact ⟨hm, by omega, by omega, by omega, .inl (by omega)⟩

/-- Where a value stands among all that are not undefined: by kind and sign first, of finite values
the exponent and then the mantissa, both reversed below zero. -/
def standing : UnpackedFloat → ℤ ×ₗ ℤ ×ₗ ℤ
  | .notANumber | .zero _ => toLex (0, toLex (0, 0))
  | .infinity .negative => toLex (-2, toLex (0, 0))
  | .infinity .positive => toLex (2, toLex (0, 0))
  | .finite .negative m e _ => toLex (-1, toLex (-e, -(m : ℤ)))
  | .finite .positive m e _ => toLex (1, toLex (e, (m : ℤ)))

section Parts
variable {x y z : Float}

theorem ofModel_pack_parts (x : Float) : .ofModel (.pack (parts x)) = x := by
  obtain ⟨⟨⟨bits⟩, h⟩⟩ := x
  have hpack : UnpackedFloat.pack Format.binary64 (UnpackedFloat.unpack Format.binary64 bits) =
    bits := pack_unpack h
  change Float.ofModel ⟨⟨UnpackedFloat.pack Format.binary64
    (UnpackedFloat.unpack Format.binary64 bits)⟩, _⟩ = _
  congr

theorem parts_injective (h : parts x = parts y) : x = y := by
  rw [← ofModel_pack_parts x, h, ofModel_pack_parts]

theorem canonical_of_parts {sign : Sign} {m : ℕ} {e : ℤ} {hm : 0 < m}
    (h : parts x = .finite sign m e hm) : Canonical m e :=
  canonical_of_unpack h

theorem beq_unpacked {a b : UnpackedFloat} : a.beq b = true ↔
    (a = b ∧ a ≠ .notANumber) ∨ ∃ s t, a = .zero s ∧ b = .zero t := by
  rcases a with ⟨_ | _⟩ | _ | s | ⟨_ | _, m, e, hm⟩ <;>
    rcases b with ⟨_ | _⟩ | _ | t | ⟨_ | _, n, f, hn⟩ <;>
    simp [UnpackedFloat.beq, UnpackedFloat.compare]
  · rfl
  · rfl
  · exact and_comm
  · exact and_comm

/-- Doubles are equal as numbers when they are the same or both zeros, and are not undefined. -/
theorem beq_iff : (x == y) = true ↔
    (x = y ∧ parts x ≠ .notANumber) ∨ ∃ s t, parts x = .zero s ∧ parts y = .zero t := by
  change (parts x).beq (parts y) = true ↔ _
  rw [beq_unpacked]
  have hparts : parts x = parts y ↔ x = y := ⟨parts_injective, congrArg parts⟩
  rw [hparts]

theorem isNaN_iff : x.isNaN = true ↔ parts x = .notANumber := by
  change (parts x).isNaN = true ↔ _
  cases parts x <;> simp [UnpackedFloat.isNaN]

theorem lt_unpacked {a b : UnpackedFloat} : a.lt b = true ↔
    a ≠ .notANumber ∧ b ≠ .notANumber ∧ standing a < standing b := by
  rcases a with ⟨_ | _⟩ | _ | s | ⟨_ | _, m, e, hm⟩ <;>
    rcases b with ⟨_ | _⟩ | _ | t | ⟨_ | _, n, f, hn⟩ <;>
    simp [UnpackedFloat.lt, UnpackedFloat.compare, standing, Prod.Lex.toLex_lt_toLex,
      Ordering.then_eq_lt, Ordering.then_eq_gt, compare_gt_iff_gt, compare_lt_iff_lt]
  rfl

theorem le_unpacked {a b : UnpackedFloat} : a.le b = true ↔
    a ≠ .notANumber ∧ b ≠ .notANumber ∧ standing a ≤ standing b := by
  rcases a with ⟨_ | _⟩ | _ | s | ⟨_ | _, m, e, hm⟩ <;>
    rcases b with ⟨_ | _⟩ | _ | t | ⟨_ | _, n, f, hn⟩ <;>
    simp [UnpackedFloat.le, UnpackedFloat.compare, standing, Prod.Lex.toLex_le_toLex,
      Ordering.isLE_then_iff_or, Ordering.swap_then, compare_gt_iff_gt, compare_lt_iff_lt,
      Nat.isLE_compare, Std.isGE_compare]
  all_goals rfl

theorem lt_iff : x < y ↔
    parts x ≠ .notANumber ∧ parts y ≠ .notANumber ∧ standing (parts x) < standing (parts y) := by
  rw [← lt_unpacked]
  exact ⟨of_decide_eq_true, decide_eq_true⟩

theorem le_iff : x ≤ y ↔
    parts x ≠ .notANumber ∧ parts y ≠ .notANumber ∧ standing (parts x) ≤ standing (parts y) := by
  rw [← le_unpacked]
  exact ⟨of_decide_eq_true, decide_eq_true⟩

theorem lt_of_le_of_lt (hxy : x ≤ y) (hyz : y < z) : x < z := by
  obtain ⟨hx, -, hxy⟩ := le_iff.mp hxy
  obtain ⟨-, hz, hyz⟩ := lt_iff.mp hyz
  exact lt_iff.mpr ⟨hx, hz, hxy.trans_lt hyz⟩

theorem not_isNaN_of_lt (h : x < y) : ¬ x.isNaN ∧ ¬ y.isNaN := by
  obtain ⟨hx, hy, -⟩ := lt_iff.mp h
  exact ⟨mt isNaN_iff.mp hx, mt isNaN_iff.mp hy⟩

theorem not_lt_of_isNaN (hx : x.isNaN) (y : Float) : ¬ y < x :=
  fun hlt => (not_isNaN_of_lt hlt).2 hx

/-- The same number, where zero has no sign and all undefined values are one. -/
def SameNumber (x y : Float) : Prop := x == y ∨ x.isNaN ∧ y.isNaN

theorem sameNumber_refl (x : Float) : SameNumber x x := by
  by_cases hx : parts x = .notANumber
  · exact .inr ⟨isNaN_iff.mpr hx, isNaN_iff.mpr hx⟩
  · exact .inl (beq_iff.mpr (.inl ⟨rfl, hx⟩))

theorem eq_of_isNaN (hx : x.isNaN) (hy : y.isNaN) : x = y :=
  parts_injective ((isNaN_iff.mp hx).trans (isNaN_iff.mp hy).symm)

/-- Doubles other than the negative zero are the same number only if they are the same. -/
theorem sameNumber_iff (hx : parts x ≠ .zero .negative) (hy : parts y ≠ .zero .negative) :
    SameNumber x y ↔ x = y := by
  constructor
  · rintro (h | ⟨hx', hy'⟩)
    · obtain ⟨rfl, -⟩ | ⟨s, t, hs, ht⟩ := beq_iff.mp h
      · rfl
      · cases s with
        | negative => contradiction
        | positive =>
          cases t with
          | negative => contradiction
          | positive => exact parts_injective (hs.trans ht.symm)
    · exact eq_of_isNaN hx' hy'
  · rintro rfl
    exact sameNumber_refl x

/-- Rounding leaves no sign on zero. -/
theorem parts_roundTo_ne (places : ℤ) (x : Float) :
    parts (Scalar.roundTo places x) ≠ .zero .negative := by
  have hscale : IsNormal .positive (Float.ofNat (Nat.pow 10 (min places.toNat 6))) := by
    apply isNormal_ofNat
    · exact Nat.pow_pos (by decide)
    · exact (Nat.pow_le_pow_right (by decide) (min_le_right _ _)).trans_lt (by decide)
  unfold Scalar.roundTo
  dsimp only
  split_ifs with hfinite hzero
  · change UnpackedFloat.zero .positive ≠ .zero .negative
    simp
  · intro hnegative
    exact hzero (beq_iff.mpr (.inr ⟨_, .positive, hnegative, rfl⟩))
  · -- A zero stays in range when it is scaled.
    intro hnegative
    apply hfinite
    change (UnpackedFloat.unpack Format.binary64 (UnpackedFloat.pack Format.binary64
      (UnpackedFloat.mul Format.binary64 (parts x) (parts (Float.ofNat _))))).isFinite = true
    unfold IsNormal at hscale
    rw [hnegative]
    generalize parts (Float.ofNat _) = scale at hscale
    obtain ⟨hm, -, -, -, -⟩ := hscale
    change (UnpackedFloat.unpack Format.binary64
      (packedZero Format.binary64 .negative)).isFinite = true
    decide

end Parts

end PenStroke.Binary64
