import PenStroke.Proofs.Rounding

/-! Arithmetic of finite doubles. Sums and products within range are rounded once, whole numbers
are exact, and values that are not negative are ordered and cut by their magnitudes. -/
namespace PenStroke.Binary64

open Float.Model Float.Model.UnpackedFloat

variable {s t : Sign} {x y : Float} {b : ℚ}

theorem isFinite_iff : x.isFinite = true ↔ ∃ s, InRange s (parts x) := by
  change (parts x).isFinite = true ↔ _
  constructor
  · intro h
    cases hx : parts x with
    | infinity s | notANumber => simp [hx, UnpackedFloat.isFinite] at h
    | zero s => exact ⟨s, .zero s⟩
    | finite s m e hm => exact ⟨s, .finite hm (canonical_of_parts hx)⟩
  · rintro ⟨s, h⟩
    generalize parts x = p at h
    cases h <;> rfl

section Operations

theorem rounded_mul (hx : InRange s (parts x)) (hy : InRange t (parts y)) (hb : IsMagnitude b)
    (hq : magnitude (parts x) * magnitude (parts y) ≤ b) :
    Rounded (s * t) (magnitude (parts x) * magnitude (parts y)) (parts (x * y)) := by
  have h := hx.mul hy
  change Rounded _ _
    (parts (.ofModel (.pack (UnpackedFloat.mul Format.binary64 (parts x) (parts y)))))
  rwa [(h.inRange hb hq).parts_ofModel]

theorem rounded_div (hx : InRange s (parts x)) (hy : InRange t (parts y))
    (hne : magnitude (parts y) ≠ 0) (hb : IsMagnitude b)
    (hq : magnitude (parts x) / magnitude (parts y) ≤ b) :
    Rounded (s / t) (magnitude (parts x) / magnitude (parts y)) (parts (x / y)) := by
  have h := hx.div hy hne
  change Rounded _ _
    (parts (.ofModel (.pack (UnpackedFloat.div Format.binary64 (parts x) (parts y)))))
  rwa [(h.inRange hb hq).parts_ofModel]

theorem rounded_sub (hx : InRange .positive (parts x)) (hy : InRange .positive (parts y))
    (hle : magnitude (parts y) ≤ magnitude (parts x)) :
    Rounded .positive (magnitude (parts x) - magnitude (parts y)) (parts (x - y)) := by
  have h := hx.sub hy hle
  have hq : magnitude (parts x) - magnitude (parts y) ≤ magnitude (parts x) :=
    sub_le_self _ (magnitude_nonneg _)
  change Rounded _ _
    (parts (.ofModel (.pack (UnpackedFloat.sub Format.binary64 (parts x) (parts y)))))
  rwa [(h.inRange hx.isMagnitude hq).parts_ofModel]

/-- What is computed from an undefined value is undefined. -/
theorem isNaN_mul (h : x.isNaN) (y : Float) : (x * y).isNaN := by
  rw [isNaN_iff] at h ⊢
  have hparts : UnpackedFloat.mul Format.binary64 (parts x) (parts y) = .notANumber := by
    rw [h]
    cases parts y <;> rfl
  change unpack _ (pack _ (UnpackedFloat.mul Format.binary64 (parts x) (parts y))) = _
  rw [hparts]
  rfl

theorem isNaN_sub (h : x.isNaN) (y : Float) : (x - y).isNaN := by
  rw [isNaN_iff] at h ⊢
  have hparts : UnpackedFloat.sub Format.binary64 (parts x) (parts y) = .notANumber := by
    rw [h]
    cases parts y <;> rfl
  change unpack _ (pack _ (UnpackedFloat.sub Format.binary64 (parts x) (parts y))) = _
  rw [hparts]
  rfl

theorem isFinite_of_unpack_pack {z : UnpackedFloat}
    (h : (unpack Format.binary64 (pack Format.binary64 z)).isFinite = true) :
    z.isFinite = true := by
  rcases z with ⟨_ | _⟩ | _ | s | ⟨s, m, e, hm⟩
  · exact absurd h (by decide)
  · exact absurd h (by decide)
  · exact absurd h (by decide)
  · rfl
  · rfl

/-- A product is finite only if its factors are. -/
theorem isFinite_of_mul (h : (x * y).isFinite = true) : x.isFinite = true ∧ y.isFinite = true := by
  have h : (UnpackedFloat.mul Format.binary64 (parts x) (parts y)).isFinite = true :=
    isFinite_of_unpack_pack h
  change (parts x).isFinite = true ∧ (parts y).isFinite = true
  generalize parts x = a at h ⊢
  generalize parts y = b at h ⊢
  cases a <;> cases b <;> first | exact ⟨rfl, rfl⟩ | cases h

/-- A difference is finite only if both its parts are. -/
theorem isFinite_of_sub (h : (x - y).isFinite = true) : x.isFinite = true ∧ y.isFinite = true := by
  have h : (UnpackedFloat.sub Format.binary64 (parts x) (parts y)).isFinite = true :=
    isFinite_of_unpack_pack h
  change (parts x).isFinite = true ∧ (parts y).isFinite = true
  generalize parts x = a at h ⊢
  generalize parts y = b at h ⊢
  rcases a with ⟨_ | _⟩ | _ | s | ⟨s, m, e, hm⟩ <;>
    rcases b with ⟨_ | _⟩ | _ | t | ⟨t, n, f, hn⟩ <;> first | exact ⟨rfl, rfl⟩ | cases h

end Operations

section Whole

theorem inRange_toFloat {n : ℕ} (h : n < 2 ^ 53) :
    InRange .positive (parts n.toUInt64.toFloat) ∧ magnitude (parts n.toUInt64.toFloat) = n := by
  have hword : n.toUInt64.toNat = n := Nat.mod_eq_of_lt (by omega)
  have hrounded := rounded_normalize n 0 .positive
  rw [zpow_zero, mul_one] at hrounded
  have hfinite := hrounded.inRange (isMagnitude_natCast h.le) le_rfl
  have hparts : parts n.toUInt64.toFloat =
      UnpackedFloat.normalize Format.binary64 n 0 .positive := by
    change UnpackedFloat.unpack _ (UnpackedFloat.pack _
      (UnpackedFloat.normalize _ (n.toUInt64.toNat : ℕ) 0 _)) = _
    rw [hword, hfinite.unpack_pack]
  rw [hparts]
  exact ⟨hfinite, hrounded.magnitude_eq (isMagnitude_natCast h.le)⟩

/-- Whole numbers are exact as long as they are not longer than a mantissa. -/
theorem inRange_ofNat {n : ℕ} (h : n ≤ 2 ^ 53) :
    InRange .positive (parts (Float.ofNat n)) ∧ magnitude (parts (Float.ofNat n)) = n := by
  rcases h.lt_or_eq with h | rfl
  · have hone : parts Float.exactlyRepresentablePowersOfTen[0] =
        .finite .positive (2 ^ 52) (-52) (by decide) := rfl
    have hunit : InRange .positive (parts Float.exactlyRepresentablePowersOfTen[0]) := by
      rw [hone]
      exact .finite _ ⟨by decide, by decide, by decide, by decide, .inl (by decide)⟩
    have hmagnitude : magnitude (parts Float.exactlyRepresentablePowersOfTen[0]) = 1 := by
      rw [hone, magnitude]
      norm_num
    obtain ⟨hfinite, hn⟩ := inRange_toFloat h
    have hb := isMagnitude_natCast h.le
    have hrounded := rounded_mul hfinite hunit hb (by rw [hn, hmagnitude, mul_one])
    rw [hn, hmagnitude, mul_one] at hrounded
    have hproduct : Float.ofNat n =
        n.toUInt64.toFloat * Float.exactlyRepresentablePowersOfTen[0] := by
      change Float.ofScientific n false 0 = _
      rw [Float.ofScientific, dif_pos ⟨h, by decide⟩, if_neg (by decide)]
    rw [hproduct]
    exact ⟨hrounded.inRange hb le_rfl, hrounded.magnitude_eq hb⟩
  · have hparts : parts (Float.ofNat (2 ^ 53)) = .finite .positive (2 ^ 52) 1 (by decide) := rfl
    rw [hparts, magnitude]
    refine ⟨.finite _ ⟨by decide, by decide, by decide, by decide, .inl (by decide)⟩, ?_⟩
    norm_num

end Whole

section Order

variable {m n : ℕ} {e f : ℤ}

theorem Canonical.lt_of_exponent_lt (h : Canonical m e) (h' : Canonical n f) (hlt : e < f) :
    (m * 2 ^ e : ℚ) < n * 2 ^ f := by
  have hfull : (2 ^ 52 : ℚ) ≤ n := by
    exact_mod_cast h'.least.resolve_right (h.above.trans_lt hlt).ne'
  exact (natCast_mul_zpow_lt h.most hlt).trans_le
    (mul_le_mul_of_nonneg_right hfull (by positivity))

/-- Finite doubles compare by the exponent first and then by the mantissa. -/
theorem Canonical.lt_iff (h : Canonical m e) (h' : Canonical n f) :
    toLex (e, (m : ℤ)) < toLex (f, (n : ℤ)) ↔ (m * 2 ^ e : ℚ) < n * 2 ^ f := by
  rw [Prod.Lex.toLex_lt_toLex]
  dsimp only
  rcases lt_trichotomy e f with hlt | rfl | hgt
  · exact iff_of_true (.inl hlt) (h.lt_of_exponent_lt h' hlt)
  · rw [mul_lt_mul_iff_of_pos_right (by positivity), Nat.cast_lt]
    simp
  · exact iff_of_false (by omega) (h'.lt_of_exponent_lt h hgt).not_gt

theorem InRange.standing_lt_iff {p q : UnpackedFloat} (hp : InRange .positive p)
    (hq : InRange .positive q) : standing p < standing q ↔ magnitude p < magnitude q := by
  cases hp with
  | zero s =>
    cases hq with
    | zero t => exact iff_of_false (lt_irrefl _) (lt_irrefl _)
    | @finite n f hn h' =>
      have hpos : (0 : ℚ) < n := by exact_mod_cast hn
      refine iff_of_true ?_ (mul_pos hpos (by positivity))
      exact Prod.Lex.toLex_lt_toLex.mpr (.inl zero_lt_one)
  | @finite m e hm h =>
    cases hq with
    | zero t =>
      refine iff_of_false ?_ (magnitude_nonneg _).not_gt
      intro hlt
      rcases Prod.Lex.toLex_lt_toLex.mp hlt with hlt | ⟨heq, -⟩
      · exact absurd hlt (by simp)
      · exact absurd heq (by simp)
    | @finite n f hn h' =>
      rw [show magnitude (.finite .positive m e hm) = m * 2 ^ e from rfl,
        show magnitude (.finite .positive n f hn) = n * 2 ^ f from rfl, ← h.lt_iff h', standing,
        standing, Prod.Lex.toLex_lt_toLex]
      simp

theorem InRange.ne_notANumber {p : UnpackedFloat} (h : InRange s p) : p ≠ .notANumber := by
  cases h <;> simp

/-- Doubles that are not negative are ordered by their magnitudes. -/
theorem lt_iff_magnitude (hx : InRange .positive (parts x)) (hy : InRange .positive (parts y)) :
    x < y ↔ magnitude (parts x) < magnitude (parts y) := by
  rw [lt_iff, hx.standing_lt_iff hy]
  exact ⟨fun h => h.2.2, fun h => ⟨hx.ne_notANumber, hy.ne_notANumber, h⟩⟩

theorem le_iff_magnitude (hx : InRange .positive (parts x)) (hy : InRange .positive (parts y)) :
    x ≤ y ↔ magnitude (parts x) ≤ magnitude (parts y) := by
  rw [le_iff, ← not_lt, hy.standing_lt_iff hx, not_lt]
  exact ⟨fun h => h.2.2, fun h => ⟨hx.ne_notANumber, hy.ne_notANumber, h⟩⟩

theorem natFloor_eq (h : InRange .positive (parts x)) : natFloor x = ⌊magnitude (parts x)⌋₊ := by
  unfold natFloor
  generalize parts x = p at h
  cases h with
  | zero s => exact Nat.floor_zero.symm
  | @finite m e hm h =>
    cases e with
    | ofNat k =>
      have hwhole : magnitude (.finite .positive m (.ofNat k) hm) = (m <<< k : ℕ) := by
        rw [Nat.shiftLeft_eq]
        push_cast
        rfl
      rw [hwhole, Nat.floor_natCast]
    | negSucc k =>
      have hquotient :
          magnitude (.finite .positive m (.negSucc k) hm) = m / (2 ^ (k + 1) : ℕ) := by
        rw [show magnitude (.finite .positive m (.negSucc k) hm) = m * 2 ^ Int.negSucc k from rfl,
          zpow_negSucc, div_eq_mul_inv]
        push_cast
        rfl
      rw [hquotient, Nat.floor_div_eq_div]
      exact Nat.shiftRight_eq_div_pow ..

end Order

section Places

/-- The whole number next to a value in halves of a unit is not longer than a mantissa. -/
theorem shiftRight_half_le {m : ℕ} (h : m < 2 ^ 53) (k : ℕ) :
    (m + Nat.pow 2 k) >>> (k + 1) ≤ 2 ^ 53 := by
  have hpow : 0 < 2 ^ k := by positivity
  rw [Nat.shiftRight_eq_div_pow, pow_succ]
  apply Nat.div_le_of_le_mul
  change m + 2 ^ k ≤ _
  nlinarith

theorem inRange_round_units {n : ℕ} (h : n ≤ 2 ^ 53) :
    InRange s (UnpackedFloat.round Format.binary64 s n 0) ∧
      magnitude (UnpackedFloat.round Format.binary64 s n 0) = n := by
  rcases n.eq_zero_or_pos with rfl | hn
  · have hzero : UnpackedFloat.round Format.binary64 s 0 0 = .zero s := by cases s <;> rfl
    rw [hzero]
    exact ⟨.zero s, Nat.cast_zero.symm⟩
  · have hb := isMagnitude_natCast h
    have hrounded := rounded_round (s := s) hn 0
    rw [zpow_zero, mul_one] at hrounded
    exact ⟨hrounded.inRange hb le_rfl, hrounded.magnitude_eq hb⟩

/-- A finite value is rounded to a whole number. -/
theorem inRange_round (h : InRange s (parts x)) :
    InRange s (parts (round x)) ∧ ∃ n : ℕ, magnitude (parts (round x)) = n := by
  cases hx : parts x with
  | infinity t | notANumber => rw [hx] at h; cases h
  | zero t =>
    have hround : round x = x := by simp only [round, hx]
    rw [hround, hx]
    exact ⟨hx ▸ h, 0, Nat.cast_zero.symm⟩
  | finite t m e hm =>
    cases e with
    | ofNat k =>
      have hround : round x = x := by simp only [round, hx]
      rw [hround, hx]
      refine ⟨hx ▸ h, m * 2 ^ k, ?_⟩
      push_cast
      rfl
    | negSucc k =>
      obtain rfl : s = t := by
        rw [hx] at h
        cases h
        rfl
      have hround : round x = ofParts
          (UnpackedFloat.round Format.binary64 s ((m + Nat.pow 2 k) >>> (k + 1)) 0) := by
        simp only [round, hx]
      obtain ⟨hunits, hmagnitude⟩ :=
        inRange_round_units (s := s) (shiftRight_half_le (canonical_of_parts hx).most k)
      rw [hround, hunits.parts_ofParts]
      exact ⟨hunits, _, hmagnitude⟩

/-- A finite value stays in range when it is divided by a whole number. -/
theorem isFinite_div_ofNat {n : ℕ} (h : x.isFinite = true) (hpos : 1 ≤ n) (hle : n ≤ 2 ^ 53) :
    (x / Float.ofNat n).isFinite = true := by
  obtain ⟨s, hx⟩ := isFinite_iff.mp h
  obtain ⟨hn, hn'⟩ := inRange_ofNat hle
  have hquotient :
      magnitude (parts x) / magnitude (parts (Float.ofNat n)) ≤ magnitude (parts x) := by
    rw [hn']
    exact div_le_self (magnitude_nonneg _) (by exact_mod_cast hpos)
  have hne : magnitude (parts (Float.ofNat n)) ≠ 0 := by
    rw [hn']
    exact_mod_cast Nat.one_le_iff_ne_zero.mp hpos
  exact isFinite_iff.mpr
    ⟨_, (rounded_div hx hn hne hx.isMagnitude hquotient).inRange hx.isMagnitude hquotient⟩

/-- Rounding to decimal places neither makes a value infinite nor makes it finite. -/
theorem isFinite_roundTo (places : ℤ) (x : Float) :
    (Scalar.roundTo places x).isFinite = x.isFinite := by
  obtain ⟨n, hn⟩ : ∃ n, n = Nat.pow 10 (min places.toNat 6) := ⟨_, rfl⟩
  have hpos : 1 ≤ n := hn ▸ Nat.pow_pos (by decide)
  have hle : n ≤ 2 ^ 53 :=
    hn ▸ (Nat.pow_le_pow_right (by decide) (min_le_right _ _)).trans (by decide)
  unfold Scalar.roundTo
  rw [← hn]
  dsimp only
  split_ifs with hfinite hzero
  · have hx : x.isFinite = true := (isFinite_of_mul hfinite).1
    rw [hx]
    rfl
  · have hx : x.isFinite = true := (isFinite_of_mul hfinite).1
    obtain ⟨s, hscaled⟩ := isFinite_iff.mp hfinite
    have hround : (round (x * Float.ofNat n)).isFinite = true :=
      isFinite_iff.mpr ⟨s, (inRange_round hscaled).1⟩
    rw [hx]
    exact isFinite_div_ofNat hround hpos hle
  · rfl

end Places

end PenStroke.Binary64
