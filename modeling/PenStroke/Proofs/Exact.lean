import Mathlib
import PenStroke.Scalar

/-! Exact scalars: an ordered field with a floor computes without rounding, and all its elements
are numbers. -/
namespace PenStroke.Exact

variable {K : Type} [Field K] [LinearOrder K] [FloorRing K]

/-- The field itself as a type of scalars. There is no undefined value, so zero stands for it. -/
instance scalar : Scalar K where
  decLt := inferInstance
  abs x := |x|
  natFloor x := ⌊x⌋₊
  round x := if 0 ≤ x then round x else -round (-x)
  isFinite _ := true
  undefined := 0

/-- Over the reals the hypotenuse is the Euclidean length. -/
noncomputable instance : Hypotenuse ℝ := ⟨fun x y => √(x * x + y * y)⟩

@[simp] theorem numeral_zero : @OfNat.ofNat K 0 (Scalar.ofNat 0) = 0 := Nat.cast_zero

@[simp] theorem numeral_one : @OfNat.ofNat K 1 (Scalar.ofNat 1) = 1 := Nat.cast_one

@[simp] theorem isFinite_eq (x : K) : Scalar.isFinite x = true := rfl

@[simp] theorem abs_eq (x : K) : Scalar.abs x = |x| := rfl

theorem round_eq (x : K) :
    Scalar.round x = if 0 ≤ x then (round x : K) else -(round (-x) : K) := rfl

theorem least_eq (x y : K) : Scalar.least x y = min x y := by
  change (if x < y then x else y) = _
  rcases lt_or_ge x y with h | h
  · rw [if_pos h, min_eq_left h.le]
  · rw [if_neg h.not_gt, min_eq_right h]

theorem clamp_eq (x lo hi : K) :
    Scalar.clamp x lo hi = if x < lo then lo else if hi < x then hi else x := rfl

theorem clamp_of_mem {x lo hi : K} (h : lo ≤ x) (h' : x ≤ hi) : Scalar.clamp x lo hi = x := by
  rw [clamp_eq, if_neg h.not_gt, if_neg h'.not_gt]

theorem clamp_unit_mem (x : K) : 0 ≤ Scalar.clamp x 0 1 ∧ Scalar.clamp x 0 1 ≤ 1 := by
  rw [clamp_eq]
  split_ifs with hlo hhi
  · exact ⟨le_rfl, zero_le_one⟩
  · exact ⟨zero_le_one, le_rfl⟩
  · exact ⟨not_lt.mp hlo, not_lt.mp hhi⟩

theorem clamp_one_sub [IsStrictOrderedRing K] (x : K) :
    Scalar.clamp (1 - x) 0 1 = 1 - Scalar.clamp x 0 1 := by
  rw [clamp_eq, clamp_eq]
  split_ifs <;> linarith

end PenStroke.Exact
