import PenStroke.Geometry.Point
import PenStroke.Proofs.Exact

/-! Lengths and products of displacements where arithmetic is exact: the length is Euclidean, and
the dot and cross products of two displacements are bounded by the product of their lengths. -/
namespace PenStroke

theorem Point.sub_eq (p q : Point ℝ) : (p - q : Offset ℝ) = ⟨p.x - q.x, p.y - q.y⟩ := rfl

theorem Point.neg_sub_eq (p q : Point ℝ) : -(p - q : Offset ℝ) = q - p := by
  change Offset.mk (-(p.x - q.x)) (-(p.y - q.y)) = ⟨q.x - p.x, q.y - p.y⟩
  rw [neg_sub, neg_sub]

theorem Point.sub_eq_zero_iff {p q : Point ℝ} : (p - q : Offset ℝ) = .zero ↔ p = q := by
  obtain ⟨px, py⟩ := p
  obtain ⟨qx, qy⟩ := q
  simp [Point.sub_eq, Offset.zero, sub_eq_zero]

section Moved
variable (p : Point ℝ) (v : Offset ℝ) (s : ℝ)

theorem Point.sub_offset_eq : p - v = ⟨p.x - v.x, p.y - v.y⟩ := rfl

theorem Point.add_offset_eq : p + v = ⟨p.x + v.x, p.y + v.y⟩ := rfl

theorem Point.sub_sub_offset : (p - (p - v) : Offset ℝ) = v := by
  rw [Point.sub_offset_eq, Point.sub_eq, sub_sub_cancel, sub_sub_cancel]

theorem Point.add_offset_sub : (p + v - p : Offset ℝ) = v := by
  rw [Point.add_offset_eq, Point.sub_eq, add_sub_cancel_left, add_sub_cancel_left]

theorem Point.sub_zero_offset : p - (.zero : Offset ℝ) = p := by
  simp [Point.sub_offset_eq, Offset.zero]

theorem Point.add_zero_offset : p + (.zero : Offset ℝ) = p := by
  simp [Point.add_offset_eq, Offset.zero]

theorem Point.sub_smul_neg : p - s • (-v) = p + s • v := by
  change Point.mk (p.x - -v.x * s) (p.y - -v.y * s) = ⟨p.x + v.x * s, p.y + v.y * s⟩
  rw [neg_mul, neg_mul, sub_neg_eq_add, sub_neg_eq_add]

theorem Point.add_smul_neg : p + s • (-v) = p - s • v := by
  change Point.mk (p.x + -v.x * s) (p.y + -v.y * s) = ⟨p.x - v.x * s, p.y - v.y * s⟩
  rw [neg_mul, neg_mul, ← sub_eq_add_neg, ← sub_eq_add_neg]

end Moved

namespace Offset
variable (v w : Offset ℝ)

theorem length_eq : v.length = √(v.x * v.x + v.y * v.y) := rfl

theorem dot_eq : v.dot w = v.x * w.x + v.y * w.y := rfl

theorem lengthSq_eq : v.lengthSq = v.x * v.x + v.y * v.y := rfl

theorem cross_eq : v.cross w = v.x * w.y - v.y * w.x := rfl

theorem turnLeft_eq : v.turnLeft = ⟨-v.y, v.x⟩ := rfl

theorem smul_eq (s : ℝ) : s • v = ⟨v.x * s, v.y * s⟩ := rfl

theorem add_eq : v + w = ⟨v.x + w.x, v.y + w.y⟩ := rfl

theorem neg_eq : -v = ⟨-v.x, -v.y⟩ := rfl

theorem smul_zero (s : ℝ) : s • (zero : Offset ℝ) = zero := by
  simp [zero, smul_eq]

theorem smul_smul (s t : ℝ) : s • t • v = (s * t) • v := by
  simp only [smul_eq, mk.injEq]
  constructor <;> ring

variable {v} in
theorem smul_ne_zero_iff {s : ℝ} : s • v ≠ .zero ↔ s ≠ 0 ∧ v ≠ .zero := by
  obtain ⟨x, y⟩ := v
  rw [← not_or, smul_eq, Ne, not_iff_not]
  simp only [zero, Exact.numeral_zero, mk.injEq, mul_eq_zero]
  tauto

@[simp] theorem add_zero_smul : v + (0 : ℝ) • w = v := by
  simp [add_eq, smul_eq]

theorem lengthSq_nonneg : 0 ≤ v.lengthSq :=
  add_nonneg (mul_self_nonneg v.x) (mul_self_nonneg v.y)

theorem length_nonneg : 0 ≤ v.length := Real.sqrt_nonneg _

theorem length_sq : v.length ^ 2 = v.lengthSq := Real.sq_sqrt v.lengthSq_nonneg

theorem length_smul (s : ℝ) : (s • v).length = |s| * v.length := by
  have hsquares : v.x * s * (v.x * s) + v.y * s * (v.y * s) =
      s ^ 2 * (v.x * v.x + v.y * v.y) := by ring
  rw [smul_eq, length_eq, hsquares, Real.sqrt_mul (sq_nonneg s), Real.sqrt_sq_eq_abs, length_eq]

variable {v} in
theorem lengthSq_eq_zero_iff : v.lengthSq = 0 ↔ v = .zero := by
  obtain ⟨x, y⟩ := v
  rw [lengthSq_eq, mul_self_add_mul_self_eq_zero]
  simp [zero]

variable {v} in
theorem length_eq_zero_iff : v.length = 0 ↔ v = .zero := by
  rw [← lengthSq_eq_zero_iff, ← length_sq, sq_eq_zero_iff]

theorem length_neg : (-v).length = v.length := by
  rw [neg_eq, length_eq, length_eq, neg_mul_neg, neg_mul_neg]

/-- The products of two displacements are the legs of a right triangle. -/
theorem dot_sq_add_cross_sq : v.dot w ^ 2 + v.cross w ^ 2 = v.lengthSq * w.lengthSq := by
  rw [dot_eq, cross_eq, lengthSq_eq, lengthSq_eq]
  ring

theorem abs_dot_le : |v.dot w| ≤ v.length * w.length := by
  apply abs_le_of_sq_le_sq _ (mul_nonneg v.length_nonneg w.length_nonneg)
  rw [mul_pow, length_sq, length_sq, ← dot_sq_add_cross_sq]
  linarith [sq_nonneg (v.cross w)]

theorem abs_cross_le : |v.cross w| ≤ v.length * w.length := by
  apply abs_le_of_sq_le_sq _ (mul_nonneg v.length_nonneg w.length_nonneg)
  rw [mul_pow, length_sq, length_sq, ← dot_sq_add_cross_sq]
  linarith [sq_nonneg (v.dot w)]

end Offset

end PenStroke
