import PenStroke.Proofs.Exact
import PenStroke.Curve.Cubic

/-! Cubics over exact scalars: a cubic is determined by its values and slopes at both ends. -/
namespace PenStroke.Cubic

variable {K : Type} [Field K] [LinearOrder K] [FloorRing K]

theorem eval_eq (s : Cubic K) (u : K) : s.eval u = ((s.a * u + s.b) * u + s.c) * u + s.d := rfl

theorem slope_eq (s : Cubic K) (u : K) :
    s.slope u = (3 * s.a * u + 2 * s.b) * u + s.c := rfl

theorem bend_eq (s : Cubic K) (u : K) : s.bend u = 6 * s.a * u + 2 * s.b := rfl

theorem ofHermite_eq (v w d e : K) :
    ofHermite v w d e = ⟨2 * (v - w) + d + e, 3 * (w - v) - 2 * d - e, d, v⟩ := rfl

section Hermite
variable (v w d e : K)

@[simp] theorem ofHermite_eval_zero : (ofHermite v w d e).eval 0 = v := by
  rw [eval_eq, ofHermite_eq]
  ring

@[simp] theorem ofHermite_eval_one : (ofHermite v w d e).eval 1 = w := by
  rw [eval_eq, ofHermite_eq]
  ring

@[simp] theorem ofHermite_slope_zero : (ofHermite v w d e).slope 0 = d := by
  rw [slope_eq, ofHermite_eq]
  ring

@[simp] theorem ofHermite_slope_one : (ofHermite v w d e).slope 1 = e := by
  rw [slope_eq, ofHermite_eq]
  ring

theorem ofHermite_bend_zero :
    (ofHermite v w d e).bend 0 = 2 * (3 * (w - v) - (2 * d + e)) := by
  rw [bend_eq, ofHermite_eq]
  ring

theorem ofHermite_bend_one :
    (ofHermite v w d e).bend 1 = 2 * (d + 2 * e - 3 * (w - v)) := by
  rw [bend_eq, ofHermite_eq]
  ring

end Hermite

/-- No other cubic has the same values and slopes at both ends. -/
theorem eq_ofHermite (s : Cubic K) :
    s = ofHermite (s.eval 0) (s.eval 1) (s.slope 0) (s.slope 1) := by
  rw [ofHermite_eq]
  obtain ⟨a, b, c, d⟩ := s
  simp only [eval_eq, slope_eq, mk.injEq]
  refine ⟨?_, ?_, ?_, ?_⟩ <;> ring

end PenStroke.Cubic
