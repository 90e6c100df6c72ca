import PenStroke.Proofs.AffineStrokes
import PenStroke.Proofs.CornerWaypoints

/-! Sampled strokes know neither place, scale nor side. The sine of a turn and the side a waypoint
goes to change their signs together under a reflection, so all that is drawn follows the symmetries
of the axes when the threshold is scaled along. -/
namespace PenStroke

/-- A symmetry of the axes: they may be exchanged, and then each of them may be reversed. -/
structure AxisSymmetry where
  swaps : Bool
  reversesX : Bool
  reversesY : Bool

section Maps
variable {K : Type} [Field K]

/-- The map on displacements: its linear part. -/
def PlaneMap.onOffset (g : PlaneMap K) (d : Offset K) : Offset K := ⟨g.x.change d, g.y.change d⟩

namespace AxisSymmetry
variable (S : AxisSymmetry)

def sign (reverses : Bool) : K := if reverses then -1 else 1

/-- One if turns to the left stay so, and minus one if they become turns to the right. -/
def orientation : K := sign S.swaps * sign S.reversesX * sign S.reversesY

/-- The map that takes a point to its image under the symmetry, scaled by `s` and moved by `b`. -/
def similarity (s : K) (b : Offset K) : PlaneMap K :=
  if S.swaps then ⟨⟨0, s * sign S.reversesX, b.x⟩, ⟨s * sign S.reversesY, 0, b.y⟩⟩
  else ⟨⟨s * sign S.reversesX, 0, b.x⟩, ⟨0, s * sign S.reversesY, b.y⟩⟩

end AxisSymmetry

end Maps

/-- A map that scales all lengths by `s`, takes displacements along an axis to displacements along
one, and keeps turns if the sign `o` is one or reverses them if it is minus one. -/
structure PlaneMap.KeepsAxes (g : PlaneMap ℝ) (s o : ℝ) : Prop where
  pos : 0 < s
  sign : o = 1 ∨ o = -1
  length : ∀ v, (g.onOffset v).length = s * v.length
  cross : ∀ v w, (g.onOffset v).cross (g.onOffset w) = o * (s * s * v.cross w)
  /-- A turn to the left before the map is a turn to the side of `o` after it. -/
  turnLeft : ∀ v, g.onOffset v.turnLeft = o • (g.onOffset v).turnLeft
  exceeds : ∀ v t, (s * t < |(g.onOffset v).x| ∧ s * t < |(g.onOffset v).y|) ↔
    t < |v.x| ∧ t < |v.y|

namespace PlaneMap

theorem onPoint_sub (g : PlaneMap ℝ) (p q : Point ℝ) :
    g.onPoint p - g.onPoint q = g.onOffset (p - q) := by
  have hform (f : AffineForm ℝ) : f.value p - f.value q = f.change (p - q) := by
    rw [AffineForm.value, AffineForm.value, AffineForm.change, Point.sub_eq]
    ring
  rw [Point.sub_eq (g.onPoint p), onOffset, ← hform, ← hform]
  rfl

namespace KeepsAxes
variable {g : PlaneMap ℝ} {s o : ℝ} (h : g.KeepsAxes s o)
include h

theorem turnSine_onOffset (v w : Offset ℝ) :
    turnSine (g.onOffset v) (g.onOffset w) = o * turnSine v w := by
  have hscale : s * s ≠ 0 := (mul_pos h.pos h.pos).ne'
  have hlengths : (g.onOffset w).length * (g.onOffset v).length =
      s * s * (w.length * v.length) := by
    rw [h.length, h.length]
    ring
  rw [turnSine_eq, turnSine_eq, Offset.sine, Offset.sine, hlengths, h.cross, mul_div_assoc,
    mul_div_mul_left _ _ hscale]

theorem waypoint?_onPoint (p q r : Point ℝ) (threshold fraction : ℝ) :
    waypoint? (g.onPoint p) (g.onPoint q) (g.onPoint r) (s * threshold) fraction =
      (waypoint? p q r threshold fraction).map g.onPoint := by
  rw [waypoint?_eq, waypoint?_eq, onPoint_sub, onPoint_sub, h.turnSine_onOffset]
  generalize r - q = step
  generalize turnSine (q - p) step = sine
  by_cases hexceeds : threshold < |step.x| ∧ threshold < |step.y|
  · rw [if_pos ((h.exceeds step threshold).mpr hexceeds), if_pos hexceeds, Option.map_some]
    -- The side turns over twice under a reflection: by the sine and by the step itself.
    have hx : g.x.x * -step.y + g.x.y * step.x = -(g.onOffset step).y * o :=
      congrArg Offset.x (h.turnLeft step)
    have hy : g.y.x * -step.y + g.y.y * step.x = (g.onOffset step).x * o :=
      congrArg Offset.y (h.turnLeft step)
    simp only [onPoint, onOffset, AffineForm.value, AffineForm.change, Option.some.injEq,
      Point.mk.injEq] at hx hy ⊢
    constructor
    · linear_combination -(fraction * sine) * hx
    · linear_combination -(fraction * sine) * hy
  · rw [if_neg (mt (h.exceeds step threshold).mp hexceeds), if_neg hexceeds, Option.map_none]

end KeepsAxes

end PlaneMap

namespace AxisSymmetry
variable (S : AxisSymmetry)

theorem orientation_eq : (S.orientation : ℝ) = 1 ∨ (S.orientation : ℝ) = -1 := by
  obtain ⟨swaps, reversesX, reversesY⟩ := S
  cases swaps <;> cases reversesX <;> cases reversesY <;> simp [orientation, sign]

theorem sign_mul_self (reverses : Bool) : (sign reverses * sign reverses : ℝ) = 1 := by
  cases reverses <;> simp [sign]

theorem onOffset_similarity (s : ℝ) (b v : Offset ℝ) : (S.similarity s b).onOffset v =
    ⟨s * sign S.reversesX * if S.swaps then v.y else v.x,
      s * sign S.reversesY * if S.swaps then v.x else v.y⟩ := by
  rw [similarity]
  split_ifs <;> simp [PlaneMap.onOffset, AffineForm.change]

theorem abs_sign_mul {s : ℝ} (hs : 0 < s) (reverses : Bool) (x : ℝ) :
    |s * sign reverses * x| = s * |x| := by
  rw [abs_mul, abs_mul, abs_of_pos hs]
  cases reverses <;> simp [sign]

/-- The symmetries of the axes keep the axes, whatever scale and translation follow. -/
theorem keepsAxes {s : ℝ} (hs : 0 < s) (b : Offset ℝ) :
    (S.similarity s b).KeepsAxes s S.orientation := by
  have hswaps : (sign S.swaps : ℝ) = if S.swaps then -1 else 1 := rfl
  have hx : (sign S.reversesX * sign S.reversesX : ℝ) = 1 := sign_mul_self _
  have hy : (sign S.reversesY * sign S.reversesY : ℝ) = 1 := sign_mul_self _
  refine ⟨hs, S.orientation_eq, fun v => ?length, fun v w => ?cross, fun v => ?turnLeft,
    fun v t => ?exceeds⟩
  case length =>
    have hsquares : √(s * s * (v.x * v.x + v.y * v.y)) = s * √(v.x * v.x + v.y * v.y) := by
      rw [Real.sqrt_mul (mul_self_nonneg s), Real.sqrt_mul_self hs.le]
    rw [Offset.length_eq, Offset.length_eq, onOffset_similarity, ← hsquares]
    congr 1
    split_ifs
    · linear_combination s * s * v.y * v.y * hx + s * s * v.x * v.x * hy
    · linear_combination s * s * v.x * v.x * hx + s * s * v.y * v.y * hy
  case cross =>
    rw [Offset.cross_eq, Offset.cross_eq, onOffset_similarity, onOffset_similarity, orientation,
      hswaps]
    split_ifs <;> ring
  case turnLeft =>
    rw [Offset.turnLeft_eq, Offset.turnLeft_eq, Offset.smul_eq, onOffset_similarity,
      onOffset_similarity, orientation, hswaps, Offset.mk.injEq]
    split_ifs
    · constructor
      · linear_combination -(s * sign S.reversesX * v.x) * hy
      · linear_combination (s * sign S.reversesY * v.y) * hx
    · constructor
      · linear_combination (s * sign S.reversesX * v.y) * hy
      · linear_combination -(s * sign S.reversesY * v.x) * hx
  case exceeds =>
    rw [onOffset_similarity, abs_sign_mul hs, abs_sign_mul hs, mul_lt_mul_iff_right₀ hs,
      mul_lt_mul_iff_right₀ hs]
    split_ifs
    · exact and_comm
    · rfl

end AxisSymmetry

/-- The image of a stroke under a symmetry of the axes, a scaling and a translation is
drawn as the image of what is drawn for the stroke, with the same waypoints, if the
threshold is scaled along. -/
theorem SamplingOptions.drawsImage_similarity (S : AxisSymmetry) {s : ℝ} (hs : 0 < s)
    (b : Offset ℝ) (options : SamplingOptions ℝ) :
    options.DrawsImage (S.similarity s b).onPoint
      { options with threshold := s * options.threshold } := by
  refine drawsImage_of_between? rfl fun p q r => ?_
  rw [between?, between?]
  cases options.waypoints with
  | false => rfl
  | true => exact (S.keepsAxes hs b).waypoint?_onPoint p q r options.threshold options.fraction

/-- A quarter turn to the left at twice the size. -/
theorem SamplingOptions.drawsImage_similarity_turned : (0 : ℝ) < 2 ∧
    (⟨4, true, 5, 1 / 5⟩ : SamplingOptions ℝ).DrawsImage
      ((⟨true, true, false⟩ : AxisSymmetry).similarity 2 ⟨3, -1⟩).onPoint
      ⟨4, true, 2 * 5, 1 / 5⟩ :=
  ⟨two_pos, drawsImage_similarity ⟨true, true, false⟩ two_pos ⟨3, -1⟩ ⟨4, true, 5, 1 / 5⟩⟩

end PenStroke
