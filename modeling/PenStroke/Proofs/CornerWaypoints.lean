import PenStroke.Proofs.PlaneGeometry
import PenStroke.Smoothing.Corner

/-! Where corner waypoints lie. The sine of a turn is never out of the range that it is clamped to,
and a waypoint is on the side of its step that the stroke turns to. -/
namespace PenStroke

namespace Offset
variable (v w : Offset ℝ)

/-- The sine of the turn from `v` to `w`, positive to the left. It is zero if one of them has no
length, since a quotient by zero is. -/
noncomputable def sine : ℝ := v.cross w / (w.length * v.length)

theorem abs_sine_le_one : |v.sine w| ≤ 1 := by
  have hlengths : 0 ≤ w.length * v.length := mul_nonneg w.length_nonneg v.length_nonneg
  rw [sine, abs_div, abs_of_nonneg hlengths]
  apply div_le_one_of_le₀ _ hlengths
  rw [mul_comm]
  exact abs_cross_le v w

theorem sine_mul_lengths : v.sine w * (w.length * v.length) = v.cross w := by
  by_cases hzero : w.length * v.length = 0
  · have hcross := abs_cross_le v w
    rw [mul_comm, hzero] at hcross
    rw [hzero, mul_zero, abs_nonpos_iff.mp hcross]
  · exact div_mul_cancel₀ _ hzero

variable {v w} in
/-- A turn has the direction of its cross product. -/
theorem sign_sine : SignType.sign (v.sine w) = SignType.sign (v.cross w) := by
  by_cases hzero : w.length * v.length = 0
  · have hcross := sine_mul_lengths v w
    rw [hzero, mul_zero] at hcross
    rw [sine, ← hcross, zero_div]
  · have hpos : 0 < w.length * v.length :=
      (mul_nonneg w.length_nonneg v.length_nonneg).lt_of_ne' hzero
    rw [← sine_mul_lengths, sign_mul, sign_pos hpos, mul_one]

end Offset

theorem clamp_sine (v w : Offset ℝ) : Scalar.clamp (v.sine w) (-1) 1 = v.sine w := by
  obtain ⟨hlo, hhi⟩ := abs_le.mp (v.abs_sine_le_one w)
  exact Exact.clamp_of_mem hlo hhi

/-- The sine of a turn is exact: its guard only spells out that there is
no turn without lengths. -/
theorem turnSine_eq (before step : Offset ℝ) : turnSine before step = before.sine step := by
  simp only [turnSine, Exact.numeral_zero, Exact.numeral_one]
  split_ifs with hlengths
  · exact clamp_sine before step
  · have hzero : step.length * before.length = 0 :=
      le_antisymm (not_lt.mp hlengths) (mul_nonneg step.length_nonneg before.length_nonneg)
    rw [Offset.sine, hzero, div_zero]

theorem waypoint?_eq (p q r : Point ℝ) (threshold fraction : ℝ) :
    waypoint? p q r threshold fraction =
      if threshold < |(r - q).x| ∧ threshold < |(r - q).y| then
        some ⟨q.x + (r - q).x * fraction + -(r - q).y * (fraction * turnSine (q - p) (r - q)),
          q.y + (r - q).y * fraction + (r - q).x * (fraction * turnSine (q - p) (r - q))⟩
      else none := rfl

/-- A waypoint is reached from the start of its step by a share of the step, and to the side by as
much of it times the sine of the turn. -/
theorem sub_of_waypoint? {p q r w : Point ℝ} {threshold fraction : ℝ}
    (h : waypoint? p q r threshold fraction = some w) :
    (threshold < |(r - q).x| ∧ threshold < |(r - q).y|) ∧ w - q =
      fraction • (r - q) + (fraction * (q - p).sine (r - q)) • (r - q).turnLeft := by
  rw [waypoint?_eq, turnSine_eq] at h
  split_ifs at h with hexceeds
  refine ⟨hexceeds, ?_⟩
  obtain rfl := Option.some.inj h
  generalize (q - p).sine (r - q) = sine
  generalize r - q = step
  rw [Point.sub_eq, Offset.turnLeft_eq, Offset.smul_eq, Offset.smul_eq, Offset.add_eq,
    Offset.mk.injEq]
  constructor <;> ring

section Reach
variable (step : Offset ℝ) (fraction sine : ℝ)

/-- The displacement of a waypoint from the start of its step. -/
theorem dot_reach : step.dot (fraction • step + (fraction * sine) • step.turnLeft) =
    fraction * step.length ^ 2 := by
  rw [Offset.length_sq]
  simp only [Offset.turnLeft_eq, Offset.smul_eq, Offset.add_eq, Offset.dot_eq, Offset.lengthSq_eq]
  ring

theorem cross_reach : step.cross (fraction • step + (fraction * sine) • step.turnLeft) =
    fraction * step.length ^ 2 * sine := by
  rw [Offset.length_sq]
  simp only [Offset.turnLeft_eq, Offset.smul_eq, Offset.add_eq, Offset.cross_eq,
    Offset.lengthSq_eq]
  ring

theorem length_reach_sq : (fraction • step + (fraction * sine) • step.turnLeft).length ^ 2 =
    fraction ^ 2 * step.length ^ 2 * (1 + sine ^ 2) := by
  rw [Offset.length_sq, Offset.length_sq]
  simp only [Offset.turnLeft_eq, Offset.smul_eq, Offset.add_eq, Offset.lengthSq_eq]
  ring

end Reach

/-- Where a waypoint lies, by its displacement `reach` from the start of its step: along the step
by its share of the step, and to the side by that times the sine of the turn. -/
structure ReachesAside (before step reach : Offset ℝ) (fraction : ℝ) : Prop where
  along : step.dot reach = fraction * step.length ^ 2
  aside : step.cross reach * before.length = fraction * step.length * before.cross step
  aside_of_still : before = .zero → step.cross reach = 0
  distance : reach.length ^ 2 = fraction ^ 2 * step.length ^ 2 * (1 + before.sine step ^ 2)
  distance_le : reach.length ^ 2 ≤ 2 * fraction ^ 2 * step.length ^ 2

/-- A waypoint lies on the side of its step that the stroke turns to, and on the step itself where
it goes straight on or back. -/
structure TurnsInside (before step reach : Offset ℝ) (fraction : ℝ) : Prop where
  left : 0 < step.cross reach ↔ 0 < before.cross step
  right : step.cross reach < 0 ↔ before.cross step < 0
  straight : step.cross reach = 0 ↔ before.cross step = 0
  onStep : before.cross step = 0 → reach = fraction • step

section Turn
variable (before step : Offset ℝ) (fraction : ℝ)

theorem reachesAside : ReachesAside before step
    (fraction • step + (fraction * before.sine step) • step.turnLeft) fraction where
  along := dot_reach step fraction _
  aside := by
    rw [cross_reach, ← before.sine_mul_lengths step]
    ring
  aside_of_still hstill := by
    have hlength : before.length = 0 := Offset.length_eq_zero_iff.mpr hstill
    rw [cross_reach, Offset.sine, hlength, mul_zero, div_zero, mul_zero]
  distance := length_reach_sq step fraction _
  distance_le := by
    have hsine : before.sine step ^ 2 ≤ 1 :=
      (sq_le_one_iff_abs_le_one _).mpr (before.abs_sine_le_one step)
    calc (fraction • step + (fraction * before.sine step) • step.turnLeft).length ^ 2
        = fraction ^ 2 * step.length ^ 2 * (1 + before.sine step ^ 2) :=
          length_reach_sq step fraction _
      _ ≤ fraction ^ 2 * step.length ^ 2 * (1 + 1) := by gcongr
      _ = 2 * fraction ^ 2 * step.length ^ 2 := by ring

variable {step fraction}

theorem turnsInside (hf : 0 < fraction) (hstep : step ≠ .zero) : TurnsInside before step
    (fraction • step + (fraction * before.sine step) • step.turnLeft) fraction := by
  have hlength : 0 < step.length :=
    step.length_nonneg.lt_of_ne' (mt Offset.length_eq_zero_iff.mp hstep)
  have hscale : 0 < fraction * step.length ^ 2 := mul_pos hf (pow_pos hlength 2)
  -- The waypoint is to the side by a positive multiple of the sine.
  have hside : SignType.sign (step.cross
      (fraction • step + (fraction * before.sine step) • step.turnLeft)) =
      SignType.sign (before.cross step) := by
    rw [cross_reach, sign_mul, sign_pos hscale, one_mul, Offset.sign_sine]
  refine ⟨?_, ?_, ?_, fun hstraight => ?_⟩
  · rw [← sign_eq_one_iff, hside, sign_eq_one_iff]
  · rw [← sign_eq_neg_one_iff, hside, sign_eq_neg_one_iff]
  · rw [← sign_eq_zero_iff, hside, sign_eq_zero_iff]
  · have hsine : before.sine step = 0 := by rw [Offset.sine, hstraight, zero_div]
    rw [hsine, mul_zero, Offset.add_zero_smul]

end Turn

/-- A clamp never changes the sine of a turn. So a waypoint lies along its step by the share asked
for, and to the side that the stroke turns to by as much of the step times the sine. -/
theorem waypoint?_turnsInside :
    (∀ before step : Offset ℝ,
      Scalar.clamp (before.sine step) (-1) 1 = before.sine step ∧
      turnSine before step = before.sine step) ∧
    ∀ (p q r w : Point ℝ) (threshold fraction : ℝ), waypoint? p q r threshold fraction = some w →
      ReachesAside (q - p) (r - q) (w - q) fraction ∧
      (0 < fraction → 0 ≤ threshold → TurnsInside (q - p) (r - q) (w - q) fraction) := by
  refine ⟨fun before step => ⟨clamp_sine before step, turnSine_eq before step⟩, ?_⟩
  intro p q r w threshold fraction h
  obtain ⟨⟨hx, -⟩, hreach⟩ := sub_of_waypoint? h
  rw [hreach]
  refine ⟨reachesAside _ _ _, fun hf ht => turnsInside _ hf fun hzero => ?_⟩
  have hstill : |(Offset.zero : Offset ℝ).x| = 0 := by simp [Offset.zero]
  rw [hzero, hstill] at hx
  exact ht.not_gt hx

/-- A turn to the left, between two steps of length ten. -/
theorem waypoint?_turnsInside_left :
    waypoint? (⟨0, 0⟩ : Point ℝ) ⟨8, 6⟩ ⟨14, 14⟩ 5 (1 / 5) = some ⟨1094 / 125, 992 / 125⟩ ∧
    (0 : ℝ) < 1 / 5 ∧ (0 : ℝ) ≤ 5 ∧
    ReachesAside ⟨8, 6⟩ ⟨6, 8⟩ ⟨94 / 125, 242 / 125⟩ (1 / 5) ∧
    TurnsInside ⟨8, 6⟩ ⟨6, 8⟩ ⟨94 / 125, 242 / 125⟩ (1 / 5) := by
  have hbefore : (⟨8, 6⟩ : Point ℝ) - (⟨0, 0⟩ : Point ℝ) = (⟨8, 6⟩ : Offset ℝ) := by
    norm_num [Point.sub_eq]
  have hstep : (⟨14, 14⟩ : Point ℝ) - (⟨8, 6⟩ : Point ℝ) = (⟨6, 8⟩ : Offset ℝ) := by
    norm_num [Point.sub_eq]
  have hreach : (⟨1094 / 125, 992 / 125⟩ : Point ℝ) - (⟨8, 6⟩ : Point ℝ) =
      (⟨94 / 125, 242 / 125⟩ : Offset ℝ) := by
    norm_num [Point.sub_eq]
  have hten : √(100 : ℝ) = 10 := by
    rw [show (100 : ℝ) = 10 * 10 by norm_num]
    exact Real.sqrt_mul_self (by norm_num)
  have hsine : Offset.sine ⟨8, 6⟩ ⟨6, 8⟩ = 7 / 25 := by
    norm_num [Offset.sine, Offset.cross_eq, Offset.length_eq, hten]
  have hwaypoint : waypoint? (⟨0, 0⟩ : Point ℝ) ⟨8, 6⟩ ⟨14, 14⟩ 5 (1 / 5) =
      some ⟨1094 / 125, 992 / 125⟩ := by
    rw [waypoint?_eq, hbefore, hstep, turnSine_eq, hsine]
    norm_num
  obtain ⟨hreaches, hturns⟩ := waypoint?_turnsInside.2 _ _ _ _ _ _ hwaypoint
  rw [hbefore, hstep, hreach] at hreaches hturns
  exact ⟨hwaypoint, by norm_num, by norm_num, hreaches, hturns (by norm_num) (by norm_num)⟩

end PenStroke
