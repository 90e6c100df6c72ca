import PenStroke.Proofs.Waypoints

/-! The points at which a stroke was sampled, read off what was reported for it. Where no waypoints
are drawn, the path joins these points and shows nothing else. -/
namespace PenStroke

variable {α : Type}

/-- The point of a curve that an event tells of. -/
def SamplingEvent.sampled? : SamplingEvent α → Option (Point α)
  | .sample _ _ p => some p
  | .waypoint _ _ => none

/-- The points that were sampled, in order. -/
def sampledPoints (events : Array (SamplingEvent α)) : List (Point α) :=
  events.toList.filterMap SamplingEvent.sampled?

/-- The figure of straight lines through points. -/
def Command.joined : List (Point α) → List (Command α)
  | [] => []
  | p :: ps => .moveTo p :: ps.map .lineTo ++ [.stroke]

theorem Leg.filterMap_events (leg : Leg α) :
    leg.events.filterMap SamplingEvent.sampled? = [leg.point] := by
  obtain ⟨index, u, point, waypoint⟩ := leg
  cases waypoint <;> rfl

namespace SamplingOptions
variable [Scalar α] (options : SamplingOptions α) (curve : PlaneSpline α)

/-- The points of a curve at which it is sampled. -/
def samplePoints : List (Point α) :=
  (List.range (max options.samples 2)).map (options.sample curve)

@[simp] theorem length_samplePoints :
    (options.samplePoints curve).length = max options.samples 2 := by
  simp [samplePoints]

variable [Hypotenuse α]

theorem sampledPoints_legs :
    sampledPoints ((options.legs curve).flatMap Leg.events).toArray =
      options.samplePoints curve := by
  rw [sampledPoints, List.filterMap_flatMap, samplePoints, legs, List.flatMap_map,
    List.map_eq_flatMap]
  simp only [Leg.filterMap_events, leg]

variable {curve}

/-- Whether waypoints are drawn or not, the sampled points are those of the curve. -/
theorem exists_sampledPoints {stroke : Stroke α} (hn : 2 ≤ stroke.points.length)
    (hf : ∀ p ∈ stroke.points, p.isFinite) (hc : PlaneSpline.through? stroke.points = some curve)
    (canvas : Canvas α) : ∃ drawn events,
      options.drawRecorded canvas stroke = .ok (drawn, events) ∧
      sampledPoints events = options.samplePoints curve :=
  ⟨_, _, options.drawRecorded_eq hn hf hc canvas, options.sampledPoints_legs curve⟩

/-- A stroke is drawn by joining these points, which are reported as its samples. -/
def DrawsJoined (stroke : Stroke α) (points : List (Point α)) : Prop :=
  ∀ canvas, ∃ events,
    options.drawRecorded canvas stroke = .ok (canvas ++ .of (Command.joined points) [], events) ∧
      sampledPoints events = points

variable {options} in
theorem drawsJoined (hoff : options.waypoints = false) {stroke : Stroke α}
    (hn : 2 ≤ stroke.points.length) (hf : ∀ p ∈ stroke.points, p.isFinite)
    (hc : PlaneSpline.through? stroke.points = some curve) :
    options.DrawsJoined stroke (options.samplePoints curve) := by
  have hleg (k : ℕ) : options.leg curve k =
      ⟨k, parameter options.samples k, options.sample curve k, none⟩ := by
    rw [leg, waypointAt?_of_not_waypoints _ _ hoff]
  have hnotices : (options.legs curve).flatMap Leg.notices = [] := by
    simp [legs, hleg, Leg.notices]
  have hcommands : (options.legs curve).flatMap Leg.commands ++ [.stroke] =
      Command.joined (options.samplePoints curve) := by
    have hn : max options.samples 2 = max options.samples 2 - 1 + 1 := by omega
    rw [flatMap_commands, samplePoints, List.range_eq_range', hn, List.range'_succ]
    simp [hleg, Leg.lines, Command.joined, ← List.map_eq_flatMap]
  intro canvas
  refine ⟨_, ?_, options.sampledPoints_legs curve⟩
  rw [options.drawRecorded_eq hn hf hc canvas, hnotices, hcommands]

end SamplingOptions

end PenStroke
