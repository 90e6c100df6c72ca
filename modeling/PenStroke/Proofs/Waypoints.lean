import PenStroke.Proofs.Doubles
import PenStroke.Proofs.Sampling

/-! Waypoints of a sampled stroke. A step that is long enough on both axes gets one, placed by
three samples alone. So runs over the same samples differ in their waypoints only, and a higher
threshold, another fraction or no waypoints at all change no more than that. -/
namespace PenStroke

open scoped Scalar

section Steps
variable {α : Type} [Scalar α]

/-- Longer than the threshold on both axes. -/
def Offset.Exceeds (step : Offset α) (threshold : α) : Prop :=
  threshold < Scalar.abs step.x ∧ threshold < Scalar.abs step.y

variable [Hypotenuse α] {p q r w : Point α} {threshold t fraction : α}

theorem isSome_waypoint? :
    (waypoint? p q r threshold fraction).isSome ↔ (r - q).Exceeds threshold := by
  unfold waypoint?
  dsimp only
  split_ifs with h
  · exact iff_of_true rfl h
  · exact iff_of_false Bool.false_ne_true h

/-- The threshold decides whether there is a waypoint, not where it lies. -/
theorem waypoint?_eq_of_exceeds (h : waypoint? p q r t fraction = some w)
    (hexceeds : (r - q).Exceeds threshold) : waypoint? p q r threshold fraction = some w := by
  have hlong : (r - q).Exceeds t := isSome_waypoint?.mp (Option.isSome_of_eq_some h)
  unfold waypoint? at h ⊢
  exact (if_pos hexceeds).trans ((if_pos hlong).symm.trans h)

end Steps

/-- A command of a run, and whether it leads to a waypoint. -/
structure Marked (α : Type) where
  command : Command α
  isWaypoint : Bool

namespace Marked
variable {α : Type}

/-- The lines to a sample, through the waypoint before it if there is one. -/
def leg (sample : Point α) (waypoint : Option (Point α)) : List (Marked α) :=
  waypoint.toList.map (⟨.lineTo ·, true⟩) ++ [⟨.lineTo sample, false⟩]

/-- The commands of a run over `n` samples. -/
def run (n : ℕ) (sample : ℕ → Point α) (waypoint : ℕ → Option (Point α)) : List (Marked α) :=
  ⟨.moveTo (sample 0), false⟩ ::
    (List.range' 1 (n - 1)).flatMap (fun k => leg (sample k) (waypoint k)) ++ [⟨.stroke, false⟩]

theorem map_command_leg (sample : Point α) (waypoint : Option (Point α)) :
    (leg sample waypoint).map command = waypoint.toList.map .lineTo ++ [.lineTo sample] := by
  cases waypoint <;> rfl

theorem filter_leg (sample : Point α) (waypoint : Option (Point α)) :
    (leg sample waypoint).filter (!·.isWaypoint) = leg sample none := by
  cases waypoint <;> rfl

/-- Without the lines to waypoints, a run is one that has no waypoints. -/
theorem filter_run (n : ℕ) (sample : ℕ → Point α) (waypoint : ℕ → Option (Point α)) :
    (run n sample waypoint).filter (!·.isWaypoint) = run n sample fun _ => none := by
  simp [run, List.filter_flatMap, filter_leg]

end Marked

namespace SamplingOptions

section Runs
variable {α : Type} [Scalar α] [Hypotenuse α] (options : SamplingOptions α)
  (curve : PlaneSpline α)

def marked : List (Marked α) :=
  Marked.run (max options.samples 2) (options.sample curve) (options.waypointAt? curve)

theorem map_command_marked : (options.marked curve).map Marked.command =
    (options.legs curve).flatMap Leg.commands ++ [.stroke] := by
  rw [flatMap_commands]
  simp [marked, Marked.run, List.map_flatMap, Marked.map_command_leg, leg, Leg.lines]

theorem waypointAt?_eq {k : ℕ} (hw : options.waypoints) (hk : 2 ≤ k) :
    options.waypointAt? curve k = waypoint? (options.sample curve (k - 2))
      (options.sample curve (k - 1)) (options.sample curve k) options.threshold
      options.fraction := by
  obtain ⟨k, rfl⟩ : ∃ j, k = j + 2 := ⟨k - 2, by omega⟩
  exact if_pos hw

theorem waypointAt?_of_not_waypoints (hw : options.waypoints = false) :
    options.waypointAt? curve = fun _ => none := by
  funext k
  rcases k with _ | _ | k
  · rfl
  · rfl
  · simp [waypointAt?, hw]

theorem two_le_of_waypointAt? {k : ℕ} (h : (options.waypointAt? curve k).isSome) :
    options.waypoints ∧ 2 ≤ k := by
  constructor
  · by_contra hw
    rw [waypointAt?_of_not_waypoints _ _ (Bool.eq_false_iff.mpr hw)] at h
    contradiction
  · rcases k with _ | _ | k
    · contradiction
    · contradiction
    · omega

theorem isSome_waypointAt? (k : ℕ) : (options.waypointAt? curve k).isSome ↔
    options.waypoints ∧ 2 ≤ k ∧
      (options.sample curve k - options.sample curve (k - 1)).Exceeds options.threshold := by
  constructor
  · intro h
    obtain ⟨hw, hk⟩ := two_le_of_waypointAt? _ _ h
    rw [waypointAt?_eq _ _ hw hk] at h
    exact ⟨hw, hk, isSome_waypoint?.mp h⟩
  · rintro ⟨hw, hk, hexceeds⟩
    rw [waypointAt?_eq _ _ hw hk]
    exact isSome_waypoint?.mpr hexceeds

/-- What a run along a curve draws and reports. -/
structure DrawnAlong (canvas drawn : Canvas α) (events : Array (SamplingEvent α)) : Prop where
  path : drawn.path.toList =
    canvas.path.toList ++ (options.marked curve).map Marked.command
  events : events.toList = (List.range (max options.samples 2)).flatMap fun k =>
    .sample k (parameter options.samples k) (options.sample curve k) ::
      (options.waypointAt? curve k).toList.map (.waypoint k)
  waypoint_iff : ∀ k, (options.waypointAt? curve k).isSome ↔ options.waypoints ∧ 2 ≤ k ∧
    (options.sample curve k - options.sample curve (k - 1)).Exceeds options.threshold
  waypoint_eq : ∀ k p, options.waypointAt? curve k = some p →
    waypoint? (options.sample curve (k - 2)) (options.sample curve (k - 1))
      (options.sample curve k) options.threshold options.fraction = some p

variable {options curve} in
theorem exists_drawnAlong {stroke : Stroke α} (hn : 2 ≤ stroke.points.length)
    (hf : ∀ p ∈ stroke.points, p.isFinite) (hc : PlaneSpline.through? stroke.points = some curve)
    (canvas : Canvas α) : ∃ drawn events,
      options.drawRecorded canvas stroke = .ok (drawn, events) ∧
      options.DrawnAlong curve canvas drawn events := by
  refine ⟨_, _, options.drawRecorded_eq hn hf hc canvas, ?_⟩
  refine
    { path := ?_
      events := List.flatMap_map ..
      waypoint_iff := options.isSome_waypointAt? curve
      waypoint_eq := ?_ }
  · rw [map_command_marked]
    simp
  · intro k p h
    obtain ⟨hw, hk⟩ := two_le_of_waypointAt? _ _ (Option.isSome_of_eq_some h)
    rw [← waypointAt?_eq _ _ hw hk, h]

/-- A run without waypoints draws the commands that are not marked. -/
theorem marked_of_not_waypoints {plain : SamplingOptions α}
    (hs : plain.samples = options.samples) (hw : plain.waypoints = false) :
    plain.marked curve = (options.marked curve).filter (!·.isWaypoint) := by
  have hsample : plain.sample curve = options.sample curve := by
    funext k
    rw [sample, sample, hs]
  rw [marked, marked, Marked.filter_run, hs, hsample, waypointAt?_of_not_waypoints _ _ hw]

/-- The fraction places the waypoints; it does not choose their steps. -/
theorem isSome_waypointAt?_fraction (fraction : α) (k : ℕ) :
    ({ options with fraction := fraction }.waypointAt? curve k).isSome =
      (options.waypointAt? curve k).isSome := by
  rw [Bool.eq_iff_iff, isSome_waypointAt?, isSome_waypointAt?]
  rfl

end Runs

section Thresholds
variable (options : SamplingOptions Float) (curve : PlaneSpline Float)

/-- A higher threshold keeps some of the waypoints, and those where they are. -/
theorem waypointAt?_of_le {t : Float} (ht : options.threshold ≤ t) {k : ℕ} {p : Point Float}
    (h : { options with threshold := t }.waypointAt? curve k = some p) :
    options.waypointAt? curve k = some p := by
  let higher : SamplingOptions Float := { options with threshold := t }
  obtain ⟨hw, hk, hx, hy⟩ := (higher.isSome_waypointAt? curve k).mp (Option.isSome_of_eq_some h)
  have hexceeds : (options.sample curve k - options.sample curve (k - 1)).Exceeds
      options.threshold :=
    ⟨Binary64.lt_of_le_of_lt ht hx, Binary64.lt_of_le_of_lt ht hy⟩
  rw [waypointAt?_eq options curve hw hk]
  rw [waypointAt?_eq higher curve hw hk] at h
  exact waypoint?_eq_of_exceeds h hexceeds

theorem waypointAt?_of_isNaN (hnan : options.threshold.isNaN) (k : ℕ) :
    options.waypointAt? curve k = none := by
  by_contra h
  obtain ⟨-, -, hx, -⟩ := (isSome_waypointAt? _ _ k).mp (Option.isSome_iff_ne_none.mpr h)
  exact (Binary64.not_isNaN_of_lt hx).1 hnan

/-- The waypoints of a stroke follow the steps between the samples of its curve. Runs over the same
samples draw the same but for their waypoints. -/
structure WaypointsFollowSteps (stroke : Stroke Float) (curve : PlaneSpline Float) : Prop where
  run : ∀ (options : SamplingOptions Float) (canvas : Canvas Float), ∃ drawn events,
    options.drawRecorded canvas stroke = .ok (drawn, events) ∧
    options.DrawnAlong curve canvas drawn events
  plain : ∀ options plain : SamplingOptions Float, plain.samples = options.samples →
    plain.waypoints = false → ∀ canvas, ∃ drawn events,
      plain.drawRecorded canvas stroke = .ok (drawn, events) ∧
      drawn.path.toList = canvas.path.toList ++
        ((options.marked curve).filter (!·.isWaypoint)).map Marked.command
  threshold : ∀ (options : SamplingOptions Float) (t : Float), options.threshold ≤ t → ∀ k p,
    { options with threshold := t }.waypointAt? curve k = some p →
      options.waypointAt? curve k = some p
  fraction : ∀ (options : SamplingOptions Float) (fraction : Float) (k : ℕ),
    ({ options with fraction := fraction }.waypointAt? curve k).isSome =
      (options.waypointAt? curve k).isSome
  isNaN : ∀ options : SamplingOptions Float, options.threshold.isNaN → ∀ k,
    options.waypointAt? curve k = none

theorem waypointsFollowSteps {stroke : Stroke Float} (hn : 2 ≤ stroke.points.length)
    (hf : ∀ p ∈ stroke.points, p.isFinite) :
    ∃ curve, PlaneSpline.through? stroke.points = some curve ∧
      WaypointsFollowSteps stroke curve := by
  obtain ⟨curve, hcurve⟩ := PlaneSpline.through?_isSome hn hf
  refine ⟨curve, hcurve, ?_⟩
  refine
    { run := fun options => exists_drawnAlong hn hf hcurve
      plain := ?_
      threshold := fun options t ht k p h => waypointAt?_of_le options curve ht h
      fraction := fun options => isSome_waypointAt?_fraction options curve
      isNaN := fun options => waypointAt?_of_isNaN options curve }
  intro options plain hs hw canvas
  obtain ⟨drawn, events, hdrawn, along⟩ := exists_drawnAlong hn hf hcurve canvas
  refine ⟨drawn, events, hdrawn, ?_⟩
  rw [along.path, marked_of_not_waypoints options curve hs hw]

/-- A corner drawn by four samples has one waypoint, on the way down. -/
theorem waypointsFollowSteps_corner :
    let options : SamplingOptions Float := ⟨4, true, 5, 1 / 5⟩
    let stroke : Stroke Float := ⟨[⟨0, 0⟩, ⟨30, 30⟩, ⟨60, 0⟩]⟩
    2 ≤ stroke.points.length ∧ (∀ p ∈ stroke.points, p.isFinite) ∧
    ∃ curve, PlaneSpline.through? stroke.points = some curve ∧
      WaypointsFollowSteps stroke curve ∧
      (List.range 4).map (fun k => (options.waypointAt? curve k).isSome) =
        [false, false, false, true] := by
  intro options stroke
  have hn : 2 ≤ stroke.points.length := by decide
  have hf : ∀ p ∈ stroke.points, p.isFinite := by decide +kernel
  obtain ⟨curve, hcurve, follow⟩ := waypointsFollowSteps hn hf
  refine ⟨hn, hf, curve, hcurve, follow, ?_⟩
  have hlong : (PlaneSpline.through? stroke.points).map (fun curve =>
      (List.range 4).map fun k => (options.waypointAt? curve k).isSome) =
        some [false, false, false, true] := by
    decide +kernel
  rw [hcurve] at hlong
  exact Option.some.inj hlong

end Thresholds

end SamplingOptions

end PenStroke
