import PenStroke.Proofs.AffineMaps
import PenStroke.Proofs.SmoothedInk

/-! Strokes moved by a map of the plane. What is drawn for a stroke moves along under every affine
map if no waypoints are drawn, and otherwise under those that the waypoints follow. -/
namespace PenStroke

section Images
variable {α : Type} (g : Point α → Point α)

def Command.mapPoints : Command α → Command α
  | .moveTo p => .moveTo (g p)
  | .lineTo p => .lineTo (g p)
  | .curveTo first second p => .curveTo (g first) (g second) (g p)
  | .stroke => .stroke

def Notice.mapPoints : Notice α → Notice α
  | .dot p => .dot (g p)
  | .waypoint p index => .waypoint (g p) index
  | .skipped fault => .skipped fault
  | .unpaired count => .unpaired count
  | .invisible components width => .invisible components width

def SamplingEvent.mapPoints : SamplingEvent α → SamplingEvent α
  | .sample index u p => .sample index u (g p)
  | .waypoint index p => .waypoint index (g p)

def Stroke.mapPoints (stroke : Stroke α) : Stroke α := ⟨stroke.points.map g⟩

def Leg.mapPoints (leg : Leg α) : Leg α :=
  { leg with point := g leg.point, waypoint := leg.waypoint.map g }

namespace Canvas

def mapPoints (canvas : Canvas α) : Canvas α :=
  .of (canvas.path.toList.map (Command.mapPoints g))
    (canvas.notices.toList.map (Notice.mapPoints g))

theorem mapPoints_append_of (canvas : Canvas α) (cs : List (Command α)) (ns : List (Notice α)) :
    (canvas ++ of cs ns).mapPoints g =
      canvas.mapPoints g ++ of (cs.map (Command.mapPoints g)) (ns.map (Notice.mapPoints g)) := by
  apply ext_toList <;> simp [mapPoints]

end Canvas

namespace Leg
variable (leg : Leg α)

theorem events_mapPoints :
    (leg.mapPoints g).events = leg.events.map (SamplingEvent.mapPoints g) := by
  obtain ⟨index, u, point, waypoint⟩ := leg
  cases waypoint <;> rfl

theorem commands_mapPoints :
    (leg.mapPoints g).commands = leg.commands.map (Command.mapPoints g) := by
  obtain ⟨index, u, point, waypoint⟩ := leg
  by_cases h : index = 0
  · simp [commands, mapPoints, Command.mapPoints, h]
  · cases waypoint <;> simp [commands, lines, mapPoints, Command.mapPoints, h]

theorem notices_mapPoints :
    (leg.mapPoints g).notices = leg.notices.map (Notice.mapPoints g) := by
  obtain ⟨index, u, point, waypoint⟩ := leg
  cases waypoint <;> rfl

end Leg

variable [Scalar α] [Hypotenuse α]

namespace SamplingOptions

/-- The waypoint that goes on the step from `q` to `r` after the step from `p`. -/
def between? (options : SamplingOptions α) (p q r : Point α) : Option (Point α) :=
  if options.waypoints then waypoint? p q r options.threshold options.fraction else none

/-- With the options `image`, what is drawn and told for the image of a stroke is the image of what
is for the stroke itself. -/
def DrawsImage (options image : SamplingOptions α) : Prop :=
  ∀ canvas stroke, image.drawRecorded (canvas.mapPoints g) (stroke.mapPoints g) =
    (options.drawRecorded canvas stroke).map fun drawn =>
      (drawn.1.mapPoints g, drawn.2.map (SamplingEvent.mapPoints g))

end SamplingOptions

end Images

variable {K : Type} [Field K] [LinearOrder K] [FloorRing K] [Hypotenuse K]

namespace SamplingOptions
variable {g : PlaneMap K} {options image : SamplingOptions K}

/-- Waypoints follow the map if each of them does, and then so do whole legs. -/
theorem leg_mapPoints (hsamples : image.samples = options.samples)
    (hwaypoint : ∀ p q r, image.between? (g.onPoint p) (g.onPoint q) (g.onPoint r) =
      (options.between? p q r).map g.onPoint)
    {curve moved : PlaneSpline K} (hcurve : ∀ u, moved.eval u = g.onPoint (curve.eval u)) (k : ℕ) :
    image.leg moved k = (options.leg curve k).mapPoints g.onPoint := by
  have hsample (k : ℕ) : image.sample moved k = g.onPoint (options.sample curve k) := by
    rw [sample, sample, hsamples, hcurve]
  have hat : image.waypointAt? moved k = (options.waypointAt? curve k).map g.onPoint := by
    rcases k with _ | _ | k
    · rfl
    · rfl
    · have h := hwaypoint (options.sample curve k) (options.sample curve (k + 1))
        (options.sample curve (k + 2))
      rwa [← hsample, ← hsample, ← hsample] at h
  rw [leg, leg, Leg.mapPoints, hsamples, hsample, hat]

variable [IsStrictOrderedRing K]

theorem drawsImage_of_between? (hsamples : image.samples = options.samples)
    (hwaypoint : ∀ p q r, image.between? (g.onPoint p) (g.onPoint q) (g.onPoint r) =
      (options.between? p q r).map g.onPoint) : DrawsImage g.onPoint options image := by
  intro canvas stroke
  obtain ⟨points⟩ := stroke
  have hf (ps : List (Point K)) : ∀ p ∈ ps, p.isFinite := fun p _ => rfl
  match points with
  | [] =>
    change image.drawRecorded _ ⟨[]⟩ = _
    simp [drawRecorded_nil, Except.map]
  | [p] =>
    change image.drawRecorded _ ⟨[g.onPoint p]⟩ = _
    rw [drawRecorded_single image rfl (hf _), drawRecorded_single options rfl (hf _)]
    simp [Except.map, Canvas.mapPoints_append_of, Command.mapPoints, Notice.mapPoints]
  | p :: q :: rest =>
    let stroke : Stroke K := ⟨p :: q :: rest⟩
    have hn : 2 ≤ stroke.points.length := Nat.le_add_left 2 _
    have hn' : 2 ≤ (stroke.mapPoints g.onPoint).points.length := by
      simpa [Stroke.mapPoints] using hn
    obtain ⟨curve, hcurve, himage, heval⟩ := g.through?_map hn
    have hlegs : image.legs (g.onCurve curve) =
        (options.legs curve).map (Leg.mapPoints g.onPoint) := by
      rw [legs, legs, hsamples, List.map_map]
      exact List.map_congr_left fun k _ => leg_mapPoints hsamples hwaypoint heval k
    rw [drawRecorded_eq options hn (hf _) hcurve, drawRecorded_eq image hn' (hf _) himage,
      Except.map, Canvas.mapPoints_append_of, hlegs]
    simp [List.flatMap_map, List.map_flatMap, Leg.commands_mapPoints, Leg.notices_mapPoints,
      Leg.events_mapPoints, Command.mapPoints]

end SamplingOptions

variable [IsStrictOrderedRing K]

/-- The natural spline is linear in its values, coefficient by coefficient, and constant for equal
values. So the curve through points follows every affine map of the plane, and so does all that is
drawn and told for a stroke when no waypoints are drawn. -/
theorem smoothing_affine :
    (∀ (p q : K) (vs ws : List K), vs.length = ws.length → 2 ≤ vs.length → ∃ s t,
      Spline.natural? vs = some ⟨s⟩ ∧ Spline.natural? ws = some ⟨t⟩ ∧
      s.length = vs.length - 1 ∧ t.length = vs.length - 1 ∧
      Spline.natural? (List.zipWith (fun v w => p * v + q * w) vs ws) =
        some ⟨List.zipWith (Cubic.combine p q) s t⟩) ∧
    (∀ (c : K) (n : ℕ), 2 ≤ n → Spline.natural? (List.replicate n c) =
      some ⟨List.replicate (n - 1) ⟨0, 0, 0, c⟩⟩) ∧
    (∀ (g : PlaneMap K) (points : List (Point K)), 2 ≤ points.length → ∃ curve image,
      PlaneSpline.through? points = some curve ∧
      PlaneSpline.through? (points.map g.onPoint) = some image ∧
      ∀ u, image.eval u = g.onPoint (curve.eval u)) ∧
    ∀ (g : PlaneMap K) (options : SamplingOptions K), options.waypoints = false →
      options.DrawsImage g.onPoint options := by
  refine ⟨fun p q vs ws => Spline.natural?_combine p q, fun c n => Spline.natural?_replicate c,
    fun g points hn => ?_, fun g options hoff => ?_⟩
  · obtain ⟨curve, hcurve, himage, heval⟩ := g.through?_map hn
    exact ⟨curve, g.onCurve curve, hcurve, himage, heval⟩
  · refine SamplingOptions.drawsImage_of_between? rfl fun p q r => ?_
    simp [SamplingOptions.between?, hoff]

/-- Values of two strokes combined, and a stroke under a shear. -/
theorem smoothing_affine_shear :
    ([0, 3, 1] : List ℝ).length = ([2, -1, 4] : List ℝ).length ∧ 2 ≤ ([0, 3, 1] : List ℝ).length ∧
    (∃ s t, Spline.natural? ([0, 3, 1] : List ℝ) = some ⟨s⟩ ∧
      Spline.natural? ([2, -1, 4] : List ℝ) = some ⟨t⟩ ∧ s.length = 2 ∧ t.length = 2 ∧
      Spline.natural? (List.zipWith (fun v w => 2 * v + -3 * w) ([0, 3, 1] : List ℝ) [2, -1, 4]) =
        some ⟨List.zipWith (Cubic.combine 2 (-3)) s t⟩) ∧
    (⟨4, false, 5, 1 / 5⟩ : SamplingOptions ℝ).waypoints = false ∧
    (⟨4, false, 5, 1 / 5⟩ : SamplingOptions ℝ).DrawsImage
      (⟨⟨1, 2, 3⟩, ⟨0, 1, -1⟩⟩ : PlaneMap ℝ).onPoint ⟨4, false, 5, 1 / 5⟩ := by
  obtain ⟨hlinear, -, -, hdraws⟩ := smoothing_affine (K := ℝ)
  exact ⟨rfl, by simp, hlinear 2 (-3) [0, 3, 1] [2, -1, 4] rfl (by simp), rfl,
    hdraws ⟨⟨1, 2, 3⟩, ⟨0, 1, -1⟩⟩ ⟨4, false, 5, 1 / 5⟩ rfl⟩

end PenStroke
