import PenStroke.Proofs.Binary64
import PenStroke.Proofs.Canvas
import PenStroke.Proofs.Finite
import PenStroke.Smoothing.Sampled

/-! A sampled stroke as a list of legs, one for each sample. The events, the drawing and the
notices of a run all list the same legs. -/
namespace PenStroke

open scoped Scalar

variable {α : Type}

/-- The way to one sample, with the waypoint on it if there is one. -/
structure Leg (α : Type) where
  index : Nat
  u : α
  point : Point α
  waypoint : Option (Point α)

namespace Leg
variable (leg : Leg α)

def events : List (SamplingEvent α) :=
  .sample leg.index leg.u leg.point :: leg.waypoint.toList.map (.waypoint leg.index)

def lines : List (Command α) := leg.waypoint.toList.map .lineTo ++ [.lineTo leg.point]

/-- The first leg only moves the pen. -/
def commands : List (Command α) := if leg.index = 0 then [.moveTo leg.point] else leg.lines

def notices : List (Notice α) := leg.waypoint.toList.map (.waypoint · leg.index)

theorem level_notices : ∀ notice ∈ leg.notices, notice.level = .trace := by
  intro notice hnotice
  obtain ⟨p, -, rfl⟩ := List.mem_map.mp hnotice
  rfl

end Leg

variable [Scalar α]

/-- The parameter of sample `k`. -/
def parameter (count k : Nat) : α := (k : α) / ((max count 2 - 1 : Nat) : α)

theorem parameters_eq (count : Nat) :
    (parameters count : List α) = (List.range (max count 2)).map (parameter count) := rfl

variable [Hypotenuse α]

namespace SamplingOptions
variable (options : SamplingOptions α) (curve : PlaneSpline α)

def sample (k : Nat) : Point α := curve.eval (parameter options.samples k)

def waypointAt? : Nat → Option (Point α)
  | k + 2 =>
    if options.waypoints then
      waypoint? (options.sample curve k) (options.sample curve (k + 1))
        (options.sample curve (k + 2)) options.threshold options.fraction
    else none
  | _ => none

def leg (k : Nat) : Leg α :=
  ⟨k, parameter options.samples k, options.sample curve k, options.waypointAt? curve k⟩

end SamplingOptions

namespace SamplingPen
variable (options : SamplingOptions α) (curve : PlaneSpline α)

/-- A pen that has drawn `k` samples remembers the last two of them. -/
def Remembers (pen : SamplingPen α) : Nat → Prop
  | 0 => pen.last = none ∧ pen.previous = none
  | 1 => pen.last = some (options.sample curve 0) ∧ pen.previous = none
  | k + 2 => pen.last = some (options.sample curve (k + 1)) ∧
      pen.previous = some (options.sample curve k)

variable {options curve} {pen : SamplingPen α} {k : Nat}

theorem Remembers.waypoint? (h : pen.Remembers options curve k) :
    pen.waypoint? options (options.sample curve k) = options.waypointAt? curve k := by
  rw [SamplingPen.waypoint?]
  match k, h with
  | 0, h | 1, h => rw [h.2]; rfl
  | k + 2, h => rw [h.1, h.2]; rfl

/-- A step draws the commands of its leg, gives its notices and reports its events. -/
theorem step_eq (h : pen.Remembers options curve k) :
    pen.step options curve k (parameter options.samples k) =
      { canvas := pen.canvas ++ .of (options.leg curve k).commands (options.leg curve k).notices
        events := pen.events ++ (options.leg curve k).events.toArray
        previous := pen.last
        last := some (options.sample curve k) } := by
  simp only [SamplingPen.step, Leg.events, Leg.commands, Leg.lines, Leg.notices,
    SamplingOptions.leg]
  rw [show (pen.record _).waypoint? options (curve.eval (parameter options.samples k)) = _ from
    h.waypoint?]
  match k, h with
  | 0, h =>
    simp [go, record, h.1, SamplingOptions.waypointAt?, SamplingOptions.sample]
  | 1, h =>
    simp [go, record, h.1, SamplingOptions.waypointAt?, SamplingOptions.sample]
  | k + 2, h =>
    cases options.waypointAt? curve (k + 2) with
    | none => simp [go, record, h.1, SamplingOptions.sample]
    | some p =>
      have hpush (a b : SamplingEvent α) : (pen.events.push a).push b = pen.events ++ #[a, b] := by
        apply Array.toList_inj.mp
        simp
      simp [goThrough, go, record, h.1, SamplingOptions.sample, hpush]

theorem Remembers.step (h : pen.Remembers options curve k) :
    (pen.step options curve k (parameter options.samples k)).Remembers options curve (k + 1) := by
  rw [step_eq h]
  match k, h with
  | 0, h | 1, h | k + 2, h => exact ⟨rfl, h.1⟩

/-- A run draws, tells and reports leg after leg. -/
theorem run_eq (h : pen.Remembers options curve k) (n : Nat) :
    let drawn := pen.run options curve k ((List.range' k n).map (parameter options.samples))
    drawn.canvas = pen.canvas ++
      .of ((List.range' k n).flatMap fun j => (options.leg curve j).commands)
        ((List.range' k n).flatMap fun j => (options.leg curve j).notices) ∧
    drawn.events.toList = pen.events.toList ++
      (List.range' k n).flatMap fun j => (options.leg curve j).events := by
  induction n generalizing pen k with
  | zero => simp [run]
  | succ n ih =>
    obtain ⟨hcanvas, hevents⟩ := ih h.step
    simp only [List.range'_succ, List.map_cons, run, List.flatMap_cons]
    rw [hcanvas, hevents, step_eq h]
    simp

end SamplingPen

namespace SamplingOptions
variable (options : SamplingOptions α) (curve : PlaneSpline α)

/-- The legs of a whole stroke. -/
def legs : List (Leg α) := (List.range (max options.samples 2)).map (options.leg curve)

/-- A new pen draws and reports all legs, after what there was. -/
theorem run_legs (canvas : Canvas α) (events : Array (SamplingEvent α)) :
    let pen : SamplingPen α := { canvas := canvas, events := events }
    let drawn := pen.run options curve 0 (parameters options.samples)
    drawn.canvas = canvas ++ .of ((options.legs curve).flatMap Leg.commands)
        ((options.legs curve).flatMap Leg.notices) ∧
      drawn.events = events ++ ((options.legs curve).flatMap Leg.events).toArray := by
  intro pen drawn
  have hpen : pen.Remembers options curve 0 := ⟨rfl, rfl⟩
  obtain ⟨hcanvas, hevents⟩ := SamplingPen.run_eq hpen (max options.samples 2)
  rw [← List.range_eq_range', ← parameters_eq] at hcanvas hevents
  constructor
  · rw [hcanvas]
    simp [legs, List.flatMap_map, pen]
  · rw [← Array.toList_inj, hevents]
    simp [legs, List.flatMap_map, pen]

/-- A stroke of two finite points or more is drawn leg by leg. -/
theorem drawRecorded_eq {stroke : Stroke α} (hn : 2 ≤ stroke.points.length)
    (hf : ∀ p ∈ stroke.points, p.isFinite) {curve : PlaneSpline α}
    (hc : PlaneSpline.through? stroke.points = some curve) (canvas : Canvas α) :
    options.drawRecorded canvas stroke =
      .ok (canvas ++ .of ((options.legs curve).flatMap Leg.commands ++ [.stroke])
          ((options.legs curve).flatMap Leg.notices),
        ((options.legs curve).flatMap Leg.events).toArray) := by
  obtain ⟨p, q, rest, hp⟩ := exists_cons_cons hn
  obtain ⟨hcanvas, hevents⟩ := options.run_legs curve canvas #[]
  rw [drawRecorded, Stroke.check_eq_ok hf]
  rw [hp] at hc
  simp only [hp, hc]
  change Except.ok (_, _) = _
  rw [hcanvas, hevents, Array.empty_append, Canvas.stroke_eq, Canvas.append_of_append_of,
    List.append_nil]

theorem legs_eq_cons : options.legs curve =
    options.leg curve 0 ::
      (List.range' 1 (max options.samples 2 - 1)).map (options.leg curve) := by
  have hn : max options.samples 2 = max options.samples 2 - 1 + 1 := by omega
  rw [legs, List.range_eq_range', hn, List.range'_succ]
  rfl

/-- What is drawn leg by leg: a move to the first sample, the lines of the later legs, a stroke. -/
theorem flatMap_commands : (options.legs curve).flatMap Leg.commands =
    .moveTo (options.sample curve 0) :: (List.range' 1 (max options.samples 2 - 1)).flatMap
      fun k => (options.leg curve k).lines := by
  have hlines : ∀ k ∈ List.range' 1 (max options.samples 2 - 1),
      (options.leg curve k).commands = (options.leg curve k).lines := by
    intro k hk
    have hpos : k ≠ 0 := by
      have := (List.mem_range'_1.mp hk).1
      omega
    exact if_neg hpos
  rw [legs_eq_cons, List.flatMap_cons, List.flatMap_map, List.flatMap_congr hlines]
  rfl

/-- What was drawn, told and reported for a stroke: `n` evenly spaced samples of its curve in
order, each with the waypoint before it if there is one. -/
structure DrawnInLegs (stroke : Stroke α) (canvas : Canvas α) (n : Nat) (curve : PlaneSpline α)
    (leg : Nat → Leg α) (drawn : Canvas α) (events : Array (SamplingEvent α)) : Prop where
  through : PlaneSpline.through? stroke.points = some curve
  index : ∀ k, (leg k).index = k
  parameter : ∀ k, (leg k).u = (k : α) / ((n - 1 : Nat) : α)
  parameter_first : (leg 0).u = 0
  parameter_last : (leg (n - 1)).u = 1
  point : ∀ k, (leg k).point = curve.eval (leg k).u
  waypoint_first : (leg 0).waypoint = none
  events : events.toList = (List.range n).flatMap fun k => (leg k).events
  path : drawn.path.toList = canvas.path.toList ++ .moveTo (leg 0).point ::
    ((List.range' 1 (n - 1)).flatMap fun k => (leg k).lines) ++ [.stroke]
  notices : drawn.notices.toList =
    canvas.notices.toList ++ (List.range n).flatMap fun k => (leg k).notices
  level : ∀ k, ∀ notice ∈ (leg k).notices, notice.level = .trace

section Doubles
variable {options : SamplingOptions Float}

theorem parameter_zero (h : options.samples < 2 ^ 64) :
    parameter options.samples 0 = (0 : Float) :=
  (Binary64.isNormal_ofNat (by omega) (by omega)).zero_div

theorem parameter_last (h : options.samples < 2 ^ 64) :
    parameter options.samples (max options.samples 2 - 1) = (1 : Float) :=
  (Binary64.isNormal_ofNat (by omega) (by omega)).div_self

/-- A stroke of two finite points or more is drawn leg by leg, in every way of asking for it.
Numbers of samples fit 64 bits. -/
theorem drawnInLegs (options : SamplingOptions Float) (hs : options.samples < 2 ^ 64)
    {stroke : Stroke Float} (hn : 2 ≤ stroke.points.length)
    (hf : ∀ p ∈ stroke.points, p.isFinite) (canvas : Canvas Float) :
    ∃ curve drawn events,
      options.drawRecorded canvas stroke = .ok (drawn, events) ∧
      DrawnInLegs stroke canvas (max options.samples 2) curve (options.leg curve) drawn events ∧
      options.drawChecked canvas stroke = .ok drawn ∧ options.draw canvas stroke = drawn := by
  obtain ⟨curve, hcurve⟩ := PlaneSpline.through?_isSome hn hf
  have hdrawn := drawRecorded_eq options hn hf hcurve canvas
  have hchecked := congrArg (Except.map Prod.fst) hdrawn
  refine ⟨curve, _, _, hdrawn, ?_, hchecked, ?_⟩
  · refine
      { through := hcurve
        index := fun _ => rfl
        parameter := fun _ => rfl
        parameter_first := parameter_zero hs
        parameter_last := parameter_last hs
        point := fun _ => rfl
        waypoint_first := rfl
        events := List.flatMap_map ..
        path := ?_
        notices := ?_
        level := fun k => (options.leg curve k).level_notices }
    · rw [flatMap_commands]
      simp [leg]
    · simp [legs, List.flatMap_map]
  · rw [draw, show options.drawChecked canvas stroke = _ from hchecked]
    rfl

/-- A corner drawn after a dot, by four samples. -/
theorem drawnInLegs_corner :
    let options : SamplingOptions Float := ⟨4, true, 5, 1 / 5⟩
    let stroke : Stroke Float := ⟨[⟨0, 0⟩, ⟨30, 30⟩, ⟨60, 0⟩]⟩
    let canvas : Canvas Float := (({} : Canvas Float).moveTo ⟨1, 2⟩).stroke
    options.samples < 2 ^ 64 ∧ 2 ≤ stroke.points.length ∧ (∀ p ∈ stroke.points, p.isFinite) ∧
    ∃ curve drawn events,
      options.drawRecorded canvas stroke = .ok (drawn, events) ∧
      DrawnInLegs stroke canvas 4 curve (options.leg curve) drawn events ∧
      options.drawChecked canvas stroke = .ok drawn ∧ options.draw canvas stroke = drawn := by
  intro options stroke canvas
  have hs : options.samples < 2 ^ 64 := by decide
  have hn : 2 ≤ stroke.points.length := by decide
  have hf : ∀ p ∈ stroke.points, p.isFinite := by decide +kernel
  exact ⟨hs, hn, hf, drawnInLegs options hs hn hf canvas⟩

end Doubles

end SamplingOptions

end PenStroke
