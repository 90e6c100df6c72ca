import PenStroke.Proofs.StoredTrees
import PenStroke.Stored.Drawing

/-! Every value with finite doubles is read back as it was stored, whatever its type. -/
namespace PenStroke

namespace Stored

section Curves

instance : Measured Axis := ⟨fun _ => True⟩

instance : Faithful Axis where
  read?_write {axis} _ := by cases axis <;> rfl
  allFinite_of_read? _ _ := trivial

instance : Measured (Point Float) := ⟨fun p => AllFinite p.x ∧ AllFinite p.y⟩

instance : Faithful (Point Float) :=
  .of_two (fun _ => rfl) (fun _ => rfl) (by decide) (fun _ => rfl) fun _ _ => .rfl

instance : Measured (Offset Float) := ⟨fun v => AllFinite v.x ∧ AllFinite v.y⟩

instance : Faithful (Offset Float) :=
  .of_two (fun _ => rfl) (fun _ => rfl) (by decide) (fun _ => rfl) fun _ _ => .rfl

instance : Measured (Cubic Float) :=
  ⟨fun s => AllFinite s.a ∧ AllFinite s.b ∧ AllFinite s.c ∧ AllFinite s.d⟩

instance : Faithful (Cubic Float) := by
  refine .of_fields (fun _ => rfl) (fun _ => rfl) ?_ ?_
  · rintro s ⟨ha, hb, hc, hd⟩
    simp [read?_write ha, read?_write hb, read?_write hc, read?_write hd]
  · rintro s fields hfields h
    simp only [Option.bind_eq_bind, Option.bind_eq_some_iff, Option.pure_def,
      Option.some.injEq] at h
    obtain ⟨a, ha, b, hb, c, hc, d, hd, rfl⟩ := h
    exact ⟨allFinite_of_required? hfields ha, allFinite_of_required? hfields hb,
      allFinite_of_required? hfields hc, allFinite_of_required? hfields hd⟩

instance : Measured (Spline Float) := ⟨fun s => AllFinite s.segments⟩

instance : Faithful (Spline Float) :=
  .of_map (fun _ => rfl) (fun _ => rfl) (fun _ => rfl) fun _ => .rfl

instance : Measured (PlaneSpline Float) := ⟨fun s => AllFinite s.x ∧ AllFinite s.y⟩

instance : Faithful (PlaneSpline Float) :=
  .of_two (fun _ => rfl) (fun _ => rfl) (by decide) (fun _ => rfl) fun _ _ => .rfl

instance : Measured (Bezier Float) :=
  ⟨fun b => AllFinite b.start ∧ AllFinite b.first ∧ AllFinite b.second ∧ AllFinite b.finish⟩

instance : Faithful (Bezier Float) := by
  refine .of_fields (fun _ => rfl) (fun _ => rfl) ?_ ?_
  · rintro b ⟨hstart, hfirst, hsecond, hfinish⟩
    simp [read?_write hstart, read?_write hfirst, read?_write hsecond, read?_write hfinish]
  · rintro b fields hfields h
    simp only [Option.bind_eq_bind, Option.bind_eq_some_iff, Option.pure_def,
      Option.some.injEq] at h
    obtain ⟨start, hstart, first, hfirst, second, hsecond, finish, hfinish, rfl⟩ := h
    exact ⟨allFinite_of_required? hfields hstart, allFinite_of_required? hfields hfirst,
      allFinite_of_required? hfields hsecond, allFinite_of_required? hfields hfinish⟩

instance : Measured (Handles Float) := ⟨fun h => AllFinite h.incoming ∧ AllFinite h.outgoing⟩

instance : Faithful (Handles Float) :=
  .of_two (fun _ => rfl) (fun _ => rfl) (by decide) (fun _ => rfl) fun _ _ => .rfl

instance : Measured (Command Float) where
  AllFinite
    | .moveTo p | .lineTo p => AllFinite p
    | .curveTo first second p => AllFinite first ∧ AllFinite second ∧ AllFinite p
    | .stroke => True

instance : Faithful (Command Float) where
  read?_write {c} hc := by
    cases c with
    | moveTo p | lineTo p =>
      have hp : read? (write p : Tree Float) = some p := read?_write hc
      refine Option.bind_eq_some_iff.mpr ⟨_, rfl, ?_⟩
      simp [hp]
    | curveTo first second p =>
      obtain ⟨hfirst, hsecond, hp⟩ := hc
      refine Option.bind_eq_some_iff.mpr ⟨_, rfl, ?_⟩
      simp [read?_write hfirst, read?_write hsecond, read?_write hp]
    | stroke => rfl
  allFinite_of_read? {t c} ht h := by
    obtain ⟨v, hv, h⟩ := Option.bind_eq_some_iff.mp h
    -- The stroke is read from two forms of its variant, and other variants from none.
    split at h
    · obtain ⟨p, hp, h⟩ := Option.bind_eq_some_iff.mp h
      cases h
      exact (allFinite_of_read? (ht.of_variant? hv) hp : AllFinite p)
    · obtain ⟨p, hp, h⟩ := Option.bind_eq_some_iff.mp h
      cases h
      exact (allFinite_of_read? (ht.of_variant? hv) hp : AllFinite p)
    · cases ht.of_variant? hv with
      | list hitems =>
        simp only [Option.bind_eq_bind, Option.bind_eq_some_iff, Option.pure_def,
          Option.some.injEq] at h
        obtain ⟨first, hfirst, second, hsecond, p, hp, rfl⟩ := h
        exact ⟨allFinite_of_read? (hitems _ (by simp)) hfirst,
          allFinite_of_read? (hitems _ (by simp)) hsecond,
          allFinite_of_read? (hitems _ (by simp)) hp⟩
    · cases h
      trivial
    · cases h
      trivial
    · contradiction

instance : Measured (Path Float) := ⟨fun path => AllFinite path.toList⟩

instance : Faithful (Path Float) :=
  .of_map (fun _ => rfl) (fun _ => rfl) (fun _ => rfl) fun _ => .rfl

end Curves

section Drawing

instance : Measured (Stroke Float) := ⟨fun stroke => AllFinite stroke.points⟩

instance : Faithful (Stroke Float) :=
  .of_map (fun _ => rfl) (fun _ => rfl) (fun _ => rfl) fun _ => .rfl

instance : Measured (Ink Float) := ⟨fun ink => AllFinite ink.strokes⟩

instance : Faithful (Ink Float) :=
  .of_map (fun _ => rfl) (fun _ => rfl) (fun _ => rfl) fun _ => .rfl

instance : Measured (CurveOptions Float) := ⟨fun options => AllFinite options.tightness⟩

theorem allFinite_standard_tightness :
    AllFinite (CurveOptions.standard : CurveOptions Float).tightness := by
  change Scalar.isFinite _ = true
  decide

instance : Faithful (CurveOptions Float) := by
  refine .of_fields (fun _ => rfl) (fun _ => rfl) ?_ ?_
  · intro options h
    have htightness : AllFinite options.tightness := h
    simp [read?_write htightness]
  · rintro options fields hfields h
    simp only [Option.bind_eq_bind, Option.bind_eq_some_iff, Option.pure_def,
      Option.some.injEq] at h
    obtain ⟨tightness, htightness, rfl⟩ := h
    have hfinite : AllFinite tightness :=
      allFinite_of_optional? allFinite_standard_tightness hfields htightness
    exact hfinite

instance : Measured (SamplingOptions Float) :=
  ⟨fun options => AllFinite options.threshold ∧ AllFinite options.fraction⟩

theorem allFinite_standard_sampling :
    AllFinite (SamplingOptions.standard : SamplingOptions Float) := by
  change Scalar.isFinite _ = true ∧ Scalar.isFinite _ = true
  decide

instance : Faithful (SamplingOptions Float) := by
  refine .of_fields (fun _ => rfl) (fun _ => rfl) ?_ ?_
  · rintro options ⟨hthreshold, hfraction⟩
    -- The count and the flag hold no doubles, so nothing is asked of them.
    have hsamples : read? (write options.samples : Tree Float) = some options.samples := rfl
    have hwaypoints : read? (write options.waypoints : Tree Float) = some options.waypoints := rfl
    simp [hsamples, hwaypoints, read?_write hthreshold, read?_write hfraction]
  · rintro options fields hfields h
    simp only [Option.bind_eq_bind, Option.bind_eq_some_iff, Option.pure_def,
      Option.some.injEq] at h
    obtain ⟨samples, -, waypoints, -, threshold, hthreshold, fraction, hfraction, rfl⟩ := h
    exact ⟨allFinite_of_optional? allFinite_standard_sampling.1 hfields hthreshold,
      allFinite_of_optional? allFinite_standard_sampling.2 hfields hfraction⟩

instance : Measured (Smoothing Float) where
  AllFinite
    | .spline options => AllFinite options
    | .bezier options => AllFinite options
    | .polyline => True

instance : Faithful (Smoothing Float) where
  read?_write {smoothing} hs := by
    cases smoothing with
    | spline options =>
      have hoptions : read? (write options : Tree Float) = some options := read?_write hs
      refine Option.bind_eq_some_iff.mpr ⟨_, rfl, ?_⟩
      simp [hoptions]
    | bezier options =>
      have hoptions : read? (write options : Tree Float) = some options := read?_write hs
      refine Option.bind_eq_some_iff.mpr ⟨_, rfl, ?_⟩
      simp [hoptions]
    | polyline => rfl
  allFinite_of_read? {t smoothing} ht h := by
    obtain ⟨v, hv, h⟩ := Option.bind_eq_some_iff.mp h
    split at h
    · obtain ⟨options, hoptions, h⟩ := Option.bind_eq_some_iff.mp h
      cases h
      exact (allFinite_of_read? (ht.of_variant? hv) hoptions : AllFinite options)
    · obtain ⟨options, hoptions, h⟩ := Option.bind_eq_some_iff.mp h
      cases h
      exact (allFinite_of_read? (ht.of_variant? hv) hoptions : AllFinite options)
    · cases h
      trivial
    · cases h
      trivial
    · contradiction

instance : Measured (Style Float) :=
  ⟨fun style => AllFinite style.color ∧ AllFinite style.width ∧ AllFinite style.dash⟩

instance : Faithful (Style Float) := by
  refine .of_fields (fun _ => rfl) (fun _ => rfl) ?_ ?_
  · rintro style ⟨hcolor, hwidth, hdash⟩
    simp [read?_write hcolor, read?_write hwidth, read?_write hdash]
  · rintro style fields hfields h
    simp only [Option.bind_eq_bind, Option.bind_eq_some_iff, Option.pure_def,
      Option.some.injEq] at h
    obtain ⟨color, hcolor, width, hwidth, dash, hdash, rfl⟩ := h
    have hmissing : AllFinite (none : Option (List Float)) := fun _ h => nomatch h
    exact ⟨allFinite_of_required? hfields hcolor, allFinite_of_required? hfields hwidth,
      allFinite_of_optional? hmissing hfields hdash⟩

instance : Measured (Appearance Float) :=
  ⟨fun appearance => AllFinite appearance.style ∧ AllFinite appearance.smoothing⟩

instance : Faithful (Appearance Float) :=
  .of_two (fun _ => rfl) (fun _ => rfl) (by decide) (fun _ => rfl) fun _ _ => .rfl

end Drawing

end Stored

/-- Reads a value from a tree and stores it again. -/
def restore? (τ : Type) [Stored Float τ] (t : Tree Float) : Option (Tree Float) :=
  (read? t : Option τ).map write

/-- What a type needs for its values to survive being stored. -/
structure SurvivesStorage (τ : Type) [Stored Float τ] [Measured τ] : Prop where
  read?_write : ∀ v : τ, AllFinite v → read? (write v : Tree Float) = some v
  /-- Storing a value again gives a form that does not change any more, whatever well-formed tree
  the value was read from. -/
  restore?_restore? : ∀ t form : Tree Float, t.WellFormed → restore? τ t = some form →
    restore? τ form = some form

theorem Faithful.survivesStorage {τ : Type} [Stored Float τ] [Measured τ] [Faithful τ] :
    SurvivesStorage τ where
  read?_write v hv := Faithful.read?_write hv
  restore?_restore? t form ht h := by
    obtain ⟨v, hv, rfl⟩ := Option.map_eq_some_iff.mp h
    rw [restore?, Faithful.read?_write (allFinite_of_read? ht hv), Option.map_some]

/-- A value of any type that can be stored is read back as it was if its doubles are finite, and
what is read from a well-formed tree is stored in a form of its own that is kept from then on. -/
theorem stored_survive :
    SurvivesStorage (Point Float) ∧ SurvivesStorage (Offset Float) ∧ SurvivesStorage Axis ∧
      SurvivesStorage (Cubic Float) ∧ SurvivesStorage (Spline Float) ∧
      SurvivesStorage (PlaneSpline Float) ∧ SurvivesStorage (Bezier Float) ∧
      SurvivesStorage (Handles Float) ∧ SurvivesStorage (Stroke Float) ∧
      SurvivesStorage (Ink Float) ∧ SurvivesStorage (Command Float) ∧
      SurvivesStorage (Path Float) ∧ SurvivesStorage (CurveOptions Float) ∧
      SurvivesStorage (SamplingOptions Float) ∧ SurvivesStorage (Smoothing Float) ∧
      SurvivesStorage (Style Float) ∧ SurvivesStorage (Appearance Float) := by
  refine ⟨?_, ?_, ?_, ?_, ?_, ?_, ?_, ?_, ?_, ?_, ?_, ?_, ?_, ?_, ?_, ?_, ?_⟩ <;>
    exact Faithful.survivesStorage

/-- A list of coordinates is read as a point and stored as a record. -/
example : restore? (Point Float) (.list [.natural 1, .number 2]) =
    some (.record [("x", .number 1), ("y", .number 2)]) := rfl

/-- A double that is not finite is lost. -/
example : (read? (write (⟨1, 1 / 0⟩ : Point Float) : Tree Float) : Option (Point Float)) = none :=
  rfl

end PenStroke
