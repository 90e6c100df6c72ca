import PenStroke.Proofs.Spellings
import PenStroke.Scalar.Binary64
import PenStroke.Stored.Drawing

/-! Values of every type are read from all the trees that spell them. Where a field is missing,
only options have a standard value in its place, and a style in a record has no dash pattern. -/
namespace PenStroke

variable {α : Type}

section Plain

instance : Spelled α Bool := ⟨fun t b => t = .flag b⟩

instance : ReadAsSpelled α Bool where
  read?_of_spells h := by
    obtain rfl := h
    rfl
  spells_of_read? {t b} ht h := by
    cases ht with
    | flag =>
      cases h
      rfl
    | _ => contradiction

instance : Spelled α Nat := ⟨fun t n => t = .natural n⟩

instance : ReadAsSpelled α Nat where
  read?_of_spells h := by
    obtain rfl := h
    rfl
  spells_of_read? {t n} ht h := by
    cases ht with
    | natural =>
      cases h
      rfl
    | _ => contradiction

instance [Scalar α] : Spelled α α :=
  ⟨fun t x => (∃ n : ℕ, t = .natural n ∧ (n : α) = x) ∨ t = .number x⟩

instance [Scalar α] : ReadAsSpelled α α where
  read?_of_spells h := by
    obtain ⟨n, rfl, rfl⟩ | rfl := h <;> rfl
  spells_of_read? {t x} ht h := by
    cases ht with
    | natural n =>
      cases h
      exact .inl ⟨n, rfl, rfl⟩
    | number =>
      cases h
      exact .inr rfl
    | _ => contradiction

variable {τ : Type} [Stored α τ] [Spelled α τ] [ReadAsSpelled α τ]

instance : Spelled α (List τ) :=
  ⟨fun t vs => ∃ items, t = .list items ∧ List.Forall₂ Spells items vs⟩

theorem mapM_read?_of_forall₂ {items : List (Tree α)} {vs : List τ}
    (h : List.Forall₂ Spells items vs) : items.mapM read? = some vs := by
  induction h with
  | nil => rfl
  | cons hv _ ih =>
    rw [List.mapM_cons, read?_of_spells hv, ih]
    rfl

theorem forall₂_of_mapM_read? {items : List (Tree α)} {vs : List τ}
    (hitems : ∀ t ∈ items, t.DistinctNames) (h : items.mapM read? = some vs) :
    List.Forall₂ Spells items vs := by
  induction items generalizing vs with
  | nil =>
    cases h
    exact .nil
  | cons t items ih =>
    rw [List.forall_mem_cons] at hitems
    rw [List.mapM_cons] at h
    obtain ⟨v, hv, h⟩ := Option.bind_eq_some_iff.mp h
    obtain ⟨rest, hrest, h⟩ := Option.bind_eq_some_iff.mp h
    cases h
    exact .cons (spells_of_read? hitems.1 hv) (ih hitems.2 hrest)

instance : ReadAsSpelled α (List τ) where
  read?_of_spells h := by
    obtain ⟨items, rfl, hitems⟩ := h
    exact mapM_read?_of_forall₂ hitems
  spells_of_read? {t vs} ht h := by
    cases ht with
    | list hitems => exact ⟨_, rfl, forall₂_of_mapM_read? hitems h⟩
    | _ => contradiction

instance : Spelled α (Option (List τ)) :=
  ⟨fun t v => t = .null ∧ v = none ∨ ∃ vs, v = some vs ∧ Spells t vs⟩

/-- The tree of a list is never the null that stands for an absent one. -/
instance : ReadAsSpelled α (Option (List τ)) where
  read?_of_spells h := by
    obtain ⟨rfl, rfl⟩ | ⟨vs, rfl, items, rfl, hitems⟩ := h
    · rfl
    · change (items.mapM read?).map some = _
      rw [mapM_read?_of_forall₂ hitems, Option.map_some]
  spells_of_read? {t v} ht h := by
    cases ht with
    | null =>
      cases h
      exact .inl ⟨rfl, rfl⟩
    | list hitems =>
      obtain ⟨vs, hvs, rfl⟩ := Option.map_eq_some_iff.mp h
      exact .inr ⟨vs, rfl, _, rfl, forall₂_of_mapM_read? hitems hvs⟩
    | _ => contradiction

end Plain

variable [Scalar α]

section Curves

instance : Compound α (Point α) where
  names := ["x", "y"]
  fields p := [.required "x" p.x, .required "y" p.y]
  mayEnd := false

instance : ReadByFields α (Point α) :=
  .of_two (fun _ => rfl) (fun _ => rfl) (fun _ => rfl) (fun _ _ => rfl) fun _ _ => rfl

instance : Compound α (Offset α) where
  names := ["x", "y"]
  fields v := [.required "x" v.x, .required "y" v.y]
  mayEnd := false

instance : ReadByFields α (Offset α) :=
  .of_two (fun _ => rfl) (fun _ => rfl) (fun _ => rfl) (fun _ _ => rfl) fun _ _ => rfl

instance : Compound α (Cubic α) where
  names := ["a", "b", "c", "d"]
  fields s := [.required "a" s.a, .required "b" s.b, .required "c" s.c, .required "d" s.d]
  mayEnd := false

instance : ReadByFields α (Cubic α) := by
  refine .of_reader (fun _ => rfl) fun entries s => ?_
  simp only [Option.bind_eq_bind, Option.bind_eq_some_iff, Option.pure_def, Option.some.injEq,
    Field.required?_eq_some_iff]
  constructor
  · rintro ⟨a, ha, b, hb, c, hc, d, hd, rfl⟩
    exact ⟨ha, hb, hc, hd⟩
  · rintro ⟨ha, hb, hc, hd⟩
    exact ⟨_, ha, _, hb, _, hc, _, hd, rfl⟩

instance : Spelled α (Spline α) := ⟨fun t s => Spells t s.segments⟩

instance : ReadAsSpelled α (Spline α) :=
  .of_map (fun _ => rfl) (fun _ _ => .rfl) (fun _ => rfl) fun _ => rfl

instance : Compound α (PlaneSpline α) where
  names := ["x", "y"]
  fields s := [.required "x" s.x, .required "y" s.y]
  mayEnd := false

instance : ReadByFields α (PlaneSpline α) :=
  .of_two (fun _ => rfl) (fun _ => rfl) (fun _ => rfl) (fun _ _ => rfl) fun _ _ => rfl

instance : Compound α (Bezier α) where
  names := ["p0", "p1", "p2", "p3"]
  fields b := [.required "p0" b.start, .required "p1" b.first, .required "p2" b.second,
    .required "p3" b.finish]
  mayEnd := false

instance : ReadByFields α (Bezier α) := by
  refine .of_reader (fun _ => rfl) fun entries b => ?_
  simp only [Option.bind_eq_bind, Option.bind_eq_some_iff, Option.pure_def, Option.some.injEq,
    Field.required?_eq_some_iff]
  constructor
  · rintro ⟨start, hstart, first, hfirst, second, hsecond, finish, hfinish, rfl⟩
    exact ⟨hstart, hfirst, hsecond, hfinish⟩
  · rintro ⟨hstart, hfirst, hsecond, hfinish⟩
    exact ⟨_, hstart, _, hfirst, _, hsecond, _, hfinish, rfl⟩

instance : Compound α (Handles α) where
  names := ["first", "second"]
  fields h := [.required "first" h.incoming, .required "second" h.outgoing]
  mayEnd := false

instance : ReadByFields α (Handles α) :=
  .of_two (fun _ => rfl) (fun _ => rfl) (fun _ => rfl) (fun _ _ => rfl) fun _ _ => rfl

/-- A variant is spelled by its name over what it holds. One that holds nothing is spelled by its
name alone, or over null. -/
inductive Command.Spelling : Tree α → Command α → Prop where
  | moveTo {t : Tree α} {p : Point α} : Spells t p → Spelling (.ofVariant "MoveTo" t) (.moveTo p)
  | lineTo {t : Tree α} {p : Point α} : Spells t p → Spelling (.ofVariant "LineTo" t) (.lineTo p)
  | curveTo {t t' t'' : Tree α} {first second p : Point α} :
    Spells t first → Spells t' second → Spells t'' p →
      Spelling (.ofVariant "CurveTo" (.list [t, t', t''])) (.curveTo first second p)
  | stroke : Spelling (.text "Stroke") .stroke
  | strokeNull : Spelling (.ofVariant "Stroke" .null) .stroke

instance : Spelled α (Command α) := ⟨Command.Spelling⟩

instance : ReadAsSpelled α (Command α) where
  read?_of_spells h := by
    cases h with
    | moveTo hp | lineTo hp =>
      refine Option.bind_eq_some_iff.mpr ⟨_, rfl, ?_⟩
      simp [read?_of_spells hp]
    | curveTo hfirst hsecond hp =>
      refine Option.bind_eq_some_iff.mpr ⟨_, rfl, ?_⟩
      simp [read?_of_spells hfirst, read?_of_spells hsecond, read?_of_spells hp]
    | stroke | strokeNull => rfl
  spells_of_read? {t c} ht h := by
    obtain ⟨v, hv, hc⟩ := Option.bind_eq_some_iff.mp h
    -- The stroke is read from two forms of its variant, and other variants from one.
    split at hc
    · obtain ⟨p, hp, hc⟩ := Option.bind_eq_some_iff.mp hc
      cases hc
      obtain ⟨rfl, hcontent⟩ := ht.of_variant? hv
      exact .moveTo (spells_of_read? hcontent hp)
    · obtain ⟨p, hp, hc⟩ := Option.bind_eq_some_iff.mp hc
      cases hc
      obtain ⟨rfl, hcontent⟩ := ht.of_variant? hv
      exact .lineTo (spells_of_read? hcontent hp)
    · simp only [Option.bind_eq_bind, Option.bind_eq_some_iff, Option.pure_def,
        Option.some.injEq] at hc
      obtain ⟨first, hfirst, second, hsecond, p, hp, rfl⟩ := hc
      obtain ⟨rfl, hcontent⟩ := ht.of_variant? hv
      cases hcontent with
      | list hitems =>
        exact .curveTo (spells_of_read? (hitems _ (by simp)) hfirst)
          (spells_of_read? (hitems _ (by simp)) hsecond)
          (spells_of_read? (hitems _ (by simp)) hp)
    · cases hc
      obtain rfl := Tree.eq_text_of_variant? hv
      exact .stroke
    · cases hc
      obtain ⟨rfl, -⟩ := ht.of_variant? hv
      exact .strokeNull
    · contradiction

instance : Spelled α (Path α) := ⟨fun t path => Spells t path.toList⟩

instance : ReadAsSpelled α (Path α) :=
  .of_map (fun _ => rfl) (fun _ _ => .rfl) (fun _ => rfl) fun _ => rfl

end Curves

section Drawing

instance : Spelled α (Stroke α) := ⟨fun t stroke => Spells t stroke.points⟩

instance : ReadAsSpelled α (Stroke α) :=
  .of_map (fun _ => rfl) (fun _ _ => .rfl) (fun _ => rfl) fun _ => rfl

instance : Spelled α (Ink α) := ⟨fun t ink => Spells t ink.strokes⟩

instance : ReadAsSpelled α (Ink α) :=
  .of_map (fun _ => rfl) (fun _ _ => .rfl) (fun _ => rfl) fun _ => rfl

instance : Compound α (CurveOptions α) where
  names := ["tightness"]
  fields options :=
    [.defaulted "tightness" options.tightness CurveOptions.standard.tightness]
  mayEnd := true

instance : ReadByFields α (CurveOptions α) := by
  refine .of_reader (fun _ => rfl) fun entries options => ?_
  simp only [Option.bind_eq_bind, Option.bind_eq_some_iff, Option.pure_def, Option.some.injEq,
    Field.optional?_eq_some_iff]
  constructor
  · rintro ⟨tightness, htightness, rfl⟩
    exact htightness
  · intro htightness
    exact ⟨_, htightness, rfl⟩

instance : Compound α (SamplingOptions α) where
  names := ["sample_count", "suppress_corners", "corner_threshold", "corner_fraction"]
  fields options :=
    let missing : SamplingOptions α := .standard
    [.defaulted "sample_count" options.samples missing.samples,
      .defaulted "suppress_corners" options.waypoints missing.waypoints,
      .defaulted "corner_threshold" options.threshold missing.threshold,
      .defaulted "corner_fraction" options.fraction missing.fraction]
  mayEnd := true

instance : ReadByFields α (SamplingOptions α) := by
  refine .of_reader (fun _ => rfl) fun entries options => ?_
  simp only [Option.bind_eq_bind, Option.bind_eq_some_iff, Option.pure_def, Option.some.injEq,
    Field.optional?_eq_some_iff]
  constructor
  · rintro ⟨samples, hsamples, waypoints, hwaypoints, threshold, hthreshold, fraction, hfraction,
      rfl⟩
    exact ⟨hsamples, hwaypoints, hthreshold, hfraction⟩
  · rintro ⟨hsamples, hwaypoints, hthreshold, hfraction⟩
    exact ⟨_, hsamples, _, hwaypoints, _, hthreshold, _, hfraction, rfl⟩

/-- A variant of smoothing is spelled as one of a command is. -/
inductive Smoothing.Spelling : Tree α → Smoothing α → Prop where
  | spline {t : Tree α} {options : SamplingOptions α} :
    Spells t options → Spelling (.ofVariant "Spline" t) (.spline options)
  | bezier {t : Tree α} {options : CurveOptions α} :
    Spells t options → Spelling (.ofVariant "Bezier" t) (.bezier options)
  | polyline : Spelling (.text "Polyline") .polyline
  | polylineNull : Spelling (.ofVariant "Polyline" .null) .polyline

instance : Spelled α (Smoothing α) := ⟨Smoothing.Spelling⟩

instance : ReadAsSpelled α (Smoothing α) where
  read?_of_spells h := by
    cases h with
    | spline hoptions | bezier hoptions =>
      refine Option.bind_eq_some_iff.mpr ⟨_, rfl, ?_⟩
      simp [read?_of_spells hoptions]
    | polyline | polylineNull => rfl
  spells_of_read? {t smoothing} ht h := by
    obtain ⟨v, hv, hs⟩ := Option.bind_eq_some_iff.mp h
    split at hs
    · obtain ⟨options, hoptions, hs⟩ := Option.bind_eq_some_iff.mp hs
      cases hs
      obtain ⟨rfl, hcontent⟩ := ht.of_variant? hv
      exact .spline (spells_of_read? hcontent hoptions)
    · obtain ⟨options, hoptions, hs⟩ := Option.bind_eq_some_iff.mp hs
      cases hs
      obtain ⟨rfl, hcontent⟩ := ht.of_variant? hv
      exact .bezier (spells_of_read? hcontent hoptions)
    · cases hs
      obtain rfl := Tree.eq_text_of_variant? hv
      exact .polyline
    · cases hs
      obtain ⟨rfl, -⟩ := ht.of_variant? hv
      exact .polylineNull
    · contradiction

/-- A list has the dash pattern always. -/
instance : Compound α (Style α) where
  names := ["color", "width", "dash"]
  fields style :=
    [.required "color" style.color, .required "width" style.width,
      .defaulted "dash" style.dash none]
  mayEnd := false

instance : ReadByFields α (Style α) := by
  refine .of_reader (fun _ => rfl) fun entries style => ?_
  simp only [Option.bind_eq_bind, Option.bind_eq_some_iff, Option.pure_def, Option.some.injEq,
    Field.required?_eq_some_iff, Field.optional?_eq_some_iff]
  constructor
  · rintro ⟨color, hcolor, width, hwidth, dash, hdash, rfl⟩
    exact ⟨hcolor, hwidth, hdash⟩
  · rintro ⟨hcolor, hwidth, hdash⟩
    exact ⟨_, hcolor, _, hwidth, _, hdash, rfl⟩

instance : Compound α (Appearance α) where
  names := ["style", "smoothing"]
  fields appearance :=
    [.required "style" appearance.style, .required "smoothing" appearance.smoothing]
  mayEnd := false

instance : ReadByFields α (Appearance α) :=
  .of_two (fun _ => rfl) (fun _ => rfl) (fun _ => rfl) (fun _ _ => rfl) fun _ _ => rfl

end Drawing

/-- Values of every type that holds compounds are read however their compounds are spelled, and a
missing field is an error but in options and for the dash pattern of a record. -/
theorem read_as_spelled (α : Type) [Scalar α] :
    (ReadAsSpelled α (Point α) ∧ ReadAsSpelled α (Offset α) ∧ ReadAsSpelled α (Cubic α) ∧
      ReadAsSpelled α (Spline α) ∧ ReadAsSpelled α (PlaneSpline α) ∧ ReadAsSpelled α (Bezier α) ∧
      ReadAsSpelled α (Handles α) ∧ ReadAsSpelled α (Stroke α) ∧ ReadAsSpelled α (Ink α) ∧
      ReadAsSpelled α (Command α) ∧ ReadAsSpelled α (Path α) ∧
      ReadAsSpelled α (CurveOptions α) ∧ ReadAsSpelled α (SamplingOptions α) ∧
      ReadAsSpelled α (Smoothing α) ∧ ReadAsSpelled α (Style α) ∧
      ReadAsSpelled α (Appearance α)) ∧
    MissingIsError α (Point α) ["x", "y"] 2 ∧
    MissingIsError α (Offset α) ["x", "y"] 2 ∧
    MissingIsError α (Cubic α) ["a", "b", "c", "d"] 4 ∧
    MissingIsError α (PlaneSpline α) ["x", "y"] 2 ∧
    MissingIsError α (Bezier α) ["p0", "p1", "p2", "p3"] 4 ∧
    MissingIsError α (Handles α) ["first", "second"] 2 ∧
    MissingIsError α (Style α) ["color", "width"] 3 ∧
    MissingIsError α (Appearance α) ["style", "smoothing"] 2 := by
  constructor
  · refine ⟨?_, ?_, ?_, ?_, ?_, ?_, ?_, ?_, ?_, ?_, ?_, ?_, ?_, ?_, ?_, ?_⟩ <;> infer_instance
  · refine ⟨?_, ?_, ?_, ?_, ?_, ?_, ?_, ?_⟩ <;>
      exact missingIsError (by simp [Compound.fields, Field.required, Field.defaulted]) rfl

/-- An appearance as a list, of a style in another order and of options that end early. -/
example :
    let style : Tree Float :=
      .record [("width", .natural 2), ("name", .text "thin"), ("color", .list [.number 0])]
    let smoothing : Tree Float := .ofVariant "Spline" (.list [.natural 11])
    read? (Tree.list [style, smoothing]) =
      some (⟨⟨[0], 2, none⟩, .spline ⟨11, true, 5, 1 / 5⟩⟩ : Appearance Float) := rfl

end PenStroke
