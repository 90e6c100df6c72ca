import PenStroke.Proofs.Cubic
import PenStroke.Proofs.Finite
import PenStroke.Proofs.KnotSlopes

/-! The natural spline through a list of values: the computed cubics have its properties, and no
others have. -/
namespace PenStroke.Spline

variable {K : Type} [Field K] [LinearOrder K] [FloorRing K]

/-- Where one cubic ends and the next begins, slope and bend agree. -/
def Smooth (s t : Cubic K) : Prop := s.slope 1 = t.slope 0 ∧ s.bend 1 = t.bend 0

/-- The cubics run from each value to the next, join smoothly and do not bend at either end. -/
structure NaturalThrough (values : List K) (segments : List (Cubic K)) : Prop where
  starts : segments.map (·.eval 0) = values.dropLast
  ends : segments.map (·.eval 1) = values.tail
  smooth : segments.IsChain Smooth
  straight_first : ∀ s ∈ segments.head?, s.bend 0 = 0
  straight_last : ∀ s ∈ segments.getLast?, s.bend 1 = 0

theorem hermiteSegments_cons (u v a b : K) (vs ds : List K) :
    hermiteSegments (u :: v :: vs) (a :: b :: ds) =
      .ofHermite u v a b :: hermiteSegments (v :: vs) (b :: ds) := rfl

@[simp] theorem hermiteSegments_singleton (u : K) (ds : List K) :
    hermiteSegments [u] ds = [] := by
  cases ds <;> rfl

section Hermite
variable {u v a b : K} {vs ds : List K}

theorem hermiteSegments_starts (h : ds.length = vs.length) :
    (hermiteSegments (u :: v :: vs) (a :: b :: ds)).map (·.eval 0) = (u :: v :: vs).dropLast := by
  induction vs generalizing u v a b ds with
  | nil => simp [hermiteSegments_cons]
  | cons w vs ih =>
    cases ds with
    | nil => simp at h
    | cons c ds =>
      rw [hermiteSegments_cons, List.map_cons, ih (by simpa using h)]
      simp

theorem hermiteSegments_ends (h : ds.length = vs.length) :
    (hermiteSegments (u :: v :: vs) (a :: b :: ds)).map (·.eval 1) = v :: vs := by
  induction vs generalizing u v a b ds with
  | nil => simp [hermiteSegments_cons]
  | cons w vs ih =>
    cases ds with
    | nil => simp at h
    | cons c ds =>
      rw [hermiteSegments_cons, List.map_cons, ih (by simpa using h)]
      simp

variable [IsStrictOrderedRing K]

/-- Hermite cubics with shared slopes have the same bend at a knot exactly if its row holds. -/
theorem smooth_ofHermite_iff (u v w a b c : K) :
    Smooth (.ofHermite u v a b) (.ofHermite v w b c) ↔ a + 4 * b + c = 3 * (w - u) := by
  simp only [Smooth, Cubic.ofHermite_slope_one, Cubic.ofHermite_slope_zero, true_and,
    Cubic.ofHermite_bend_one, Cubic.ofHermite_bend_zero]
  constructor <;> intro h <;> linarith

/-- The rows after the first say that the cubics join smoothly and do not bend at the end. -/
theorem laterRows_iff_smooth (h : ds.length = vs.length) :
    LaterRows (u :: v :: vs) (a :: b :: ds) ↔
      (hermiteSegments (u :: v :: vs) (a :: b :: ds)).IsChain Smooth ∧
        ∀ s ∈ (hermiteSegments (u :: v :: vs) (a :: b :: ds)).getLast?, s.bend 1 = 0 := by
  induction vs generalizing u v a b ds with
  | nil =>
    obtain rfl := List.length_eq_zero_iff.mp h
    simp only [LaterRows, hermiteSegments_cons, hermiteSegments_singleton, List.isChain_singleton,
      List.getLast?_singleton, Option.mem_some_iff, forall_eq', true_and,
      Cubic.ofHermite_bend_one]
    constructor <;> intro h <;> linarith
  | cons w vs ih =>
    cases ds with
    | nil => simp at h
    | cons c ds =>
      rw [LaterRows, ih (by simpa using h), hermiteSegments_cons u v, hermiteSegments_cons v w,
        List.isChain_cons_cons, List.getLast?_cons_cons, smooth_ofHermite_iff, and_assoc]

/-- Hermite cubics are natural exactly if their slopes solve the system. -/
theorem naturalThrough_hermite_iff (h : ds.length = vs.length) :
    NaturalThrough (u :: v :: vs) (hermiteSegments (u :: v :: vs) (a :: b :: ds)) ↔
      SlopeSystem (u :: v :: vs) (a :: b :: ds) := by
  have hfirst : (Cubic.ofHermite u v a b).bend 0 = 0 ↔ 2 * a + b = 3 * (v - u) := by
    rw [Cubic.ofHermite_bend_zero]
    constructor <;> intro h <;> linarith
  rw [SlopeSystem, laterRows_iff_smooth h, ← hfirst]
  constructor
  · intro hn
    exact ⟨hn.straight_first _ rfl, hn.smooth, hn.straight_last⟩
  · rintro ⟨hf, hs, hl⟩
    refine ⟨hermiteSegments_starts h, hermiteSegments_ends h, hs, ?_, hl⟩
    rintro s ⟨rfl⟩
    exact hf

end Hermite

/-- Cubics that run through the values with slopes that agree are Hermite cubics. -/
theorem eq_hermiteSegments {u v : K} {vs : List K} {segments : List (Cubic K)}
    (hs : segments.map (·.eval 0) = (u :: v :: vs).dropLast)
    (he : segments.map (·.eval 1) = v :: vs)
    (hc : segments.IsChain fun s t => s.slope 1 = t.slope 0) :
    ∃ a b ds, ds.length = vs.length ∧
      segments = hermiteSegments (u :: v :: vs) (a :: b :: ds) := by
  induction vs generalizing u v segments with
  | nil =>
    obtain ⟨s, rest, rfl, rfl, hnil⟩ := List.map_eq_cons_iff.mp hs
    obtain rfl := List.map_eq_nil_iff.mp hnil
    obtain rfl : s.eval 1 = v := by simpa using he
    exact ⟨s.slope 0, s.slope 1, [], rfl, by
      rw [hermiteSegments_cons, hermiteSegments_singleton, ← s.eq_ofHermite]⟩
  | cons w vs ih =>
    obtain ⟨s, tail, rfl, rfl, htail⟩ := List.map_eq_cons_iff.mp hs
    rw [List.map_cons, List.cons.injEq] at he
    obtain ⟨rfl, he⟩ := he
    obtain ⟨b, c, ds, hl, rfl⟩ := ih htail he hc.tail
    obtain rfl : s.slope 1 = b := by
      rw [hermiteSegments_cons, List.isChain_cons_cons] at hc
      simpa using hc.1
    refine ⟨s.slope 0, s.slope 1, c :: ds, by simp [hl], ?_⟩
    rw [hermiteSegments_cons (s.eval 0), ← s.eq_ofHermite]

variable [IsStrictOrderedRing K]

/-- Through two values or more there is exactly one natural spline, and it is the one computed. -/
theorem natural?_unique (values : List K) (h : 2 ≤ values.length) :
    ∃ segments, natural? values = some ⟨segments⟩ ∧ segments.length = values.length - 1 ∧
      NaturalThrough values segments ∧
      ∀ other, NaturalThrough values other → other = segments := by
  obtain ⟨u, v, vs, rfl⟩ := exists_cons_cons h
  have hl : (backSubstitute (eliminate (u :: v :: vs))).length = vs.length + 2 := by
    simp [eliminate]
  obtain ⟨a, b, ds, hd⟩ := exists_cons_cons (hl.symm ▸ Nat.le_add_left 2 _)
  have hds : ds.length = vs.length := by simpa [hd] using hl
  refine ⟨hermiteSegments (u :: v :: vs) (a :: b :: ds), ?_, ?_, ?_, ?_⟩
  · simp [natural?, knotSlopes?_eq, hd]
  · have he := hermiteSegments_ends (u := u) (v := v) (a := a) (b := b) hds
    simpa using congrArg List.length he
  · rw [naturalThrough_hermite_iff hds, slopeSystem_iff, hd]
  · intro other hn
    have hc : other.IsChain fun s t => s.slope 1 = t.slope 0 := hn.smooth.imp fun _ _ h => h.1
    obtain ⟨a', b', ds', hds', rfl⟩ := eq_hermiteSegments hn.starts hn.ends hc
    rw [naturalThrough_hermite_iff hds', slopeSystem_iff, hd] at hn
    rw [hn]

/-- Up to a peak and down again. -/
theorem natural?_unique_peak : 2 ≤ ([0, 1, 0] : List ℚ).length ∧
    ∃ segments, natural? ([0, 1, 0] : List ℚ) = some ⟨segments⟩ ∧ segments.length = 2 ∧
      NaturalThrough [0, 1, 0] segments ∧
      ∀ other, NaturalThrough [0, 1, 0] other → other = segments :=
  ⟨by decide, natural?_unique [0, 1, 0] (by decide)⟩

end PenStroke.Spline
