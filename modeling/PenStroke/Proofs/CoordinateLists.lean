import Mathlib.Algebra.Ring.Parity
import Mathlib.Data.List.Induction
import PenStroke.Ink.Stroke

/-! Coordinates read in pairs. Readers tell of a coordinate that they drop; one that accepts whole
pairs only leaves the reading to the one that drops, and never has it tell anything. -/
namespace PenStroke

namespace Attempt
variable {σ β γ : Type} {s s' : σ}

/-- An attempt that has come to a value goes on from what it left. -/
theorem run_bind_of_ok {attempt : Attempt σ β} {b : β} (h : attempt.run.run s = (.ok b, s'))
    (next : β → Attempt σ γ) : (attempt >>= next).run.run s = (next b).run.run s' := by
  rw [ExceptT.run_bind, StateT.run_bind, h]
  rfl

theorem run_bind_of_error {attempt : Attempt σ β} {fault : Fault}
    (h : attempt.run.run s = (.error fault, s')) (next : β → Attempt σ γ) :
    (attempt >>= next).run.run s = (.error fault, s') := by
  rw [ExceptT.run_bind, StateT.run_bind, h]
  rfl

/-- Attempts that leave everything as it is do so one after the other, up to the first fault. -/
theorem run_mapM_of_silent {f : β → Attempt σ γ} {g : β → Except Fault γ}
    (h : ∀ b, (f b).run.run s = (g b, s)) (bs : List β) :
    (bs.mapM f).run.run s = (bs.mapM g, s) := by
  induction bs with
  | nil => rfl
  | cons b bs ih =>
    rw [List.mapM_cons, List.mapM_cons]
    have hb := h b
    cases hg : g b with
    | error fault =>
      rw [hg] at hb
      exact run_bind_of_error hb _
    | ok c =>
      rw [hg] at hb
      rw [run_bind_of_ok hb]
      cases hgs : bs.mapM g with
      | error fault =>
        rw [hgs] at ih
        exact run_bind_of_error ih _
      | ok cs =>
        rw [hgs] at ih
        exact run_bind_of_ok ih _

end Attempt

variable {α : Type}

namespace Stroke

section Readers

/-- Coordinates read in pairs; one without a partner is dropped and told of. -/
def salvaging (coordinates : List α) : Attempt (Array (Notice α)) (Stroke α) := do
  if coordinates.length % 2 ≠ 0 then modify (·.push (.unpaired coordinates.length))
  pure ⟨pairs coordinates⟩

/-- Coordinates read in pairs; their number is checked before any is read. -/
def reading (coordinates : List α) : Attempt (Array (Notice α)) (Stroke α) := do
  if coordinates.length % 2 ≠ 0 then throw (.unpairedCoordinate coordinates.length)
  salvaging coordinates

variable (coordinates : List α) (notices : Array (Notice α))

theorem run_salvaging : (salvaging coordinates).run.run notices =
    (.ok (salvage coordinates).1, notices ++ (salvage coordinates).2.toArray) := by
  unfold salvaging salvage
  split_ifs with h
  · exact congrArg (Prod.mk _) Array.push_eq_append
  · rw [Array.append_empty]
    rfl

theorem run_reading :
    (reading coordinates).run.run notices = (ofCoordinates coordinates, notices) := by
  unfold reading ofCoordinates
  split_ifs with h
  · rfl
  · have hnone : (salvage coordinates).2 = [] := if_neg h
    have hsalvage := run_salvaging coordinates notices
    rw [hnone, Array.append_empty] at hsalvage
    exact hsalvage

end Readers

section Pairs

theorem pairs_flatMap (points : List (Point α)) :
    pairs (points.flatMap fun p => [p.x, p.y]) = points := by
  induction points with
  | nil => rfl
  | cons p points ih => rw [List.flatMap_cons, List.cons_append, List.cons_append, pairs,
      List.nil_append, ih]

theorem length_pairs (coordinates : List α) :
    (pairs coordinates).length = coordinates.length / 2 := by
  induction coordinates using List.twoStepInduction with
  | nil | singleton x => simp [pairs]
  | cons_cons x y rest ih _ =>
    rw [pairs, List.length_cons, List.length_cons, List.length_cons, ih]
    omega

theorem flatMap_pairs {coordinates : List α} (h : Even coordinates.length) :
    ((pairs coordinates).flatMap fun p => [p.x, p.y]) = coordinates := by
  induction coordinates using List.twoStepInduction with
  | nil => rfl
  | singleton x => simp at h
  | cons_cons x y rest ih _ =>
    have hrest : Even rest.length := by simpa [Nat.even_add_one] using h
    rw [pairs, List.flatMap_cons, ih hrest]
    rfl

theorem pairs_dropLast {coordinates : List α} (h : Odd coordinates.length) :
    pairs coordinates.dropLast = pairs coordinates := by
  induction coordinates using List.twoStepInduction with
  | nil | singleton x => rfl
  | cons_cons x y rest ih _ =>
    have hrest : Odd rest.length := by simpa [Nat.odd_add_one] using h
    have hne : rest ≠ [] := by
      rintro rfl
      simp at hrest
    rw [List.dropLast_cons_of_ne_nil (List.cons_ne_nil y rest), List.dropLast_cons_of_ne_nil hne,
      pairs, pairs, ih hrest]

/-- Each pair is two neighbours in the list. -/
theorem getElem?_pairs (coordinates : List α) (k : ℕ) : (pairs coordinates)[k]? = (do
    let x ← coordinates[2 * k]?
    let y ← coordinates[2 * k + 1]?
    pure ⟨x, y⟩) := by
  induction coordinates using List.twoStepInduction generalizing k with
  | nil => rfl
  | singleton x => cases k <;> simp [pairs]
  | cons_cons x y rest ih _ =>
    rcases k with _ | k
    · rfl
    · exact ih k

end Pairs

variable {coordinates : List α}

theorem ofCoordinates_of_even (h : Even coordinates.length) :
    ofCoordinates coordinates = .ok (salvage coordinates).1 := by
  rw [Nat.even_iff] at h
  exact if_neg (not_not_intro h)

theorem ofCoordinates_of_odd (h : Odd coordinates.length) :
    ofCoordinates coordinates = .error (.unpairedCoordinate coordinates.length) := by
  rw [← Nat.not_even_iff_odd, Nat.even_iff] at h
  exact if_pos h

theorem exists_ofCoordinates_eq_ok_iff :
    (∃ stroke, ofCoordinates coordinates = .ok stroke) ↔ Even coordinates.length := by
  constructor
  · rintro ⟨stroke, hstroke⟩
    by_contra h
    rw [ofCoordinates_of_odd (Nat.not_even_iff_odd.mp h)] at hstroke
    contradiction
  · exact fun h => ⟨_, ofCoordinates_of_even h⟩

/-- A stroke of the pairs in a list: its points have the entries in even places as their horizontal
coordinates, and those in odd places as their vertical ones. -/
structure HoldsPairs (stroke : Stroke α) (coordinates : List α) : Prop where
  size : stroke.size = coordinates.length / 2
  onAxis : ∀ axis, (stroke.onAxis axis).length = stroke.size
  horizontal : ∀ k < stroke.size, (stroke.onAxis .horizontal)[k]? = coordinates[2 * k]?
  vertical : ∀ k < stroke.size, (stroke.onAxis .vertical)[k]? = coordinates[2 * k + 1]?
  flatten : Even coordinates.length → stroke.flatten = coordinates

theorem holdsPairs_salvage (coordinates : List α) :
    (salvage coordinates).1.HoldsPairs coordinates := by
  have hpair (k : ℕ) (hk : k < (salvage coordinates).1.size) :
      ∃ x y, coordinates[2 * k]? = some x ∧ coordinates[2 * k + 1]? = some y ∧
        (pairs coordinates)[k]? = some ⟨x, y⟩ := by
    have hlength : k < coordinates.length / 2 := length_pairs coordinates ▸ hk
    have hx : 2 * k < coordinates.length := by omega
    have hy : 2 * k + 1 < coordinates.length := by omega
    refine ⟨coordinates[2 * k], coordinates[2 * k + 1], List.getElem?_eq_getElem hx,
      List.getElem?_eq_getElem hy, ?_⟩
    simp [getElem?_pairs, hx, hy]
  constructor
  case size => exact length_pairs coordinates
  case onAxis => exact fun axis => List.length_map _
  case horizontal =>
    intro k hk
    obtain ⟨x, y, hx, -, hp⟩ := hpair k hk
    rw [hx, Stroke.onAxis, List.getElem?_map, salvage, hp]
    rfl
  case vertical =>
    intro k hk
    obtain ⟨x, y, -, hy, hp⟩ := hpair k hk
    rw [hy, Stroke.onAxis, List.getElem?_map, salvage, hp]
    rfl
  case flatten => exact flatMap_pairs

/-- How a list of coordinates is read as a stroke. A list of even length is accepted; of one of odd
length the last coordinate is a fault to one reader, and dropped by the other, which tells so. -/
structure ReadInPairs (coordinates : List α) : Prop where
  accepted : (∃ stroke, ofCoordinates coordinates = .ok stroke) ↔ Even coordinates.length
  whole : Even coordinates.length → ofCoordinates coordinates = .ok (salvage coordinates).1
  refused : Odd coordinates.length →
    ofCoordinates coordinates = .error (.unpairedCoordinate coordinates.length)
  salvaged : (salvage coordinates).1.HoldsPairs coordinates
  dropped : Odd coordinates.length → (salvage coordinates).1 = (salvage coordinates.dropLast).1
  told : ∀ notices, (salvaging coordinates).run.run notices = (.ok (salvage coordinates).1,
    notices ++ if Odd coordinates.length then #[.unpaired coordinates.length] else #[])
  silent : ∀ notices, (reading coordinates).run.run notices = (ofCoordinates coordinates, notices)

theorem salvage_told (coordinates : List α) : (salvage coordinates).2 =
    if Odd coordinates.length then [.unpaired coordinates.length] else [] := by
  simp only [salvage, ← Nat.not_even_iff_odd, Nat.even_iff, ne_eq]

theorem readInPairs (coordinates : List α) : ReadInPairs coordinates where
  accepted := exists_ofCoordinates_eq_ok_iff
  whole := ofCoordinates_of_even
  refused := ofCoordinates_of_odd
  salvaged := holdsPairs_salvage coordinates
  dropped h := congrArg Stroke.mk (pairs_dropLast h).symm
  told notices := by
    rw [run_salvaging, salvage_told]
    split_ifs <;> rfl
  silent := run_reading coordinates

end Stroke

namespace Ink

section Readers

/-- Reads a list of coordinates for each stroke, as `Stroke.salvaging` does. -/
def salvaging (entries : List (List α)) : Attempt (Array (Notice α)) (Ink α) := do
  pure ⟨← entries.mapM Stroke.salvaging⟩

/-- Reads a list of coordinates for each stroke, as `Stroke.reading` does. -/
def reading (entries : List (List α)) : Attempt (Array (Notice α)) (Ink α) := do
  pure ⟨← entries.mapM Stroke.reading⟩

variable (entries : List (List α)) (notices : Array (Notice α))

theorem run_mapM_salvaging : (entries.mapM Stroke.salvaging).run.run notices =
    (.ok (salvage entries).1.strokes, notices ++ (salvage entries).2.toArray) := by
  induction entries generalizing notices with
  | nil => exact congrArg (Prod.mk _) Array.append_empty.symm
  | cons c entries ih =>
    have htold : notices ++ (Stroke.salvage c).2.toArray ++ (salvage entries).2.toArray =
        notices ++ (salvage (c :: entries)).2.toArray := by
      rw [Array.append_assoc]
      simp [salvage]
    rw [List.mapM_cons, Attempt.run_bind_of_ok (Stroke.run_salvaging c notices),
      Attempt.run_bind_of_ok (ih _), htold]
    rfl

theorem run_salvaging : (salvaging entries).run.run notices =
    (.ok (salvage entries).1, notices ++ (salvage entries).2.toArray) :=
  Attempt.run_bind_of_ok (run_mapM_salvaging entries notices) _

theorem run_reading : (reading entries).run.run notices = (ofCoordinates entries, notices) := by
  have h := Attempt.run_mapM_of_silent (fun c => Stroke.run_reading c notices) entries
  unfold reading ofCoordinates
  cases hread : entries.mapM Stroke.ofCoordinates with
  | error fault =>
    rw [hread] at h
    exact Attempt.run_bind_of_error h _
  | ok strokes =>
    rw [hread] at h
    exact Attempt.run_bind_of_ok h _

end Readers

variable {entries before after : List (List α)} {c : List α}

theorem mapM_ofCoordinates_of_even (h : ∀ e ∈ entries, Even e.length) :
    entries.mapM Stroke.ofCoordinates = .ok (entries.map fun e => (Stroke.salvage e).1) := by
  induction entries with
  | nil => rfl
  | cons e entries ih =>
    rw [List.forall_mem_cons] at h
    rw [List.mapM_cons, Stroke.ofCoordinates_of_even h.1, ih h.2]
    rfl

theorem ofCoordinates_of_even (h : ∀ e ∈ entries, Even e.length) :
    ofCoordinates entries = .ok (salvage entries).1 := by
  rw [ofCoordinates, mapM_ofCoordinates_of_even h, salvage, List.map_map]
  rfl

/-- The first list of odd length is the fault, whatever comes after it. -/
theorem ofCoordinates_of_odd (hbefore : ∀ e ∈ before, Even e.length) (hc : Odd c.length) :
    ofCoordinates (before ++ c :: after) = .error (.unpairedCoordinate c.length) := by
  rw [ofCoordinates, List.mapM_append, mapM_ofCoordinates_of_even hbefore, List.mapM_cons,
    Stroke.ofCoordinates_of_odd hc]
  rfl

/-- If not all lists have even length, there is a first one that has not. -/
theorem exists_first_odd (h : ¬ ∀ e ∈ entries, Even e.length) : ∃ before c after,
    entries = before ++ c :: after ∧ (∀ e ∈ before, Even e.length) ∧ Odd c.length := by
  induction entries with
  | nil => simp at h
  | cons e entries ih =>
    by_cases he : Even e.length
    · have hrest : ¬ ∀ e ∈ entries, Even e.length := by
        rw [List.forall_mem_cons] at h
        exact fun hall => h ⟨he, hall⟩
      obtain ⟨before, c, after, rfl, hbefore, hc⟩ := ih hrest
      exact ⟨e :: before, c, after, rfl, List.forall_mem_cons.mpr ⟨he, hbefore⟩, hc⟩
    · exact ⟨[], e, entries, rfl, by simp, Nat.not_even_iff_odd.mp he⟩

theorem exists_ofCoordinates_eq_ok_iff :
    (∃ ink, ofCoordinates entries = .ok ink) ↔ ∀ e ∈ entries, Even e.length := by
  constructor
  · rintro ⟨ink, hink⟩
    by_contra h
    obtain ⟨before, c, after, rfl, hbefore, hc⟩ := exists_first_odd h
    rw [ofCoordinates_of_odd hbefore hc] at hink
    contradiction
  · exact fun h => ⟨_, ofCoordinates_of_even h⟩

theorem salvage_told (entries : List (List α)) : (salvage entries).2 =
    (entries.filter fun e => Odd e.length).map fun e => .unpaired e.length := by
  induction entries with
  | nil => rfl
  | cons e entries ih =>
    have hcons : (salvage (e :: entries)).2 = (Stroke.salvage e).2 ++ (salvage entries).2 := rfl
    rw [hcons, ih, Stroke.salvage_told]
    by_cases h : Odd e.length <;> simp [h]

/-- How lists of coordinates are read as strokes. Lists of even length are accepted; the first one
of odd length is the fault to one reader, and the other keeps a stroke for every list and tells of
each odd one in order. -/
structure ReadInPairs (entries : List (List α)) : Prop where
  accepted : (∃ ink, ofCoordinates entries = .ok ink) ↔ ∀ e ∈ entries, Even e.length
  whole : (∀ e ∈ entries, Even e.length) → ofCoordinates entries = .ok (salvage entries).1
  refused : ∀ before c after, entries = before ++ c :: after → (∀ e ∈ before, Even e.length) →
    Odd c.length → ofCoordinates entries = .error (.unpairedCoordinate c.length)
  kept : (salvage entries).1.strokes = entries.map fun e => (Stroke.salvage e).1
  told : ∀ notices, (salvaging entries).run.run notices = (.ok (salvage entries).1,
    notices ++ ((entries.filter fun e => Odd e.length).map fun e => .unpaired e.length).toArray)
  level : ∀ notice ∈ (salvage entries).2, notice.level = .debug
  silent : ∀ notices, (reading entries).run.run notices = (ofCoordinates entries, notices)

theorem readInPairs (entries : List (List α)) : ReadInPairs entries where
  accepted := exists_ofCoordinates_eq_ok_iff
  whole := ofCoordinates_of_even
  refused := by
    rintro before c after rfl
    exact ofCoordinates_of_odd
  kept := List.map_map
  told notices := by rw [run_salvaging, salvage_told]
  level := by
    rw [salvage_told]
    intro notice h
    obtain ⟨e, -, rfl⟩ := List.mem_map.mp h
    rfl
  silent := run_reading entries

/-- Coordinates are read back from points as they were, by lists of any length, for single strokes
and for whole drawings. -/
theorem coordinates_read_in_pairs :
    (∀ points : List (Point α), Stroke.ofCoordinates (Stroke.flatten ⟨points⟩) = .ok ⟨points⟩) ∧
    (∀ coordinates : List α, Stroke.ReadInPairs coordinates) ∧
    ∀ entries : List (List α), ReadInPairs entries := by
  refine ⟨fun points => ?_, Stroke.readInPairs, readInPairs⟩
  have heven : Even (Stroke.flatten ⟨points⟩).length := by
    simp [Stroke.flatten, List.map_const']
  rw [Stroke.ofCoordinates_of_even heven]
  exact congrArg (Except.ok ∘ Stroke.mk) (Stroke.pairs_flatMap points)

end Ink

end PenStroke
