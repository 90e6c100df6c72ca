import PenStroke.Proofs.AffineMaps

/-! The pivots of elimination, by which it divides. Those of the inner knots lie between 7/2 and
15/4 and the last one between 3/2 and 7/4, for any number of knots and whatever the values are. The
coefficient that each of them takes out of the next row is one, so no exchange of rows would find a
larger pivot. -/
namespace PenStroke.Spline

section Rows
variable {α : Type} [Scalar α]

/-- There is no slope below the last one for its factor to multiply. -/
theorem backSubstitute_concat_factor (rows : List (Row α)) (last : Row α) (factor : α) :
    backSubstitute (rows ++ [{ last with factor }]) = backSubstitute (rows ++ [last]) := by
  rw [backSubstitute, backSubstitute, List.foldr_append, List.foldr_append]
  rfl

end Rows

variable {K : Type} [Field K]

theorem innerRow_factor {above : Row K} {i : ℕ} (h : above.factor = knotFactor i) (u w : K) :
    (innerRow above u w).factor = knotFactor (i + 1) := by
  rw [innerRow, knotFactor, h]

section Bounds
variable [LinearOrder K] [IsStrictOrderedRing K]

/-- A factor of one half at most leaves a pivot above two, and so a factor of that kind again. -/
theorem knotFactor_mem_Ioc (i : ℕ) : (knotFactor i : K) ∈ Set.Ioc (1 / 4) (1 / 2) := by
  induction i with
  | zero => constructor <;> norm_num [knotFactor]
  | succ i ih =>
    obtain ⟨hlower, hupper⟩ := ih
    have hpos : (0 : K) < 4 - knotFactor i := by linarith
    constructor
    · exact one_div_lt_one_div_of_lt hpos (by linarith)
    · exact one_div_le_one_div_of_le two_pos (by linarith)

theorem knotFactor_succ_lt (i : ℕ) : (knotFactor (i + 1) : K) < knotFactor i := by
  induction i with
  | zero => norm_num [knotFactor]
  | succ i ih =>
    have hle : (knotFactor i : K) ≤ 1 / 2 := (knotFactor_mem_Ioc i).2
    exact one_div_lt_one_div_of_lt (by linarith) (sub_lt_sub_left ih 4)

theorem strictAnti_knotFactor : StrictAnti (knotFactor : ℕ → K) :=
  strictAnti_nat_of_succ_lt knotFactor_succ_lt

theorem inner_pivot_mem_Ico (i : ℕ) : (4 - knotFactor i : K) ∈ Set.Ico (7 / 2) (15 / 4) := by
  obtain ⟨hlower, hupper⟩ : (knotFactor i : K) ∈ Set.Ioc (1 / 4) (1 / 2) := knotFactor_mem_Ioc i
  constructor <;> linarith

theorem last_pivot_mem_Ico (i : ℕ) : (2 - knotFactor i : K) ∈ Set.Ico (3 / 2) (7 / 4) := by
  obtain ⟨hlower, hupper⟩ : (knotFactor i : K) ∈ Set.Ioc (1 / 4) (1 / 2) := knotFactor_mem_Ioc i
  constructor <;> linarith

/-- The pivot of the last knot is below two. -/
theorem half_lt_last_factor (i : ℕ) : (1 / 2 : K) < 1 / (2 - knotFactor i) := by
  obtain ⟨hlower, hupper⟩ : (2 - knotFactor i : K) ∈ Set.Ico (3 / 2) (7 / 4) :=
    last_pivot_mem_Ico i
  exact one_div_lt_one_div_of_lt (by linarith) (by linarith)

end Bounds

variable [LinearOrder K] [FloorRing K]

/-- Below the row of a knot, the factors are those of the knots that follow. -/
theorem eliminateBelow_factors {above : Row K} {i : ℕ} (h : above.factor = knotFactor i) (u v : K)
    (vs : List K) : ∃ inner last, eliminateBelow above u v vs = inner ++ [last] ∧
      inner.map Row.factor = (List.range' (i + 1) vs.length).map knotFactor ∧
      last.factor = 1 / (2 - knotFactor (i + vs.length)) := by
  induction vs generalizing above i u v with
  | nil =>
    refine ⟨[], lastRow above u v, eliminateBelow_nil above u v, rfl, ?_⟩
    rw [lastRow, h, List.length_nil, add_zero]
  | cons w vs ih =>
    have hrow := innerRow_factor h u w
    obtain ⟨inner, last, hrows, hinner, hlast⟩ := ih hrow v w
    refine ⟨innerRow above u w :: inner, last, ?_, ?_, ?_⟩
    · rw [eliminateBelow_cons, hrows, List.cons_append]
    · rw [List.map_cons, hrow, hinner, List.length_cons, List.range'_succ, List.map_cons]
    · rw [hlast, List.length_cons, Nat.add_right_comm, Nat.add_assoc]

theorem eliminate_factors (u v : K) (vs : List K) :
    ∃ inner last, eliminate (u :: v :: vs) = inner ++ [last] ∧
      inner.map Row.factor = (List.range (vs.length + 1)).map knotFactor ∧
      last.factor = 1 / (2 - knotFactor vs.length) := by
  have hfirst : (firstRow u v).factor = knotFactor 0 := by rw [firstRow_eq, knotFactor]
  obtain ⟨inner, last, hrows, hinner, hlast⟩ := eliminateBelow_factors hfirst u v vs
  refine ⟨firstRow u v :: inner, last, ?_, ?_, ?_⟩
  · rw [eliminate, hrows, List.cons_append]
  · rw [List.map_cons, hfirst, hinner, List.range_eq_range', List.range'_succ, List.map_cons]
  · rw [hlast, Nat.zero_add]

variable [IsStrictOrderedRing K]

/-- Elimination without exchanging rows solves the system of `n + 2` knots. Its factors belong to
the numbers of the knots and not to their values; they decrease from one half, and stay above one
quarter. All pivots are well above one. Only the factor of the last row is larger than one half,
and nothing is multiplied by it. -/
theorem eliminate_stable (values : List K) (n : ℕ) (h : values.length = n + 2) :
    ∃ inner last, eliminate values = inner ++ [last] ∧
      inner.map Row.factor = (List.range (n + 1)).map knotFactor ∧
      last.factor = 1 / (2 - knotFactor n) ∧
      StrictAnti (knotFactor : ℕ → K) ∧
      (∀ i, (knotFactor i : K) ∈ Set.Ioc (1 / 4) (1 / 2)) ∧
      (knotFactor 0 = (1 / 2 : K) ∧ ∀ i, (knotFactor (i + 1) : K) = 1 / (4 - knotFactor i)) ∧
      (∀ i, (4 - knotFactor i : K) ∈ Set.Ico (7 / 2) (15 / 4)) ∧
      (2 - knotFactor n : K) ∈ Set.Ico (3 / 2) (7 / 4) ∧
      1 / 2 < last.factor ∧
      (∀ factor, knotSlopes? values = some (backSubstitute (inner ++ [{ last with factor }]))) ∧
      ∀ slopes, knotSlopes? values = some slopes ↔ SlopeSystem values slopes := by
  have hlength : 2 ≤ values.length := h ▸ Nat.le_add_left 2 n
  obtain ⟨u, v, vs, rfl⟩ := exists_cons_cons hlength
  obtain rfl : vs.length = n := by simpa using h
  obtain ⟨inner, last, hrows, hinner, hlast⟩ := eliminate_factors u v vs
  refine ⟨inner, last, hrows, hinner, hlast, strictAnti_knotFactor, knotFactor_mem_Ioc,
    ⟨rfl, fun _ => rfl⟩, inner_pivot_mem_Ico, last_pivot_mem_Ico _, ?_, ?_, ?_⟩
  · rw [hlast]
    exact half_lt_last_factor _
  · intro factor
    rw [knotSlopes?_eq, hrows, backSubstitute_concat_factor inner last factor]
  · intro slopes
    exact knotSlopes?_eq_some_iff hlength

/-- Four knots. -/
theorem eliminate_stable_four : ([0, 3, -1, 2] : List ℚ).length = 2 + 2 ∧
    ∃ inner last, eliminate ([0, 3, -1, 2] : List ℚ) = inner ++ [last] ∧
      inner.map Row.factor = (List.range 3).map knotFactor ∧
      last.factor = 1 / (2 - knotFactor 2) ∧
      StrictAnti (knotFactor : ℕ → ℚ) ∧
      (∀ i, (knotFactor i : ℚ) ∈ Set.Ioc (1 / 4) (1 / 2)) ∧
      (knotFactor 0 = (1 / 2 : ℚ) ∧ ∀ i, (knotFactor (i + 1) : ℚ) = 1 / (4 - knotFactor i)) ∧
      (∀ i, (4 - knotFactor i : ℚ) ∈ Set.Ico (7 / 2) (15 / 4)) ∧
      (2 - knotFactor 2 : ℚ) ∈ Set.Ico (3 / 2) (7 / 4) ∧
      1 / 2 < last.factor ∧
      (∀ factor, knotSlopes? ([0, 3, -1, 2] : List ℚ) =
        some (backSubstitute (inner ++ [{ last with factor }]))) ∧
      ∀ slopes, knotSlopes? ([0, 3, -1, 2] : List ℚ) = some slopes ↔
        SlopeSystem [0, 3, -1, 2] slopes :=
  ⟨rfl, eliminate_stable [0, 3, -1, 2] 2 rfl⟩

end PenStroke.Spline
