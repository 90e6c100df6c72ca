import PenStroke.Proofs.Exact
import PenStroke.Spline.Knots

/-! Elimination and back substitution solve the tridiagonal system of the knot slopes, and the
system has no other solution. -/
namespace PenStroke.Spline

section Rows
variable {α : Type} [Scalar α]

@[simp] theorem length_eliminateBelow (above : Row α) (u v : α) (vs : List α) :
    (eliminateBelow above u v vs).length = vs.length + 1 := by
  induction vs generalizing above u v with
  | nil => rfl
  | cons w vs ih => simp [eliminateBelow, ih]

theorem backSubstitute_cons (row : Row α) (rows : List (Row α)) :
    backSubstitute (row :: rows) = match backSubstitute rows with
      | [] => [row.rhs]
      | d :: _ => (row.rhs - row.factor * d) :: backSubstitute rows := rfl

@[simp] theorem length_backSubstitute (rows : List (Row α)) :
    (backSubstitute rows).length = rows.length := by
  induction rows with
  | nil => rfl
  | cons row rows ih =>
    rw [backSubstitute_cons, List.length_cons, ← ih]
    cases backSubstitute rows <;> rfl

end Rows

variable {K : Type} [Field K] [LinearOrder K] [FloorRing K]

/-- The equations of all knots but the first, for the values and the slopes from some knot on. -/
def LaterRows : List K → List K → Prop
  | [u, v], [a, b] => a + 2 * b = 3 * (v - u)
  | u :: v :: w :: vs, a :: b :: c :: ds =>
    a + 4 * b + c = 3 * (w - u) ∧ LaterRows (v :: w :: vs) (b :: c :: ds)
  | _, _ => False

/-- The equations of all knots: slopes `ds` belong to the natural spline through `vs`. -/
def SlopeSystem : List K → List K → Prop
  | u :: v :: vs, a :: b :: ds =>
    2 * a + b = 3 * (v - u) ∧ LaterRows (u :: v :: vs) (a :: b :: ds)
  | _, _ => False

/-- A row holds of the slope at its knot and the one at the next. -/
def Row.Holds (row : Row K) (a b : K) : Prop := a + row.factor * b = row.rhs

theorem firstRow_eq (u v : K) : firstRow u v = ⟨1 / 2, 3 * (v - u) * (1 / 2)⟩ := by
  simp only [firstRow, Exact.numeral_one]

/-- The row of an inner knot, from the row above it. -/
def innerRow (above : Row K) (u w : K) : Row K :=
  ⟨1 / (4 - above.factor), (3 * (w - u) - above.rhs) * (1 / (4 - above.factor))⟩

/-- The row of the last knot, from the row above it. -/
def lastRow (above : Row K) (u v : K) : Row K :=
  ⟨1 / (2 - above.factor), (3 * (v - u) - above.rhs) * (1 / (2 - above.factor))⟩

/-- The factor of the row of a knot with another one below it, counted from the first knot. -/
def knotFactor : ℕ → K
  | 0 => 1 / 2
  | i + 1 => 1 / (4 - knotFactor i)

theorem eliminateBelow_nil (above : Row K) (u v : K) :
    eliminateBelow above u v [] = [lastRow above u v] := by
  simp only [eliminateBelow, Exact.numeral_one]
  rfl

theorem eliminateBelow_cons (above : Row K) (u v w : K) (vs : List K) :
    eliminateBelow above u v (w :: vs) =
      innerRow above u w :: eliminateBelow (innerRow above u w) v w vs := by
  simp only [eliminateBelow, Exact.numeral_one]
  rfl

/-- The first two slopes that back substitution finds satisfy the first row. -/
theorem backSubstitute_eq_cons_cons {row : Row K} {rows : List (Row K)} {a b : K} {ds : List K} :
    backSubstitute (row :: rows) = a :: b :: ds ↔
      row.Holds a b ∧ backSubstitute rows = b :: ds := by
  rw [backSubstitute_cons, Row.Holds]
  cases backSubstitute rows with
  | nil => simp
  | cons d below =>
    simp only [List.cons.injEq]
    constructor
    · rintro ⟨rfl, rfl, rfl⟩
      exact ⟨sub_add_cancel _ _, rfl, rfl⟩
    · rintro ⟨ha, rfl, rfl⟩
      exact ⟨sub_eq_of_eq_add ha.symm, rfl, rfl⟩

/-- Slopes are found for two values or more. -/
theorem knotSlopes?_eq (u v : K) (vs : List K) :
    knotSlopes? (u :: v :: vs) = some (backSubstitute (eliminate (u :: v :: vs))) := by
  simp [knotSlopes?]

variable [IsStrictOrderedRing K]

/-- Pivots stay away from zero as long as factors stay below one half. -/
theorem innerRow_factor_le {above : Row K} (hf : above.factor ≤ 1 / 2) (u w : K) :
    (innerRow above u w).factor ≤ 1 / 2 := by
  have hp : 2 ≤ 4 - above.factor := by linarith
  exact one_div_le_one_div_of_le two_pos hp

/-- Below a row that holds, the row of an inner knot holds exactly if its equation does. -/
theorem innerRow_holds_iff {above : Row K} (hf : above.factor ≤ 1 / 2) {u w a b c : K}
    (ha : above.Holds a b) :
    (innerRow above u w).Holds b c ↔ a + 4 * b + c = 3 * (w - u) := by
  have hp : 4 - above.factor ≠ 0 := by linarith
  unfold Row.Holds innerRow at *
  field_simp
  constructor
  · intro h
    linarith
  · intro h
    linarith

theorem lastRow_rhs_iff {above : Row K} (hf : above.factor ≤ 1 / 2) {u v a b : K}
    (ha : above.Holds a b) : (lastRow above u v).rhs = b ↔ a + 2 * b = 3 * (v - u) := by
  have hp : 2 - above.factor ≠ 0 := by linarith
  unfold Row.Holds lastRow at *
  field_simp
  constructor
  · intro h
    linarith
  · intro h
    linarith

/-- Below a row that holds, elimination keeps the solutions of the remaining equations. -/
theorem laterRows_iff {above : Row K} (hf : above.factor ≤ 1 / 2) (u v : K) (vs : List K)
    {a b : K} {ds : List K} (ha : above.Holds a b) :
    LaterRows (u :: v :: vs) (a :: b :: ds) ↔
      backSubstitute (eliminateBelow above u v vs) = b :: ds := by
  induction vs generalizing above u v a b ds with
  | nil =>
    rw [eliminateBelow_nil]
    cases ds with
    | nil => simp [LaterRows, backSubstitute, lastRow_rhs_iff hf ha]
    | cons c ds => simp [LaterRows, backSubstitute]
  | cons w vs ih =>
    rw [eliminateBelow_cons]
    cases ds with
    | nil =>
      simp only [LaterRows, false_iff]
      intro h
      have hl := congrArg List.length h
      simp at hl
    | cons c ds =>
      rw [LaterRows, backSubstitute_eq_cons_cons, ← innerRow_holds_iff hf ha]
      exact and_congr_right fun hr => ih (innerRow_factor_le hf u w) v w hr

/-- The computed slopes are the only solution of the system. -/
theorem slopeSystem_iff (u v : K) (vs ds : List K) :
    SlopeSystem (u :: v :: vs) ds ↔ ds = backSubstitute (eliminate (u :: v :: vs)) := by
  have hl : (backSubstitute (eliminate (u :: v :: vs))).length = vs.length + 2 := by
    simp [eliminate]
  match ds with
  | [] | [_] =>
    simp only [SlopeSystem, false_iff]
    intro hd
    rw [← hd] at hl
    simp at hl
  | a :: b :: ds =>
    rw [eq_comm, eliminate, backSubstitute_eq_cons_cons, SlopeSystem]
    have hrow : (firstRow u v).Holds a b ↔ 2 * a + b = 3 * (v - u) := by
      rw [firstRow_eq, Row.Holds]
      constructor <;> intro h <;> linarith
    rw [hrow]
    refine and_congr_right fun hr => laterRows_iff ?_ u v vs (hrow.mpr hr)
    rw [firstRow_eq]

end PenStroke.Spline
