import PenStroke.Proofs.Binary64
import PenStroke.Stored.Tree

/-!
What it takes for values to survive being stored. A value whose doubles are all finite is read back
from its tree; conversely the trees that a text can hold have finite numbers only, and so have the
values read from them.
-/
namespace PenStroke

/-- Natural numbers that fit 64 bits are finite as doubles. -/
theorem Binary64.isFinite_ofNat {n : Nat} (hn : n < 2 ^ 64) : Scalar.isFinite (n : Float) := by
  rcases Nat.eq_zero_or_pos n with rfl | hpos
  · rfl
  · have hparts := isNormal_ofNat hpos hn
    change (parts (Float.ofNat n)).isFinite = true
    rw [IsNormal] at hparts
    generalize parts (Float.ofNat n) = x at hparts
    cases hparts
    rfl

/-- The trees that a text can hold: a natural number takes 64 bits at most, and any other number is
finite. -/
inductive Tree.WellFormed : Tree Float → Prop where
  | null : WellFormed .null
  | flag (b : Bool) : WellFormed (.flag b)
  | natural {n : Nat} (h : n < 2 ^ 64) : WellFormed (.natural n)
  | number {x : Float} (h : Scalar.isFinite x) : WellFormed (.number x)
  | text (s : String) : WellFormed (.text s)
  | list {items : List (Tree Float)} (h : ∀ t ∈ items, WellFormed t) : WellFormed (.list items)
  | record {fields : List (String × Tree Float)} (h : ∀ field ∈ fields, WellFormed field.2) :
    WellFormed (.record fields)

/-- Types of values that hold doubles, directly or in their parts. -/
class Measured (τ : Type) where
  /-- All the doubles in a value are finite. -/
  AllFinite : τ → Prop

export Measured (AllFinite)

/-- Stored values are read back, and what is read from a well-formed tree can be stored. -/
class Faithful (τ : Type) [Stored Float τ] [Measured τ] : Prop where
  read?_write {v : τ} : AllFinite v → read? (write v : Tree Float) = some v
  allFinite_of_read? {t : Tree Float} {v : τ} : t.WellFormed → read? t = some v → AllFinite v

export Faithful (read?_write allFinite_of_read?)

namespace Tree

variable {τ : Type} [Stored Float τ] {fields : List (String × Tree Float)} {name : String}

theorem lookup_cons_eq (other : String) (t : Tree Float) :
    ((other, t) :: fields).lookup name = if name = other then some t else fields.lookup name := by
  by_cases h : name = other
  · simp [List.lookup, h]
  · simp [List.lookup, beq_false_of_ne h, h]

@[simp] theorem required?_cons (other : String) (t : Tree Float) :
    (required? ((other, t) :: fields) name : Option τ) =
      if name = other then read? t else required? fields name := by
  rw [required?, lookup_cons_eq]
  split <;> rfl

@[simp] theorem optional?_cons (other : String) (t : Tree Float) (missing : τ) :
    optional? ((other, t) :: fields) name missing =
      if name = other then read? t else optional? fields name missing := by
  rw [optional?, lookup_cons_eq]
  by_cases h : name = other
  · rw [if_pos h, if_pos h]
  · rw [if_neg h, if_neg h, optional?]

theorem wellFormed_of_lookup {t : Tree Float} (h : ∀ field ∈ fields, field.2.WellFormed)
    (ht : fields.lookup name = some t) : t.WellFormed := by
  obtain ⟨before, after, rfl, -⟩ := List.lookup_eq_some_iff.mp ht
  exact h (name, t) (by simp)

/-- Also the fields that a list has by their places. -/
theorem WellFormed.of_fields? {t : Tree Float} (ht : t.WellFormed) {names : List String}
    {mayEnd : Bool} (h : t.fields? names mayEnd = some fields) :
    ∀ field ∈ fields, field.2.WellFormed := by
  cases ht with
  | record hfields =>
    cases h
    exact hfields
  | list hitems =>
    obtain ⟨-, h⟩ := Option.ite_none_right_eq_some.mp h
    cases h
    intro field hfield
    exact hitems _ (List.of_mem_zip hfield).2
  | _ => contradiction

theorem WellFormed.of_variant? {t content : Tree Float} (ht : t.WellFormed)
    (h : t.variant? = some (name, some content)) : content.WellFormed := by
  cases ht with
  | record hfields =>
    rename_i fields
    match fields, h with
    | [(_, _)], rfl => exact hfields _ (List.mem_singleton_self _)
  | text s => cases h
  | _ => contradiction

end Tree

theorem exists_of_mem_mapM {α β : Type} {f : α → Option β} {xs : List α} {ys : List β}
    (h : xs.mapM f = some ys) {y : β} (hy : y ∈ ys) : ∃ x ∈ xs, f x = some y := by
  induction xs generalizing ys with
  | nil =>
    cases h
    contradiction
  | cons x xs ih =>
    rw [List.mapM_cons] at h
    obtain ⟨z, hz, h⟩ := Option.bind_eq_some_iff.mp h
    obtain ⟨zs, hzs, h⟩ := Option.bind_eq_some_iff.mp h
    cases h
    cases hy with
    | head => exact ⟨x, List.mem_cons_self, hz⟩
    | tail _ hmem =>
      obtain ⟨x', hx', hread⟩ := ih hzs hmem
      exact ⟨x', List.mem_cons_of_mem x hx', hread⟩

section Compounds

variable {τ : Type} [Stored Float τ] [Measured τ] {fields : List (String × Tree Float)}

section Fields

variable [Faithful τ] {name : String} {v : τ}

theorem allFinite_of_required? (hfields : ∀ field ∈ fields, field.2.WellFormed)
    (h : Tree.required? fields name = some v) : AllFinite v := by
  obtain ⟨t, ht, hread⟩ := Option.bind_eq_some_iff.mp h
  exact allFinite_of_read? (Tree.wellFormed_of_lookup hfields ht) hread

theorem allFinite_of_optional? {missing : τ} (hmissing : AllFinite missing)
    (hfields : ∀ field ∈ fields, field.2.WellFormed)
    (h : Tree.optional? fields name missing = some v) : AllFinite v := by
  rw [Tree.optional?] at h
  cases ht : fields.lookup name with
  | none =>
    rw [ht] at h
    cases h
    exact hmissing
  | some t =>
    rw [ht] at h
    exact allFinite_of_read? (Tree.wellFormed_of_lookup hfields ht) h

end Fields

/-- A type that is written as a record of its fields, and read from the fields of a tree. -/
theorem Faithful.of_fields {names : List String} {mayEnd : Bool}
    {reader : List (String × Tree Float) → Option τ} {written : τ → List (String × Tree Float)}
    (hread : ∀ t : Tree Float, read? t = (t.fields? names mayEnd).bind reader)
    (hwrite : ∀ v : τ, (write v : Tree Float) = .record (written v))
    (hback : ∀ v : τ, AllFinite v → reader (written v) = some v)
    (hfinite : ∀ (v : τ) (fields : List (String × Tree Float)),
      (∀ field ∈ fields, field.2.WellFormed) → reader fields = some v → AllFinite v) :
    Faithful τ where
  read?_write {v} hv := by
    rw [hread, hwrite]
    exact hback v hv
  allFinite_of_read? {t v} ht h := by
    rw [hread] at h
    obtain ⟨fields, hfields, h⟩ := Option.bind_eq_some_iff.mp h
    exact hfinite v fields (ht.of_fields? hfields) h

/-- A compound of two fields, both required. -/
theorem Faithful.of_two {σ υ : Type} [Stored Float σ] [Measured σ] [Faithful σ] [Stored Float υ]
    [Measured υ] [Faithful υ] {first second : String} {make : σ → υ → τ} {a : τ → σ} {b : τ → υ}
    (hread : ∀ t : Tree Float, read? t = (t.fields? [first, second] false).bind fun fields =>
      (Tree.required? fields first).bind fun x =>
        (Tree.required? fields second).bind fun y => some (make x y))
    (hwrite : ∀ v : τ,
      (write v : Tree Float) = .record [(first, write (a v)), (second, write (b v))])
    (hne : second ≠ first) (hmake : ∀ v : τ, make (a v) (b v) = v)
    (hfinite : ∀ (x : σ) (y : υ), AllFinite (make x y) ↔ AllFinite x ∧ AllFinite y) :
    Faithful τ := by
  refine .of_fields hread hwrite ?_ ?_
  · intro v hv
    rw [← hmake v, hfinite] at hv
    simp [read?_write hv.1, read?_write hv.2, hne, hmake]
  · intro v fields hfields h
    obtain ⟨x, hx, h⟩ := Option.bind_eq_some_iff.mp h
    obtain ⟨y, hy, h⟩ := Option.bind_eq_some_iff.mp h
    cases h
    exact (hfinite x y).mpr
      ⟨allFinite_of_required? hfields hx, allFinite_of_required? hfields hy⟩

/-- A type that is stored as the only thing it holds. -/
theorem Faithful.of_map {σ : Type} [Stored Float σ] [Measured σ] [Faithful σ] {wrap : σ → τ}
    {content : τ → σ}
    (hread : ∀ t : Tree Float, read? t = (read? t).map wrap)
    (hwrite : ∀ v : τ, (write v : Tree Float) = write (content v))
    (hwrap : ∀ v : τ, wrap (content v) = v)
    (hfinite : ∀ w : σ, AllFinite (wrap w) ↔ AllFinite w) : Faithful τ where
  read?_write {v} hv := by
    have hcontent : AllFinite (content v) := (hfinite _).mp (by rwa [hwrap])
    rw [hread, hwrite, read?_write hcontent, Option.map_some, hwrap]
  allFinite_of_read? {t v} ht h := by
    rw [hread] at h
    obtain ⟨w, hw, rfl⟩ := Option.map_eq_some_iff.mp h
    exact (hfinite w).mpr (allFinite_of_read? ht hw)

end Compounds

namespace Stored

instance : Measured Bool := ⟨fun _ => True⟩

instance : Faithful Bool where
  read?_write _ := rfl
  allFinite_of_read? _ _ := trivial

instance : Measured Nat := ⟨fun _ => True⟩

instance : Faithful Nat where
  read?_write _ := rfl
  allFinite_of_read? _ _ := trivial

instance : Measured Float := ⟨fun x => Scalar.isFinite x⟩

instance : Faithful Float where
  read?_write {x} hx := by
    have hwrite : (write x : Tree Float) = .number x := if_pos hx
    rw [hwrite]
    rfl
  allFinite_of_read? {t v} ht hv := by
    cases ht with
    | natural hn =>
      cases hv
      exact Binary64.isFinite_ofNat hn
    | number hx =>
      cases hv
      exact hx
    | _ => contradiction

variable {τ : Type} [Stored Float τ] [Measured τ] [Faithful τ]

theorem mapM_read?_write {items : List τ} (h : ∀ v ∈ items, AllFinite v) :
    (items.map (write : τ → Tree Float)).mapM read? = some items := by
  induction items with
  | nil => rfl
  | cons v vs ih =>
    rw [List.forall_mem_cons] at h
    rw [List.map_cons, List.mapM_cons, read?_write h.1, ih h.2]
    rfl

theorem allFinite_of_mapM_read? {items : List (Tree Float)} (hitems : ∀ t ∈ items, t.WellFormed)
    {vs : List τ} (h : items.mapM read? = some vs) : ∀ v ∈ vs, AllFinite v := by
  intro v hv
  obtain ⟨t, ht, hread⟩ := exists_of_mem_mapM h hv
  exact allFinite_of_read? (hitems t ht) hread

instance : Measured (List τ) := ⟨fun items => ∀ v ∈ items, AllFinite v⟩

instance : Faithful (List τ) where
  read?_write h := mapM_read?_write h
  allFinite_of_read? {t vs} ht hvs := by
    cases ht with
    | list hitems => exact allFinite_of_mapM_read? hitems hvs
    | _ => contradiction

instance : Measured (Option τ) := ⟨fun v => ∀ w ∈ v, AllFinite w⟩

/-- The tree of a list is never the null that stands for an absent one. -/
instance : Faithful (Option (List τ)) where
  read?_write {v} h := by
    cases v with
    | none => rfl
    | some items =>
      have hitems : ∀ v ∈ items, AllFinite v := h items rfl
      change ((items.map write).mapM read?).map some = some (some items)
      rw [mapM_read?_write hitems]
      rfl
  allFinite_of_read? {t v} ht hv := by
    cases ht with
    | null =>
      cases hv
      exact fun _ h => nomatch h
    | list hitems =>
      obtain ⟨items, hread, rfl⟩ := Option.map_eq_some_iff.mp hv
      rintro _ ⟨⟩
      exact allFinite_of_mapM_read? hitems hread
    | _ => contradiction

end Stored

end PenStroke
