import Mathlib.Data.List.Nodup
import Mathlib.Order.Nat
import PenStroke.Stored.Tree

/-!
How trees spell values. A record spells a compound by its fields in any order, with unknown ones
between them, and a list spells it by its fields in their own order. Main statement: where a reader
finds every field by its name, the trees that are read as a value are those that spell it.
-/
namespace PenStroke

variable {α : Type}

/-- In every record of a tree the names are distinct. -/
inductive Tree.DistinctNames : Tree α → Prop where
  | null : DistinctNames .null
  | flag (b : Bool) : DistinctNames (.flag b)
  | natural (n : Nat) : DistinctNames (.natural n)
  | number (x : α) : DistinctNames (.number x)
  | text (s : String) : DistinctNames (.text s)
  | list {items : List (Tree α)} (h : ∀ t ∈ items, DistinctNames t) : DistinctNames (.list items)
  | record {entries : List (String × Tree α)} (names : (entries.map Prod.fst).Nodup)
    (h : ∀ entry ∈ entries, DistinctNames entry.2) : DistinctNames (.record entries)

/-- The content of a variant is the only tree in a record. -/
theorem Tree.DistinctNames.of_variant? {t content : Tree α} {name : String} (ht : t.DistinctNames)
    (h : t.variant? = some (name, some content)) :
    t = .ofVariant name content ∧ content.DistinctNames := by
  cases ht with
  | @record entries _ htrees =>
    match entries, h with
    | [(_, _)], rfl => exact ⟨rfl, htrees _ (List.mem_singleton_self _)⟩
  | text s => cases h
  | _ => contradiction

theorem Tree.eq_text_of_variant? {t : Tree α} {name : String}
    (h : t.variant? = some (name, none)) :
    t = .text name := by
  cases t with
  | text s =>
    cases h
    rfl
  | record entries =>
    match entries, h with
    | [(_, _)], h => cases h
  | _ => contradiction

/-- Types of values that trees spell. -/
class Spelled (α τ : Type) where
  Spells : Tree α → τ → Prop

export Spelled (Spells)

/-- A tree is read as the value it spells. Conversely a tree spells the value it is read as if the
names in its records are distinct. -/
class ReadAsSpelled (α τ : Type) [Stored α τ] [Spelled α τ] : Prop where
  read?_of_spells {t : Tree α} {v : τ} : Spells t v → read? t = some v
  spells_of_read? {t : Tree α} {v : τ} : t.DistinctNames → read? t = some v → Spells t v

export ReadAsSpelled (read?_of_spells spells_of_read?)

/-- A type that is spelled as the only thing it holds. -/
theorem ReadAsSpelled.of_map {τ σ : Type} [Stored α τ] [Spelled α τ]
    [ReadAsSpelled α τ] [Stored α σ] [Spelled α σ] {wrap : τ → σ} {content : σ → τ}
    (hread : ∀ t : Tree α, (read? t : Option σ) = (read? t).map wrap)
    (hspells : ∀ (t : Tree α) (v : σ), Spells t v ↔ Spells t (content v))
    (hwrap : ∀ v : σ, wrap (content v) = v) (hcontent : ∀ w : τ, content (wrap w) = w) :
    ReadAsSpelled α σ where
  read?_of_spells {t v} h := by
    rw [hread, read?_of_spells ((hspells t v).mp h), Option.map_some, hwrap]
  spells_of_read? {t v} ht h := by
    rw [hread] at h
    obtain ⟨w, hw, rfl⟩ := Option.map_eq_some_iff.mp h
    rw [hspells, hcontent]
    exact spells_of_read? ht hw

/-- A field of a compound: its name, its value, and the value it has when it is missing, if it may
be missing at all. -/
structure Field (α : Type) where
  {Value : Type}
  [stored : Stored α Value]
  [spelled : Spelled α Value]
  [readAsSpelled : ReadAsSpelled α Value]
  name : String
  value : Value
  missing : Option Value

namespace Field

attribute [instance] stored spelled readAsSpelled

section Making
variable {τ : Type} [Stored α τ] [Spelled α τ] [ReadAsSpelled α τ]

def required (name : String) (v : τ) : Field α := ⟨name, v, none⟩

def defaulted (name : String) (v missing : τ) : Field α := ⟨name, v, some missing⟩

end Making

variable (f : Field α)

def MayMiss : Prop := f.missing = some f.value

def SpelledBy (t : Tree α) : Prop := Spells t f.value

end Field

/-- Entries of a record that give fields in order, without those that are missing. -/
inductive Given : List (Field α) → List (String × Tree α) → Prop where
  | nil : Given [] []
  | given {f : Field α} {fs : List (Field α)} {t : Tree α} {entries : List (String × Tree α)} :
    f.SpelledBy t → Given fs entries → Given (f :: fs) ((f.name, t) :: entries)
  | missing {f : Field α} {fs : List (Field α)} {entries : List (String × Tree α)} :
    f.MayMiss → Given fs entries → Given (f :: fs) entries

/-- Items of a list that give fields in order. The last ones are missing only if the list may end
early. -/
inductive Listed (mayEnd : Bool) : List (Field α) → List (Tree α) → Prop where
  | nil : Listed mayEnd [] []
  | item {f : Field α} {fs : List (Field α)} {t : Tree α} {items : List (Tree α)} :
    f.SpelledBy t → Listed mayEnd fs items → Listed mayEnd (f :: fs) (t :: items)
  | ended {fs : List (Field α)} : mayEnd → (∀ f ∈ fs, f.MayMiss) → Listed mayEnd fs []

/-- The trees that spell a compound of the given fields. -/
inductive SpellsFields (fields : List (Field α)) (mayEnd : Bool) : Tree α → Prop where
  | record {entries known unknown : List (String × Tree α)} (given : Given fields known)
    (foreign : ∀ entry ∈ unknown, ∀ f ∈ fields, entry.1 ≠ f.name)
    (order : entries.Perm (known ++ unknown)) : SpellsFields fields mayEnd (.record entries)
  | list {items : List (Tree α)} (listed : Listed mayEnd fields items) :
    SpellsFields fields mayEnd (.list items)

/-- Types whose values are compounds of fields. -/
class Compound (α τ : Type) where
  names : List String
  fields : τ → List (Field α)
  /-- Whether a list may end before the last field. -/
  mayEnd : Bool
  map_name : ∀ v : τ, (fields v).map Field.name = names := by intro v; rfl
  nodup : names.Nodup := by decide

instance {τ : Type} [Compound α τ] : Spelled α τ :=
  ⟨fun t v => SpellsFields (Compound.fields v) (Compound.mayEnd α τ) t⟩

section Fields
variable {entries entries' : List (String × Tree α)} {name : String} {f : Field α}

theorem lookup_eq_none_iff_notMem : entries.lookup name = none ↔ ∀ t, (name, t) ∉ entries := by
  rw [List.lookup_eq_none_iff]
  constructor
  · intro h t ht
    simpa using h (name, t) ht
  · rintro h ⟨other, t⟩ ht
    rw [bne_iff_ne]
    rintro rfl
    exact h t ht

theorem mem_of_lookup {t : Tree α} (h : entries.lookup name = some t) : (name, t) ∈ entries := by
  obtain ⟨before, after, rfl, -⟩ := List.lookup_eq_some_iff.mp h
  simp

namespace Field

/-- A field is read from what is under its name, or else is missing. -/
def FoundIn (f : Field α) (entries : List (String × Tree α)) : Prop :=
  (∃ t, entries.lookup f.name = some t ∧ read? t = some f.value) ∨
    entries.lookup f.name = none ∧ f.MayMiss

/-- A field is spelled by the one tree under its name, or else is missing. -/
def SpelledIn (f : Field α) (entries : List (String × Tree α)) : Prop :=
  (∃ t, f.SpelledBy t ∧ ∀ t', (f.name, t') ∈ entries ↔ t' = t) ∨
    f.MayMiss ∧ ∀ t, (f.name, t) ∉ entries

theorem SpelledIn.congr (h : f.SpelledIn entries)
    (hmem : ∀ t, (f.name, t) ∈ entries' ↔ (f.name, t) ∈ entries) : f.SpelledIn entries' := by
  rcases h with ⟨t, ht, honly⟩ | ⟨hmiss, hnone⟩
  · exact .inl ⟨t, ht, fun t' => (hmem t').trans (honly t')⟩
  · exact .inr ⟨hmiss, fun t => mt (hmem t).mp (hnone t)⟩

theorem SpelledIn.perm (h : f.SpelledIn entries) (order : entries'.Perm entries) :
    f.SpelledIn entries' :=
  h.congr fun _ => order.mem_iff

/-- Entries of another name do not matter. -/
theorem spelledIn_cons {other : String} {t : Tree α} (hne : f.name ≠ other) :
    f.SpelledIn ((other, t) :: entries) ↔ f.SpelledIn entries := by
  have hmem (t' : Tree α) : (f.name, t') ∈ (other, t) :: entries ↔ (f.name, t') ∈ entries := by
    simp [hne]
  exact ⟨fun h => h.congr fun t' => (hmem t').symm, fun h => h.congr hmem⟩

theorem SpelledIn.foundIn (h : f.SpelledIn entries) : f.FoundIn entries := by
  rcases h with ⟨t, ht, honly⟩ | ⟨hmiss, hnone⟩
  · left
    cases hlookup : entries.lookup f.name with
    | none => exact absurd ((honly t).mpr rfl) (lookup_eq_none_iff_notMem.mp hlookup t)
    | some t' =>
      obtain rfl := (honly t').mp (mem_of_lookup hlookup)
      exact ⟨t', rfl, read?_of_spells ht⟩
  · exact .inr ⟨lookup_eq_none_iff_notMem.mpr hnone, hmiss⟩

theorem FoundIn.spelledIn (h : f.FoundIn entries) (hnames : (entries.map Prod.fst).Nodup)
    (hdistinct : ∀ entry ∈ entries, entry.2.DistinctNames) : f.SpelledIn entries := by
  rcases h with ⟨t, hlookup, hread⟩ | ⟨hlookup, hmiss⟩
  · have hmem := mem_of_lookup hlookup
    refine .inl ⟨t, spells_of_read? (hdistinct _ hmem) hread, fun t' => ⟨fun hmem' => ?_, ?_⟩⟩
    · exact congrArg Prod.snd (List.inj_on_of_nodup_map hnames hmem' hmem rfl)
    · rintro rfl
      exact hmem
  · exact .inr ⟨hmiss, lookup_eq_none_iff_notMem.mp hlookup⟩

variable {τ : Type} [Stored α τ] [Spelled α τ] [ReadAsSpelled α τ] {v : τ}

theorem required?_eq_some_iff :
    Tree.required? entries name = some v ↔ (required name v).FoundIn entries := by
  rw [Tree.required?, Option.bind_eq_some_iff]
  constructor
  · exact .inl
  · rintro (h | ⟨-, hmiss⟩)
    · exact h
    · contradiction

theorem optional?_eq_some_iff {missing : τ} :
    Tree.optional? entries name missing = some v ↔ (defaulted name v missing).FoundIn entries := by
  rw [Tree.optional?, FoundIn, MayMiss]
  change _ ↔ (∃ t, entries.lookup name = some t ∧ read? t = some v) ∨
    entries.lookup name = none ∧ some missing = some v
  cases entries.lookup name <;> simp

end Field

end Fields

section Records
variable {fs : List (Field α)} {entries : List (String × Tree α)}

/-- No two fields have one name. -/
def DifferInName (fs : List (Field α)) : Prop := fs.Pairwise fun f g => g.name ≠ f.name

theorem Given.notMem (h : Given fs entries) {name : String} (hname : ∀ f ∈ fs, f.name ≠ name)
    (t : Tree α) : (name, t) ∉ entries := by
  induction h with
  | nil => exact List.not_mem_nil
  | given _ _ ih =>
    rw [List.forall_mem_cons] at hname
    rintro (_ | ⟨_, hmem⟩)
    · exact hname.1 rfl
    · exact ih hname.2 hmem
  | missing _ _ ih =>
    rw [List.forall_mem_cons] at hname
    exact ih hname.2

theorem Given.spelledIn (h : Given fs entries) (hnames : DifferInName fs) :
    ∀ f ∈ fs, f.SpelledIn entries := by
  induction h with
  | nil => simp
  | @given f fs t entries ht hrest ih =>
    obtain ⟨hother, hnames⟩ := List.pairwise_cons.mp hnames
    rintro g (_ | ⟨_, hg⟩)
    · refine .inl ⟨t, ht, fun t' => ?_⟩
      have hfresh := hrest.notMem hother t'
      simp [hfresh]
    · exact (Field.spelledIn_cons (hother g hg)).mpr (ih hnames g hg)
  | @missing f fs entries hmiss hrest ih =>
    obtain ⟨hother, hnames⟩ := List.pairwise_cons.mp hnames
    rintro g (_ | ⟨_, hg⟩)
    · exact .inr ⟨hmiss, hrest.notMem hother⟩
    · exact ih hnames g hg

/-- The known entries of a record come first in some order of it. -/
theorem exists_given (hfields : DifferInName fs) (hnames : (entries.map Prod.fst).Nodup)
    (h : ∀ f ∈ fs, f.SpelledIn entries) : ∃ known unknown, Given fs known ∧
      (∀ entry ∈ unknown, ∀ f ∈ fs, entry.1 ≠ f.name) ∧ entries.Perm (known ++ unknown) := by
  induction fs generalizing entries with
  | nil => exact ⟨[], entries, .nil, by simp, .rfl⟩
  | cons f fs ih =>
    obtain ⟨hother, hfields⟩ := List.pairwise_cons.mp hfields
    rw [List.forall_mem_cons] at h
    rcases h.1 with ⟨t, ht, honly⟩ | ⟨hmiss, hnone⟩
    · obtain ⟨before, after, rfl⟩ := List.append_of_mem ((honly t).mpr rfl)
      have hperm : (before ++ (f.name, t) :: after).Perm ((f.name, t) :: (before ++ after)) :=
        List.perm_middle
      rw [(hperm.map Prod.fst).nodup_iff, List.map_cons, List.nodup_cons] at hnames
      have hrest : ∀ g ∈ fs, g.SpelledIn (before ++ after) := fun g hg =>
        (Field.spelledIn_cons (hother g hg)).mp ((h.2 g hg).perm hperm.symm)
      obtain ⟨known, unknown, hgiven, hforeign, horder⟩ := ih hfields hnames.2 hrest
      refine ⟨(f.name, t) :: known, unknown, .given ht hgiven, ?_, hperm.trans (horder.cons _)⟩
      intro entry hentry
      refine List.forall_mem_cons.mpr ⟨fun hname => hnames.1 ?_, hforeign entry hentry⟩
      exact List.mem_map.mpr
        ⟨entry, horder.mem_iff.mpr (List.mem_append_right _ hentry), hname⟩
    · obtain ⟨known, unknown, hgiven, hforeign, horder⟩ := ih hfields hnames h.2
      refine ⟨known, unknown, .missing hmiss hgiven, ?_, horder⟩
      intro entry hentry
      refine List.forall_mem_cons.mpr ⟨?_, hforeign entry hentry⟩
      intro hname
      apply hnone entry.2
      rw [← hname]
      exact horder.mem_iff.mpr (List.mem_append_right _ hentry)

end Records

section Lists
variable {fs : List (Field α)} {items : List (Tree α)} {mayEnd : Bool}

/-- The numbers of items that a list may have for so many fields. -/
def FitsFields (mayEnd : Bool) (items fields : ℕ) : Prop :=
  items ≤ fields ∧ (items < fields → mayEnd)

theorem fields?_list {names : List String} {entries : List (String × Tree α)} :
    (Tree.list items).fields? names mayEnd = some entries ↔
      FitsFields mayEnd items.length names.length ∧ names.zip items = entries := by
  have hfits : (items.length = names.length || mayEnd && items.length < names.length) = true ↔
      FitsFields mayEnd items.length names.length := by
    rw [Bool.or_eq_true, Bool.and_eq_true, decide_eq_true_eq, decide_eq_true_eq, FitsFields]
    constructor
    · rintro (heq | ⟨hend, hlt⟩)
      · exact ⟨heq.le, fun hlt => absurd heq hlt.ne⟩
      · exact ⟨hlt.le, fun _ => hend⟩
    · rintro ⟨hle, hend⟩
      rcases hle.eq_or_lt with heq | hlt
      · exact .inl heq
      · exact .inr ⟨hend hlt, hlt⟩
  rw [Tree.fields?, Option.ite_none_right_eq_some, hfits, Option.some.injEq]

theorem Listed.fits (h : Listed mayEnd fs items) :
    FitsFields mayEnd items.length fs.length := by
  induction h with
  | nil => exact ⟨Nat.le_refl _, fun h => absurd h (Nat.lt_irrefl _)⟩
  | item _ _ ih =>
    rw [List.length_cons, List.length_cons]
    exact ⟨Nat.succ_le_succ ih.1, fun h => ih.2 (Nat.lt_of_succ_lt_succ h)⟩
  | ended hend _ => exact ⟨Nat.zero_le _, fun _ => hend⟩

theorem Listed.spelledIn (h : Listed mayEnd fs items) (hnames : DifferInName fs) :
    ∀ f ∈ fs, f.SpelledIn ((fs.map Field.name).zip items) := by
  induction h with
  | nil => simp
  | @item f fs t items ht _ ih =>
    obtain ⟨hother, hnames⟩ := List.pairwise_cons.mp hnames
    rw [List.map_cons, List.zip_cons_cons]
    rintro g (_ | ⟨_, hg⟩)
    · refine .inl ⟨t, ht, fun t' => ?_⟩
      have hfresh : (f.name, t') ∉ (fs.map Field.name).zip items := by
        intro hmem
        obtain ⟨g, hg, hname⟩ := List.mem_map.mp (List.of_mem_zip hmem).1
        exact hother g hg hname
      simp [hfresh]
    · exact (Field.spelledIn_cons (hother g hg)).mpr (ih hnames g hg)
  | ended _ hmiss =>
    intro f hf
    exact .inr ⟨hmiss f hf, by simp⟩

theorem listed_of_spelledIn (hnames : DifferInName fs)
    (hfits : FitsFields mayEnd items.length fs.length)
    (h : ∀ f ∈ fs, f.SpelledIn ((fs.map Field.name).zip items)) : Listed mayEnd fs items := by
  induction fs generalizing items with
  | nil =>
    obtain rfl := List.length_eq_zero_iff.mp (Nat.le_zero.mp hfits.1)
    exact .nil
  | cons f fs ih =>
    cases items with
    | nil =>
      refine .ended (hfits.2 (Nat.zero_lt_succ _)) fun g hg => ?_
      rcases h g hg with ⟨t, -, honly⟩ | ⟨hmiss, -⟩
      · simpa using (honly t).mpr rfl
      · exact hmiss
    | cons t items =>
      obtain ⟨hother, hnames⟩ := List.pairwise_cons.mp hnames
      rw [List.map_cons, List.zip_cons_cons, List.forall_mem_cons] at h
      have hrest : ∀ g ∈ fs, g.SpelledIn ((fs.map Field.name).zip items) := fun g hg =>
        (Field.spelledIn_cons (hother g hg)).mp (h.2 g hg)
      have hfits : FitsFields mayEnd items.length fs.length :=
        ⟨Nat.le_of_succ_le_succ hfits.1, fun hlt => hfits.2 (Nat.succ_lt_succ hlt)⟩
      rcases h.1 with ⟨t', ht', honly⟩ | ⟨-, hnone⟩
      · obtain rfl := (honly t).mp List.mem_cons_self
        exact .item ht' (ih hnames hfits hrest)
      · exact absurd List.mem_cons_self (hnone t)

theorem nodup_zip {names : List String} (hnames : names.Nodup) :
    ((names.zip items).map Prod.fst).Nodup := by
  rw [List.zip_eq_zip_take_min, List.map_fst_zip (by simp)]
  exact hnames.sublist (List.take_sublist _ _)

end Lists

section Compounds
variable {τ : Type} [Compound α τ]

theorem Compound.differInName (v : τ) : DifferInName (fields v : List (Field α)) := by
  have hnames : ((fields v : List (Field α)).map Field.name).Nodup := by
    rw [map_name]
    exact nodup
  exact (List.pairwise_map.mp hnames).imp fun hne => hne.symm

theorem Compound.length_names (v : τ) :
    (names α τ).length = (fields v : List (Field α)).length := by
  rw [← map_name v, List.length_map]

variable [Stored α τ]

/-- A compound is read when each of its fields is found. -/
class ReadByFields (α τ : Type) [Stored α τ] [Compound α τ] : Prop where
  read?_iff {t : Tree α} {v : τ} : read? t = some v ↔
    ∃ entries, t.fields? (Compound.names α τ) (Compound.mayEnd α τ) = some entries ∧
      ∀ f ∈ Compound.fields v, f.FoundIn entries

theorem ReadByFields.of_reader {reader : List (String × Tree α) → Option τ}
    (hread : ∀ t : Tree α,
      read? t = (t.fields? (Compound.names α τ) (Compound.mayEnd α τ)).bind reader)
    (hreader : ∀ (entries : List (String × Tree α)) (v : τ),
      reader entries = some v ↔ (Compound.fields v).Forall (·.FoundIn entries)) :
    ReadByFields α τ where
  read?_iff {t v} := by
    rw [hread, Option.bind_eq_some_iff]
    refine exists_congr fun entries => and_congr_right fun _ => ?_
    rw [hreader, List.forall_iff_forall_mem]

/-- A compound of two fields, both required. -/
theorem ReadByFields.of_two {σ υ : Type} [Stored α σ] [Spelled α σ] [ReadAsSpelled α σ]
    [Stored α υ] [Spelled α υ] [ReadAsSpelled α υ] {first second : String}
    {make : σ → υ → τ} {a : τ → σ} {b : τ → υ}
    (hread : ∀ t : Tree α, read? t =
      (t.fields? (Compound.names α τ) (Compound.mayEnd α τ)).bind fun entries =>
        (Tree.required? entries first).bind fun x =>
          (Tree.required? entries second).bind fun y => some (make x y))
    (hfields : ∀ v : τ, Compound.fields v =
      [(.required first (a v) : Field α), .required second (b v)])
    (hmake : ∀ v : τ, make (a v) (b v) = v)
    (hfirst : ∀ (x : σ) (y : υ), a (make x y) = x)
    (hsecond : ∀ (x : σ) (y : υ), b (make x y) = y) : ReadByFields α τ := by
  refine .of_reader hread fun entries v => ?_
  simp only [hfields, Option.bind_eq_some_iff, Option.some.injEq, Field.required?_eq_some_iff]
  constructor
  · rintro ⟨x, hx, y, hy, rfl⟩
    rw [hfirst, hsecond]
    exact ⟨hx, hy⟩
  · rintro ⟨hx, hy⟩
    exact ⟨_, hx, _, hy, hmake v⟩

variable [ReadByFields α τ]

instance : ReadAsSpelled α τ where
  read?_of_spells {t v} h := by
    have hnames := Compound.differInName (α := α) v
    rw [ReadByFields.read?_iff]
    cases h with
    | record given foreign order =>
      refine ⟨_, rfl, fun f hf => Field.SpelledIn.foundIn ?_⟩
      refine (given.spelledIn hnames f hf).congr fun t => ?_
      rw [order.mem_iff, List.mem_append, or_iff_left]
      exact fun hmem => foreign _ hmem f hf rfl
    | list listed =>
      refine ⟨_, fields?_list.mpr ⟨?_, rfl⟩, fun f hf => Field.SpelledIn.foundIn ?_⟩
      · rw [Compound.length_names v]
        exact listed.fits
      · rw [← Compound.map_name v]
        exact listed.spelledIn hnames f hf
  spells_of_read? {t v} ht h := by
    have hnames := Compound.differInName (α := α) v
    obtain ⟨entries, hentries, hfound⟩ := ReadByFields.read?_iff.mp h
    cases ht with
    | record hdistinct htrees =>
      cases hentries
      obtain ⟨known, unknown, given, foreign, order⟩ :=
        exists_given hnames hdistinct fun f hf => (hfound f hf).spelledIn hdistinct htrees
      exact .record given foreign order
    | list htrees =>
      obtain ⟨hfits, rfl⟩ := fields?_list.mp hentries
      rw [Compound.length_names v] at hfits
      refine .list (listed_of_spelledIn hnames hfits fun f hf => ?_)
      rw [Compound.map_name]
      refine (hfound f hf).spelledIn (nodup_zip Compound.nodup) ?_
      exact fun entry hentry => htrees _ (List.of_mem_zip hentry).2
    | _ => contradiction

/-- A record without one of the given fields is no value, nor is a list of more or fewer fields. -/
structure MissingIsError (α τ : Type) [Stored α τ] (names : List String) (count : ℕ) : Prop where
  record : ∀ name ∈ names, ∀ entries : List (String × Tree α), (∀ t, (name, t) ∉ entries) →
    (read? (.record entries) : Option τ) = none
  list : ∀ items : List (Tree α), items.length ≠ count → (read? (.list items) : Option τ) = none

theorem missingIsError {names : List String}
    (hnames : ∀ name ∈ names, ∀ v : τ, ∃ f ∈ (Compound.fields v : List (Field α)),
      f.name = name ∧ f.missing = none)
    (hend : Compound.mayEnd α τ = false) :
    MissingIsError α τ names (Compound.names α τ).length where
  record name hname entries hentries := by
    rw [Option.eq_none_iff_forall_ne_some]
    intro v hv
    obtain ⟨entries', hentries', hfound⟩ := ReadByFields.read?_iff.mp hv
    cases hentries'
    obtain ⟨f, hf, rfl, hmissing⟩ := hnames name hname v
    rcases hfound f hf with ⟨t, ht, -⟩ | ⟨-, hmiss⟩
    · exact hentries t (mem_of_lookup ht)
    · rw [Field.MayMiss, hmissing] at hmiss
      contradiction
  list items hitems := by
    rw [Option.eq_none_iff_forall_ne_some]
    intro v hv
    obtain ⟨entries, hentries, -⟩ := ReadByFields.read?_iff.mp hv
    obtain ⟨⟨hle, hlt⟩, -⟩ := fields?_list.mp hentries
    have hended := hlt (by omega)
    rw [hend] at hended
    contradiction

end Compounds

end PenStroke
