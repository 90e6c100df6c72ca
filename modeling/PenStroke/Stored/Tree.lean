import PenStroke.Scalar

/-!
The stored form of values: trees of lists and records with plain leaves. A compound is written as a
record of its fields, and read from a record with its fields in any order and others between them,
or from a list of its fields in their own order.
-/

namespace PenStroke

inductive Tree (α : Type) where
  | null
  | flag (b : Bool)
  /-- A number written as a natural number. -/
  | natural (n : Nat)
  /-- Any other number. -/
  | number (x : α)
  | text (s : String)
  | list (items : List (Tree α))
  | record (fields : List (String × Tree α))

class Stored (α τ : Type) where
  write : τ → Tree α
  read? : Tree α → Option τ

export Stored (write read?)

namespace Tree

variable {α τ : Type}

/-- The fields of a compound by name. A list gives them the names of their places; it must not be
longer than there are names, and no shorter either unless it may end early. -/
def fields? (names : List String) (mayEnd : Bool) : Tree α → Option (List (String × Tree α))
  | .record fields => some fields
  | .list items =>
    if items.length = names.length || mayEnd && items.length < names.length then
      some (names.zip items)
    else none
  | _ => none

def required? [Stored α τ] (fields : List (String × Tree α)) (name : String) : Option τ :=
  (fields.lookup name).bind read?

/-- Reads a field that has a value of its own when it is missing. -/
def optional? [Stored α τ] (fields : List (String × Tree α)) (name : String) (missing : τ) :
    Option τ :=
  match fields.lookup name with
  | none => some missing
  | some t => read? t

/-- The name of a variant and what it holds: nothing if it stands alone. -/
def variant? : Tree α → Option (String × Option (Tree α))
  | .text name => some (name, none)
  | .record [(name, content)] => some (name, some content)
  | _ => none

/-- A variant that holds something. -/
def ofVariant (name : String) (content : Tree α) : Tree α := .record [(name, content)]

end Tree

namespace Stored

variable {α τ : Type}

instance : Stored α Bool where
  write := .flag
  read?
    | .flag b => some b
    | _ => none

instance : Stored α Nat where
  write := .natural
  read?
    | .natural n => some n
    | _ => none

/-- A scalar is read from any number. One that is not finite is no number of a tree, and is written
as null. -/
instance [Scalar α] : Stored α α where
  write x := if Scalar.isFinite x then .number x else .null
  read?
    | .natural n => some (n : α)
    | .number x => some x
    | _ => none

instance [Stored α τ] : Stored α (List τ) where
  write items := .list (items.map write)
  read?
    | .list items => items.mapM read?
    | _ => none

/-- Null stands for an absent value. -/
instance [Stored α τ] : Stored α (Option τ) where
  write
    | none => .null
    | some v => write v
  read?
    | .null => some none
    | t => (read? t).map some

end Stored

end PenStroke
