import PenStroke.Output.ContentStream
import PenStroke.Proofs.Numerals
import PenStroke.Proofs.Writing

/-! Content streams can be read again: the commands come back with the
numbers that were written. -/
namespace PenStroke

section Commands
variable {α β γ : Type}

namespace Point

def map (f : α → β) (p : Point α) : Point β := ⟨f p.x, f p.y⟩

def Agrees (r : α → β → Prop) (p : Point α) (q : Point β) : Prop := r p.x q.x ∧ r p.y q.y

end Point

namespace Command

def map (f : α → β) : Command α → Command β
  | .moveTo p => .moveTo (p.map f)
  | .lineTo p => .lineTo (p.map f)
  | .curveTo first second p => .curveTo (first.map f) (second.map f) (p.map f)
  | .stroke => .stroke

/-- The same command with coordinates that are related. -/
def Agrees (r : α → β → Prop) : Command α → Command β → Prop
  | .moveTo p, .moveTo q | .lineTo p, .lineTo q => p.Agrees r q
  | .curveTo first second p, .curveTo first' second' q =>
    first.Agrees r first' ∧ second.Agrees r second' ∧ p.Agrees r q
  | .stroke, .stroke => True
  | _, _ => False

theorem map_map (f : α → β) (g : β → γ) (c : Command α) : (c.map f).map g = c.map (g ∘ f) := by
  cases c <;> rfl

@[simp] theorem map_id (c : Command α) : c.map id = c := by
  cases c <;> rfl

theorem agrees_iff_map_eq (f : α → β) (c d : Command α) :
    c.Agrees (fun x y => f x = f y) d ↔ c.map f = d.map f := by
  cases c <;> cases d <;> simp [Agrees, map, Point.Agrees, Point.map]

theorem forall₂_agrees_iff (f : α → β) (cs ds : List (Command α)) :
    List.Forall₂ (Agrees fun x y => f x = f y) cs ds ↔ cs.map (map f) = ds.map (map f) := by
  rw [← List.forall₂_eq_eq_eq, List.forall₂_map_left_iff, List.forall₂_map_right_iff]
  constructor
  · exact .imp fun c d => (agrees_iff_map_eq f c d).mp
  · exact .imp fun c d => (agrees_iff_map_eq f c d).mpr

end Command

end Commands

section Text

/-- The fields of an operator with its operands, from texts in place of coordinates. -/
def Command.fields : Command String → List String
  | .moveTo p => [p.x, p.y, "m"]
  | .lineTo p => [p.x, p.y, "l"]
  | .curveTo first second p => [first.x, first.y, second.x, second.y, p.x, p.y, "c"]
  | .stroke => ["S"]

def Command.ofFields? : List String → Option (Command String)
  | [x, y, "m"] => some (.moveTo ⟨x, y⟩)
  | [x, y, "l"] => some (.lineTo ⟨x, y⟩)
  | [x₁, y₁, x₂, y₂, x, y, "c"] => some (.curveTo ⟨x₁, y₁⟩ ⟨x₂, y₂⟩ ⟨x, y⟩)
  | ["S"] => some .stroke
  | _ => none

theorem Command.ofFields?_fields (c : Command String) : ofFields? c.fields = some c := by
  cases c <;> simp [fields, ofFields?]

/-- The characters of a line other than the blanks are those of the numerals and the operator. -/
theorem Command.not_mem_fields {α : Type} {f : α → String} {a : Char}
    (ha : a ∉ ['m', 'l', 'c', 'S']) (hf : ∀ x, a ∉ (f x).toList) (c : Command α) :
    ∀ s ∈ (c.map f).fields, a ∉ s.toList := by
  simp only [List.mem_cons, List.not_mem_nil, or_false, not_or] at ha
  cases c <;> simp [Command.map, Point.map, fields, hf, ha]

/-- Reads a line of fields with single blanks between them. -/
def Command.ofLine? (line : List Char) : Option (Command String) :=
  ofFields? ((line.splitOn ' ').map .ofList)

/-- Reads lines of operators, each ended by a newline. -/
def readOperators? (text : String) : Option (List (Command String)) :=
  let lines := text.toList.splitOn '\n'
  if lines.getLast? = some [] then lines.dropLast.mapM Command.ofLine? else none

theorem splitOn_flatMap_concat {a : Char} {lines : List (List Char)} (h : ∀ l ∈ lines, a ∉ l) :
    (lines.flatMap (· ++ [a])).splitOn a = lines ++ [[]] := by
  induction lines with
  | nil => rfl
  | cons l ls ih =>
    rw [List.forall_mem_cons] at h
    rw [List.flatMap_cons, List.append_assoc, List.singleton_append,
      List.splitOn_append_cons_self_of_not_mem h.1, ih h.2, List.cons_append]

theorem not_mem_intercalate {a : Char} {sep : List Char} (hsep : a ∉ sep) {ls : List (List Char)}
    (h : ∀ l ∈ ls, a ∉ l) : a ∉ sep.intercalate ls := by
  match ls with
  | [] => simp
  | [l] => simpa using h
  | l :: l' :: ls =>
    rw [List.forall_mem_cons] at h
    rw [List.intercalate_cons_cons, List.mem_append, List.mem_append]
    have htail := not_mem_intercalate hsep h.2
    tauto

end Text

section Numerals
variable {α : Type} [Scalar α] [Numeral α]

/-- A command on a line of its own. -/
def Command.operatorLine (c : Command α) : String :=
  " ".intercalate (c.map streamNumeral).fields ++ "\n"

open Writing (put put_append)

theorem putPoint_eq (p : Point α) :
    putPoint p = put (streamNumeral p.x ++ " " ++ streamNumeral p.y) := by
  rw [← put_append, ← put_append, bind_assoc]
  rfl

theorem Command.writeOperator_eq (c : Command α) : c.writeOperator = put c.operatorLine := by
  cases c <;>
    simp [writeOperator, putPoint_eq, put_append, operatorLine, Command.map, fields, Point.map,
      String.append_assoc]

namespace Command

/-- The characters of a command's line. -/
def line (c : Command α) : List Char :=
  [' '].intercalate ((c.map streamNumeral).fields.map String.toList)

theorem toList_operatorLine (c : Command α) : c.operatorLine.toList = c.line ++ ['\n'] := by
  simp [operatorLine, line]

theorem not_mem_line {a : Char} (ha : a ∉ [' ', 'm', 'l', 'c', 'S'])
    (hf : ∀ x : α, a ∉ (streamNumeral x).toList) (c : Command α) : a ∉ c.line := by
  rw [List.mem_cons, not_or] at ha
  refine not_mem_intercalate (by simpa using ha.1) ?_
  exact List.forall_mem_map.mpr (not_mem_fields ha.2 hf c)

variable (hfree : ∀ (x : α), ∀ c ∈ [' ', '\n'], c ∉ (numeral x).toList)
include hfree

theorem ofLine?_line (c : Command α) : ofLine? c.line = some (c.map streamNumeral) := by
  have hblank : ∀ l ∈ (c.map streamNumeral).fields.map String.toList, ' ' ∉ l :=
    List.forall_mem_map.mpr (not_mem_fields (by decide) (fun x => hfree _ _ (by decide)) c)
  have hne : (c.map streamNumeral).fields.map String.toList ≠ [] := by
    cases c <;> simp [Command.map, fields]
  rw [ofLine?, line, List.splitOn_intercalate _ hblank hne, List.map_map]
  simp [Function.comp_def, ofFields?_fields]

theorem mapM_ofLine? (cs : List (Command α)) :
    (cs.map line).mapM ofLine? = some (cs.map (Command.map streamNumeral)) := by
  have hread : ofLine? ∘ line = fun c : Command α => some (c.map streamNumeral) :=
    funext (ofLine?_line hfree)
  rw [List.mapM_map, hread]
  exact List.mapM_pure

theorem newline_not_mem_line (cs : List (Command α)) : ∀ l ∈ cs.map line, '\n' ∉ l :=
  List.forall_mem_map.mpr fun c _ => c.not_mem_line (by decide) fun _ => hfree _ _ (by decide)

end Command

namespace Path

theorem writeOperators_eq_join (path : Path α) :
    path.writeOperators = put (String.join (path.toList.map Command.operatorLine)) := by
  have hwrite : (Command.writeOperator : Command α → _) = fun c => put c.operatorLine :=
    funext Command.writeOperator_eq
  rw [writeOperators, hwrite, Writing.forM_put]

theorem operators_eq (path : Path α) :
    path.operators = String.join (path.toList.map Command.operatorLine) := by
  rw [operators, writeOperators_eq_join, Writing.text_put]

theorem writeOperators_eq (path : Path α) : path.writeOperators = put path.operators := by
  rw [writeOperators_eq_join, operators_eq]

theorem toList_operators (path : Path α) :
    path.operators.toList = (path.toList.map Command.line).flatMap (· ++ ['\n']) := by
  rw [operators_eq, String.toList_join, List.flatMap_map, List.flatMap_map]
  simp only [Command.toList_operatorLine]

theorem operators_append (path more : Path α) :
    (path ++ more).operators = path.operators ++ more.operators := by
  rw [operators_eq, toList_append, List.map_append, String.join_append, ← operators_eq,
    ← operators_eq]

theorem readOperators?_operators (hfree : ∀ (x : α), ∀ c ∈ [' ', '\n'], c ∉ (numeral x).toList)
    (path : Path α) :
    readOperators? path.operators = some (path.toList.map (Command.map streamNumeral)) := by
  rw [readOperators?, toList_operators,
    splitOn_flatMap_concat (Command.newline_not_mem_line hfree path.toList), List.getLast?_concat,
    if_pos rfl, List.dropLast_concat, Command.mapM_ofLine? hfree]

/-- Paths have the same text if and only if their commands agree in the numerals written. -/
theorem operators_eq_iff (hfree : ∀ (x : α), ∀ c ∈ [' ', '\n'], c ∉ (numeral x).toList)
    (path more : Path α) : path.operators = more.operators ↔
      List.Forall₂ (Command.Agrees fun x y => streamNumeral x = streamNumeral y)
        path.toList more.toList := by
  rw [Command.forall₂_agrees_iff]
  constructor
  · intro htext
    have hread := congrArg readOperators? htext
    rw [readOperators?_operators hfree, readOperators?_operators hfree] at hread
    exact Option.some.inj hread
  · intro hnumerals
    have hlines := congrArg (List.map fun c : Command String => " ".intercalate c.fields ++ "\n")
      hnumerals
    rw [List.map_map, List.map_map] at hlines
    rw [operators_eq, operators_eq]
    exact congrArg String.join hlines

end Path

end Numerals

section Doubles

open Binary64 (SameNumber)

variable [Numeral Float]

namespace Numeral.Legible
variable {reserved : List Char} (h : Legible reserved)
include h

theorem injective : Function.Injective (numeral : Float → String) := by
  intro x y hxy
  obtain rfl | ⟨hx, hy⟩ := h.distinct x y hxy
  · rfl
  · exact Binary64.eq_of_isNaN hx hy

theorem streamNumeral_eq_iff (x y : Float) : streamNumeral x = streamNumeral y ↔
    SameNumber (Scalar.roundTo 4 x) (Scalar.roundTo 4 y) := by
  rw [Binary64.sameNumber_iff (Binary64.parts_roundTo_ne 4 x) (Binary64.parts_roundTo_ne 4 y)]
  exact h.injective.eq_iff

end Numeral.Legible

/-- The text of a path has a line for each command. It can be read again, and what is read are the
commands with rounded coordinates; so paths with the same text agree after rounding. Joined paths
have joined texts. -/
theorem Path.operators_legible (h : Numeral.Legible [' ', '\n']) :
    (∀ path : Path Float,
      path.operators = String.join (path.toList.map Command.operatorLine) ∧
      readOperators? path.operators = some (path.toList.map (Command.map streamNumeral))) ∧
    (∃ value : String → Float, ∀ path : Path Float,
      (readOperators? path.operators).map (List.map (Command.map value)) =
        some (path.toList.map (Command.map (Scalar.roundTo 4)))) ∧
    (∀ path more : Path Float, path.operators = more.operators ↔
      List.Forall₂ (Command.Agrees fun x y => SameNumber (Scalar.roundTo 4 x) (Scalar.roundTo 4 y))
        path.toList more.toList) ∧
    ∀ path more : Path Float, (path ++ more).operators = path.operators ++ more.operators := by
  refine ⟨fun path => ⟨path.operators_eq, path.readOperators?_operators h.free⟩, ?_,
    fun path more => ?_, fun path more => path.operators_append more⟩
  · obtain ⟨value, hvalue⟩ := h.injective.hasLeftInverse
    refine ⟨value, fun path => ?_⟩
    have hround : value ∘ streamNumeral = Scalar.roundTo 4 :=
      funext fun x => hvalue (Scalar.roundTo 4 x)
    rw [path.readOperators?_operators h.free, Option.map_some, List.map_map]
    simp only [Function.comp_def, Command.map_map] at hround ⊢
    rw [hround]
  · simp only [path.operators_eq_iff h.free, h.streamNumeral_eq_iff]

end Doubles

/-- Strokes where none is due, and coordinates that are undefined, infinite or a negative zero. -/
theorem Path.operators_legible_malformed :
    Numeral.Legible [' ', '\n'] ∧
    (let path : Path Float := .ofList [.stroke, .lineTo ⟨0 / 0, 1 / 0⟩, .stroke, .stroke,
      .curveTo ⟨1 / 3, -0⟩ ⟨1e-9, 5⟩ ⟨1e300, -2⟩]
    path.operators = String.join (path.toList.map Command.operatorLine) ∧
      readOperators? path.operators = some (path.toList.map (Command.map streamNumeral))) :=
  have h : Numeral.Legible [' ', '\n'] := Binary64.legible (by simp [Binary64.marks])
  ⟨h, (Path.operators_legible h).1 _⟩

end PenStroke
