import PenStroke.Output.Svg
import PenStroke.Proofs.ContentStream

/-! Path data can be read again: the drawing commands come back, whatever
strokes stand among them. -/
namespace PenStroke

open Writing (put put_append put_empty spaced)

theorem intercalate_flatten {sep : String} {ls : List (List String)} (h : ∀ l ∈ ls, l ≠ []) :
    sep.intercalate ls.flatten = sep.intercalate (ls.map sep.intercalate) := by
  match ls with
  | [] => rfl
  | [l] => simp
  | l :: l' :: ls =>
    rw [List.forall_mem_cons] at h
    have hne : (l' :: ls).flatten ≠ [] := by
      intro hnil
      exact h.2 l' List.mem_cons_self (List.flatten_eq_nil_iff.mp hnil l' List.mem_cons_self)
    rw [List.flatten_cons, String.intercalate_append_of_ne_nil h.1 hne, intercalate_flatten h.2,
      List.map_cons, List.map_cons, List.map_cons, String.intercalate_cons_cons]

theorem ends_intercalate {a : Char} {ls : List (List Char)} (h : ∀ l ∈ ls, l ≠ [] ∧ a ∉ l)
    (hls : ls ≠ []) : (∃ c ≠ a, ([a].intercalate ls).head? = some c) ∧
      ∃ c ≠ a, ([a].intercalate ls).getLast? = some c := by
  have hends {l : List Char} (hl : l ≠ [] ∧ a ∉ l) :
      (∃ c ≠ a, l.head? = some c) ∧ ∃ c ≠ a, l.getLast? = some c :=
    ⟨⟨l.head hl.1, fun h => hl.2 (h ▸ List.head_mem hl.1), List.head?_eq_some_head hl.1⟩,
      ⟨l.getLast hl.1, fun h => hl.2 (h ▸ List.getLast_mem hl.1),
        List.getLast?_eq_some_getLast hl.1⟩⟩
  match ls with
  | [l] => simpa using hends (h l List.mem_cons_self)
  | l :: l' :: ls =>
    rw [List.forall_mem_cons] at h
    obtain ⟨c, hc, hhead⟩ := (hends h.1).1
    obtain ⟨d, hd, hlast⟩ := (ends_intercalate h.2 (List.cons_ne_nil l' ls)).2
    rw [List.intercalate_cons_cons]
    refine ⟨⟨c, hc, ?_⟩, ⟨d, hd, ?_⟩⟩
    · rw [List.append_assoc, List.head?_append, hhead, Option.some_or]
    · rw [List.getLast?_append, hlast, Option.some_or]

section Reading

/-- The point that a word stands for, the coordinates as texts. -/
def Point.ofWord? (word : List Char) : Option (Point String) :=
  match word.splitOn ',' with
  | [x, y] => some ⟨.ofList x, .ofList y⟩
  | _ => none

/-- Reads words. A command begins with its letter, and a curve takes three words. -/
def Command.ofWords? : List (List Char) → Option (List (Command String))
  | [] => some []
  | ('M' :: p) :: rest => do
    let p ← Point.ofWord? p
    let commands ← ofWords? rest
    return .moveTo p :: commands
  | ('L' :: p) :: rest => do
    let p ← Point.ofWord? p
    let commands ← ofWords? rest
    return .lineTo p :: commands
  | ('C' :: first) :: second :: p :: rest => do
    let first ← Point.ofWord? first
    let second ← Point.ofWord? second
    let p ← Point.ofWord? p
    let commands ← ofWords? rest
    return .curveTo first second p :: commands
  | _ => none

/-- Reads words with single blanks between them. -/
def readPathData? (text : String) : Option (List (Command String)) :=
  if text = "" then some [] else Command.ofWords? (text.toList.splitOn ' ')

end Reading

section Numerals
variable {α : Type} [Numeral α]

namespace Command

/-- The words of a command; a stroke has none. -/
def words : Command α → List String
  | .moveTo p => ["M" ++ p.pathData]
  | .lineTo p => ["L" ++ p.pathData]
  | .curveTo first second p => ["C" ++ first.pathData, second.pathData, p.pathData]
  | .stroke => []

theorem words_ne_nil {c : Command α} (h : c.isStroke = false) : c.words ≠ [] := by
  cases c <;> simp_all [words, isStroke]

theorem intercalate_words {c : Command α} (h : c.isStroke = false) :
    " ".intercalate c.words = c.pathData := by
  cases c <;> simp_all [words, isStroke, pathData, String.append_assoc]

end Command

namespace Path

omit [Numeral α] in
theorem isStroke_drawing (path : Path α) : ∀ c ∈ path.drawing, c.isStroke = false := by
  intro c hc
  simpa using (List.mem_filter.mp hc).2

theorem writePathData_eq (isFirst : Bool) (cs : List (Command α)) : writePathData isFirst cs =
    put (spaced isFirst ((cs.filter (!·.isStroke)).map Command.pathData)) := by
  induction cs generalizing isFirst with
  | nil => exact put_empty.symm
  | cons c cs ih =>
    cases c with
    | stroke => exact ih isFirst
    | moveTo p | lineTo p | curveTo first second p =>
      rw [writePathData, ih]
      · exact Writing.put_spaced isFirst _ _
      · simp

theorem writeAsSvg_eq_intercalate (path : Path α) :
    path.writeAsSvg = put (" ".intercalate (path.drawing.map Command.pathData)) := by
  rw [writeAsSvg, writePathData_eq, Writing.spaced_true, drawing]

/-- The commands with single blanks between them. -/
theorem svg_eq (path : Path α) :
    path.svg = " ".intercalate (path.drawing.map Command.pathData) := by
  rw [svg, writeAsSvg_eq_intercalate, Writing.text_put]

theorem writeAsSvg_eq (path : Path α) : path.writeAsSvg = put path.svg := by
  rw [writeAsSvg_eq_intercalate, svg_eq]

/-- The words of all commands. -/
def words (path : Path α) : List (List Char) :=
  (path.drawing.flatMap Command.words).map String.toList

theorem forall_mem_words {p : List Char → Prop}
    (h : ∀ c : Command α, ∀ word ∈ c.words, p word.toList) (path : Path α) :
    ∀ l ∈ path.words, p l := by
  refine List.forall_mem_map.mpr fun word hword => ?_
  obtain ⟨c, -, hc⟩ := List.mem_flatMap.mp hword
  exact h c word hc

theorem words_ne_nil {path : Path α} (h : path.drawing ≠ []) : path.words ≠ [] := by
  obtain ⟨c, hc⟩ := List.exists_mem_of_ne_nil _ h
  rw [words, Ne, List.map_eq_nil_iff, List.flatMap_eq_nil_iff]
  exact fun hnil => Command.words_ne_nil (path.isStroke_drawing c hc) (hnil c hc)

theorem toList_svg (path : Path α) : path.svg.toList = [' '].intercalate path.words := by
  have hne : ∀ l ∈ path.drawing.map Command.words, l ≠ [] := by
    refine List.forall_mem_map.mpr fun c hc => ?_
    exact Command.words_ne_nil (path.isStroke_drawing c hc)
  have hwords : path.drawing.map Command.pathData =
      (path.drawing.map Command.words).map " ".intercalate := by
    rw [List.map_map]
    exact List.map_congr_left fun c hc =>
      (Command.intercalate_words (path.isStroke_drawing c hc)).symm
  rw [svg_eq, hwords, ← intercalate_flatten hne, ← List.flatMap_def, String.toList_intercalate]
  rfl

/-- Strokes leave no trace. -/
theorem svg_ofList_drawing (path : Path α) : (ofList path.drawing).svg = path.svg := by
  rw [svg_eq, svg_eq, drawing, toList_ofList, drawing, List.filter_filter]
  simp

end Path

namespace Command

/-- The characters of words other than the comma are those of the numerals and the letter. -/
theorem not_mem_words {a : Char} (ha : a ∉ [',', 'M', 'L', 'C'])
    (hf : ∀ x : α, a ∉ (numeral x).toList) (c : Command α) :
    ∀ word ∈ c.words, a ∉ word.toList := by
  simp only [List.mem_cons, List.not_mem_nil, or_false, not_or] at ha
  cases c <;> simp [words, Point.pathData, ha, hf]

theorem toList_ne_nil (c : Command α) : ∀ word ∈ c.words, word.toList ≠ [] := by
  cases c <;> simp [words, Point.pathData]

variable (hfree : ∀ (x : α), ∀ c ∈ [' ', ','], c ∉ (numeral x).toList)
include hfree

theorem ofWord?_pathData (p : Point α) :
    Point.ofWord? p.pathData.toList = some (p.map numeral) := by
  have hcomma (x : α) : ',' ∉ (numeral x).toList := hfree x _ (by decide)
  have hsplit : p.pathData.toList.splitOn ',' = [(numeral p.x).toList, (numeral p.y).toList] := by
    rw [Point.pathData, String.toList_append, String.toList_append, List.append_assoc]
    exact (List.splitOn_append_cons_self_of_not_mem (hcomma p.x) _).trans
      (congrArg _ (List.splitOn_eq_singleton (hcomma p.y)))
  rw [Point.ofWord?, hsplit]
  simp [Point.map]

theorem ofWords?_words {cs : List (Command α)} (h : ∀ c ∈ cs, c.isStroke = false) :
    ofWords? ((cs.flatMap words).map String.toList) = some (cs.map (Command.map numeral)) := by
  induction cs with
  | nil => rfl
  | cons c cs ih =>
    rw [List.forall_mem_cons] at h
    cases c with
    | stroke => cases h.1
    | moveTo p | lineTo p | curveTo first second p =>
      simp [words, ofWords?, ofWord?_pathData hfree, ih h.2, Command.map]

end Command

namespace Path

theorem not_mem_words {a : Char} (ha : a ∉ [',', 'M', 'L', 'C'])
    (hf : ∀ x : α, a ∉ (numeral x).toList) (path : Path α) : ∀ l ∈ path.words, a ∉ l :=
  path.forall_mem_words fun c => c.not_mem_words ha hf

section Readable
variable (hfree : ∀ (x : α), ∀ c ∈ [' ', ','], c ∉ (numeral x).toList)
include hfree

theorem blank_not_mem_words (path : Path α) : ∀ l ∈ path.words, ' ' ∉ l :=
  path.not_mem_words (by decide) fun x => hfree x ' ' (by decide)

theorem readPathData?_svg (path : Path α) :
    readPathData? path.svg = some (path.drawing.map (Command.map numeral)) := by
  have hread := Command.ofWords?_words hfree path.isStroke_drawing
  by_cases h : path.drawing = []
  · simp [readPathData?, svg_eq, h]
  · have hsplit : path.svg.toList.splitOn ' ' = path.words := by
      rw [toList_svg]
      exact List.splitOn_intercalate _ (path.blank_not_mem_words hfree) (words_ne_nil h)
    rw [← words, ← hsplit] at hread
    have hne : path.svg ≠ "" := by
      intro hempty
      rw [hempty] at hread
      cases hread
    rw [readPathData?, if_neg hne, hread]

theorem svg_ends (path : Path α) :
    path.svg.toList.head? ≠ some ' ' ∧ path.svg.toList.getLast? ≠ some ' ' := by
  by_cases h : path.drawing = []
  · simp [svg_eq, h]
  · have hne : ∀ l ∈ path.words, l ≠ [] := path.forall_mem_words fun c => c.toList_ne_nil
    have hwords : ∀ l ∈ path.words, l ≠ [] ∧ ' ' ∉ l :=
      fun l hl => ⟨hne l hl, path.blank_not_mem_words hfree l hl⟩
    obtain ⟨⟨c, hc, hhead⟩, d, hd, hlast⟩ := ends_intercalate hwords (words_ne_nil h)
    rw [toList_svg]
    exact ⟨fun hblank => hc (Option.some.inj (hhead.symm.trans hblank)),
      fun hblank => hd (Option.some.inj (hlast.symm.trans hblank))⟩

end Readable

end Path

end Numerals

/-- Path data are the drawing commands with single blanks between them; strokes leave no
trace. With a reader of coordinates they are read again, so paths with the same data
have the same drawing. -/
theorem Path.svg_legible (value : String → Float) (hvalue : Function.LeftInverse value numeral) :
    (∀ path : Path Float,
      path.svg = " ".intercalate (path.drawing.map Command.pathData) ∧
      path.svg.toList.head? ≠ some ' ' ∧ path.svg.toList.getLast? ≠ some ' ' ∧
      path.svg = (ofList path.drawing).svg ∧
      (readPathData? path.svg).map (List.map (Command.map value)) = some path.drawing) ∧
    ∀ path more : Path Float, path.svg = more.svg ↔ path.drawing = more.drawing := by
  have hlegible : Numeral.Legible [' ', ','] := Binary64.legible (by simp [Binary64.marks])
  have hfree := hlegible.free
  have hread (path : Path Float) :
      (readPathData? path.svg).map (List.map (Command.map value)) = some path.drawing := by
    have hid : (Command.map value ∘ Command.map numeral : Command Float → Command Float) = id := by
      funext c
      rw [Function.comp_apply, Command.map_map, hvalue.comp_eq_id, Command.map_id, id]
    rw [path.readPathData?_svg hfree, Option.map_some, List.map_map, hid, List.map_id]
  refine ⟨fun path => ⟨path.svg_eq, (path.svg_ends hfree).1, (path.svg_ends hfree).2,
    path.svg_ofList_drawing.symm, hread path⟩,
    fun path more => ⟨fun htext => ?_, fun hdrawing => ?_⟩⟩
  · have hsame :=
      congrArg (fun text => (readPathData? text).map (List.map (Command.map value))) htext
    exact Option.some.inj ((hread path).symm.trans (hsame.trans (hread more)))
  · rw [path.svg_eq, more.svg_eq, hdrawing]

/-- Strokes first, doubled and last, and coordinates that are undefined, infinite or a negative
zero. -/
theorem Path.svg_legible_strokes :
    Function.LeftInverse (Function.invFun numeral) (numeral : Float → String) ∧
    (let path : Path Float := .ofList [.stroke, .stroke, .moveTo ⟨0 / 0, -0⟩, .stroke, .stroke,
      .curveTo ⟨1 / 3, 1 / 0⟩ ⟨1e300, 5⟩ ⟨-1, 1e-9⟩, .stroke]
    (readPathData? path.svg).map (List.map (Command.map (Function.invFun numeral))) =
      some path.drawing) :=
  have h := Function.leftInverse_invFun Binary64.numeral_injective
  ⟨h, ((Path.svg_legible _ h).1 _).2.2.2.2⟩

end PenStroke
