import PenStroke.Output.Appearance
import PenStroke.Proofs.ContentStream

/-! The state of the graphics has two or three lines, which can be read again in
front of a path. -/
namespace PenStroke

open Writing (put put_append put_empty spaced)

section Reading

/-- The operators that set a color, by the number of components. -/
def colorOperators : List (ℕ × String) := [(1, "G"), (3, "RG"), (4, "K")]

/-- Reads the components of a color in front of the operator for as many. -/
def readColor? (line : List Char) : Option (List String) :=
  let words := (line.splitOn ' ').map String.ofList
  let components := words.dropLast
  if words.getLast?.any fun operator => (components.length, operator) ∈ colorOperators then
    some components
  else none

def readWidth? (line : List Char) : Option String :=
  match line.splitOn ' ' with
  | [width, ['w']] => some (.ofList width)
  | _ => none

/-- Reads the lengths of a dash pattern, after the opening bracket. -/
def readDash? (line : List Char) : Option (List String) :=
  match line.splitOn ']' with
  | [lengths, [' ', '0', ' ', 'd']] =>
    some (if lengths = [] then [] else (lengths.splitOn ' ').map .ofList)
  | _ => none

/-- Reads the state of the graphics from the first lines; the other lines are left. -/
def Style.ofLines? : List (List Char) → Option (Style String × List (List Char))
  | color :: width :: rest => do
    let color ← readColor? color
    let width ← readWidth? width
    match rest with
    | ('[' :: dash) :: rest =>
      let dash ← readDash? dash
      return (⟨color, width, some dash⟩, rest)
    | rest => return (⟨color, width, none⟩, rest)
  | _ => none

end Reading

section Lines
variable {ss : List String}

theorem readColor?_intercalate (hblank : ∀ s ∈ ss, ' ' ∉ s.toList) {operator : String}
    (h : (ss.length, operator) ∈ colorOperators) :
    readColor? (" ".intercalate (ss ++ [operator])).toList = some ss := by
  have hoperator : ' ' ∉ operator.toList := by
    have hall : ∀ p ∈ colorOperators, ' ' ∉ p.2.toList := by simp [colorOperators]
    exact hall _ h
  have hsplit : (" ".intercalate (ss ++ [operator])).toList.splitOn ' ' =
      (ss ++ [operator]).map String.toList := by
    rw [String.toList_intercalate]
    refine List.splitOn_intercalate _ (List.forall_mem_map.mpr ?_) (by simp)
    exact List.forall_mem_append.mpr ⟨hblank, by simpa using hoperator⟩
  rw [readColor?, hsplit, List.map_map]
  simp [Function.comp_def, h]

theorem readWidth?_append {width : String} (hblank : ' ' ∉ width.toList) :
    readWidth? (width ++ " w").toList = some width := by
  have hsplit : (width ++ " w").toList.splitOn ' ' = [width.toList, ['w']] := by
    rw [String.toList_append]
    exact List.splitOn_append_cons_self_of_not_mem hblank ['w']
  rw [readWidth?, hsplit]
  simp

/-- An empty pattern is told from one with a length, which has a numeral. -/
theorem readDash?_append (hblank : ∀ s ∈ ss, ' ' ∉ s.toList) (hbracket : ∀ s ∈ ss, ']' ∉ s.toList)
    (hne : ∀ s ∈ ss, s ≠ "") : readDash? (" ".intercalate ss ++ "] 0 d").toList = some ss := by
  have hsplit : (" ".intercalate ss ++ "] 0 d").toList.splitOn ']' =
      [[' '].intercalate (ss.map String.toList), [' ', '0', ' ', 'd']] := by
    have hinside : ']' ∉ [' '].intercalate (ss.map String.toList) :=
      not_mem_intercalate (by decide) (List.forall_mem_map.mpr hbracket)
    rw [String.toList_append, String.toList_intercalate]
    exact List.splitOn_append_cons_self_of_not_mem hinside [' ', '0', ' ', 'd']
  rw [readDash?, hsplit]
  cases ss with
  | nil => rfl
  | cons s ss =>
    have hread : ([' '].intercalate ((s :: ss).map String.toList)).splitOn ' ' =
        (s :: ss).map String.toList :=
      List.splitOn_intercalate _ (List.forall_mem_map.mpr hblank) (by simp)
    have hinside : [' '].intercalate ((s :: ss).map String.toList) ≠ [] := by
      intro hnil
      rw [hnil, List.splitOn_nil, List.map_cons] at hread
      exact hne s List.mem_cons_self (String.toList_eq_nil_iff.mp (List.cons.inj hread).1.symm)
    change some (if _ then _ else _) = _
    rw [if_neg hinside, hread, List.map_map]
    simp [Function.comp_def]

end Lines

theorem intercalate_concat (ss : List String) (t : String) :
    " ".intercalate (ss ++ [t]) = String.join (ss.map (· ++ " ")) ++ t := by
  induction ss with
  | nil => simp
  | cons s ss ih =>
    rw [List.cons_append, String.intercalate_cons_of_ne_nil (by simp), ih, List.map_cons,
      String.join_cons, ← String.append_assoc]

namespace Style

def map {α β : Type} (f : α → β) (style : Style α) : Style β :=
  ⟨style.color.map f, f style.width, style.dash.map (List.map f)⟩

theorem map_map {α β γ : Type} (f : α → β) (g : β → γ) (style : Style α) :
    (style.map f).map g = style.map (g ∘ f) := by
  simp [map, Function.comp_def]

variable {α : Type} [Scalar α]

omit [Scalar α] in
theorem colorOperator?_eq_some_iff {style : Style α} {operator : String} :
    style.colorOperator? = some operator ↔ (style.color.length, operator) ∈ colorOperators := by
  unfold colorOperator? colorOperators
  split <;> simp_all [eq_comm]

variable [Numeral α]

/-- The lines of the state: the color with its operator, the width and, if there is one, the dash
pattern. -/
def stateLines (style : Style α) (operator : String) : List String :=
  " ".intercalate (style.color.map streamNumeral ++ [operator]) ::
    (streamNumeral style.width ++ " w") ::
      (style.dash.map fun lengths =>
        "[" ++ " ".intercalate (lengths.map streamNumeral) ++ "] 0 d").toList

/-- The text of the state, each line with its end. -/
def stateText (style : Style α) (operator : String) : String :=
  String.join ((style.stateLines operator).map (· ++ "\n"))

theorem toList_stateText (style : Style α) (operator : String) :
    (style.stateText operator).toList =
      ((style.stateLines operator).map String.toList).flatMap (· ++ ['\n']) := by
  rw [stateText, String.toList_join, List.flatMap_map, List.flatMap_map]
  simp

theorem writeDash_eq (isFirst : Bool) (lengths : List α) :
    writeDash isFirst lengths = put (spaced isFirst (lengths.map streamNumeral)) := by
  induction lengths generalizing isFirst with
  | nil => exact put_empty.symm
  | cons len lengths ih =>
    rw [writeDash, ih]
    exact Writing.put_spaced isFirst _ _

theorem writeColor_eq (color : List α) : (color.forM fun c => do putNumber c; put " ") =
    put (String.join ((color.map streamNumeral).map (· ++ " "))) := by
  have hput : (fun c : α => do putNumber c; put " ") = fun c => put (streamNumeral c ++ " ") :=
    funext fun c => put_append _ _
  rw [hput, Writing.forM_put, List.map_map]
  rfl

theorem writeGraphicsState_eq (style : Style α) (operator : String) :
    style.writeGraphicsState operator = put (style.stateText operator) := by
  obtain ⟨color, width, dash⟩ := style
  rw [writeGraphicsState, writeColor_eq]
  cases dash with
  | none =>
    simp only [putNumber, ← put_empty, put_append]
    simp [stateText, stateLines, intercalate_concat, String.append_assoc]
  | some lengths =>
    simp only [putNumber, writeDash_eq, Writing.spaced_true, put_append]
    simp [stateText, stateLines, intercalate_concat, String.append_assoc]

/-- The characters of the lines are those of the numerals, the operators and the marks. -/
theorem not_mem_stateLines {a : Char} (ha : a ∉ [' ', 'w', '[', ']', '0', 'd', 'G', 'R', 'K'])
    (hf : ∀ x : α, a ∉ (streamNumeral x).toList) {style : Style α} {operator : String}
    (h : style.colorOperator? = some operator) :
    ∀ l ∈ (style.stateLines operator).map String.toList, a ∉ l := by
  simp only [List.mem_cons, List.not_mem_nil, or_false, not_or] at ha
  have hnumerals (xs : List α) : ∀ s ∈ xs.map streamNumeral, a ∉ s.toList :=
    List.forall_mem_map.mpr fun x _ => hf x
  have hjoined {ss : List String} (hss : ∀ s ∈ ss, a ∉ s.toList) :
      a ∉ (" ".intercalate ss).toList := by
    rw [String.toList_intercalate]
    exact not_mem_intercalate (by simpa using ha.1) (List.forall_mem_map.mpr hss)
  have hoperator : a ∉ operator.toList := by
    have hall : ∀ p ∈ colorOperators, a ∉ p.2.toList := by simp [colorOperators, ha]
    exact hall _ (colorOperator?_eq_some_iff.mp h)
  have hcolor : a ∉ (" ".intercalate (style.color.map streamNumeral ++ [operator])).toList :=
    hjoined (List.forall_mem_append.mpr ⟨hnumerals _, by simpa using hoperator⟩)
  rw [stateLines]
  cases style.dash with
  | none => simpa [hf, ha] using hcolor
  | some lengths => simpa [hf, ha] using And.intro hcolor (hjoined (hnumerals lengths))

section Legible
variable (hfree : ∀ (x : α), ∀ c ∈ [' ', '\n', '[', ']'], c ∉ (numeral x).toList)
include hfree

theorem ofLines?_stateLines (hne : ∀ x : α, numeral x ≠ "") {style : Style α} {operator : String}
    (h : style.colorOperator? = some operator) {rest : List (List Char)}
    (hrest : ∀ l ∈ rest, '[' ∉ l) :
    ofLines? ((style.stateLines operator).map String.toList ++ rest) =
      some (style.map streamNumeral, rest) := by
  have hblank (xs : List α) : ∀ s ∈ xs.map streamNumeral, ' ' ∉ s.toList :=
    List.forall_mem_map.mpr fun x _ => hfree _ _ (by decide)
  have hbracket (xs : List α) : ∀ s ∈ xs.map streamNumeral, ']' ∉ s.toList :=
    List.forall_mem_map.mpr fun x _ => hfree _ _ (by decide)
  have hnonempty (xs : List α) : ∀ s ∈ xs.map streamNumeral, s ≠ "" :=
    List.forall_mem_map.mpr fun x _ => hne _
  have hcount : ((style.color.map streamNumeral).length, operator) ∈ colorOperators := by
    rw [List.length_map]
    exact colorOperator?_eq_some_iff.mp h
  have hcolor := readColor?_intercalate (hblank style.color) hcount
  have hwidth : readWidth? (streamNumeral style.width ++ " w").toList = _ :=
    readWidth?_append (hfree _ _ (by decide))
  obtain ⟨color, width, dash⟩ := style
  cases dash with
  | none =>
    -- A line of the path does not begin like a dash pattern.
    have hother : ∀ dash rest', rest ≠ ('[' :: dash) :: rest' := by
      rintro dash rest' rfl
      exact hrest _ List.mem_cons_self List.mem_cons_self
    simp only [stateLines, Option.map_none, Option.toList_none, List.map_cons, List.map_nil,
      List.cons_append, List.nil_append, ofLines?, hcolor, hwidth, Option.bind_eq_bind,
      Option.bind_some]
    rfl
  | some lengths =>
    have hdash := readDash?_append (hblank lengths) (hbracket lengths) (hnonempty lengths)
    have hline : ("[" ++ " ".intercalate (lengths.map streamNumeral) ++ "] 0 d").toList =
        '[' :: (" ".intercalate (lengths.map streamNumeral) ++ "] 0 d").toList := by
      simp
    simp only [stateLines, Option.map_some, Option.toList_some, List.map_cons, List.map_nil,
      List.cons_append, List.nil_append, hline, ofLines?, hcolor, hwidth, hdash,
      Option.bind_eq_bind, Option.bind_some]
    rfl

end Legible

end Style

/-- Reads a content stream: the state of the graphics, then the operators of a path. -/
def readStream? (text : String) : Option (Style String × List (Command String)) :=
  let lines := text.toList.splitOn '\n'
  if lines.getLast? = some [] then do
    let (style, rest) ← Style.ofLines? lines.dropLast
    let commands ← rest.mapM Command.ofLine?
    return (style, commands)
  else none

section Legible
variable {α : Type} [Scalar α] [Numeral α]

theorem readStream?_append (hfree : ∀ (x : α), ∀ c ∈ [' ', '\n', '[', ']'], c ∉ (numeral x).toList)
    (hne : ∀ x : α, numeral x ≠ "") {style : Style α} {operator : String}
    (h : style.colorOperator? = some operator) (path : Path α) :
    readStream? (style.stateText operator ++ path.operators) =
      some (style.map streamNumeral, path.toList.map (Command.map streamNumeral)) := by
  have hblank : ∀ (x : α), ∀ c ∈ [' ', '\n'], c ∉ (numeral x).toList := fun x c hc =>
    hfree x c (List.mem_append_left ['[', ']'] hc)
  have hlines : (style.stateText operator ++ path.operators).toList =
      ((style.stateLines operator).map String.toList ++ path.toList.map Command.line).flatMap
        (· ++ ['\n']) := by
    rw [String.toList_append, style.toList_stateText, path.toList_operators, List.flatMap_append]
  have hstate := Style.not_mem_stateLines (by decide) (fun x => hfree _ '\n' (by decide)) h
  have hnewline := List.forall_mem_append.mpr
    ⟨hstate, Command.newline_not_mem_line hblank path.toList⟩
  have hbracket : ∀ l ∈ path.toList.map Command.line, '[' ∉ l :=
    List.forall_mem_map.mpr fun c _ => c.not_mem_line (by decide) fun x => hfree _ _ (by decide)
  rw [readStream?, hlines, splitOn_flatMap_concat hnewline, List.getLast?_concat, if_pos rfl,
    List.dropLast_concat, Style.ofLines?_stateLines hfree hne h hbracket]
  simp only [Option.bind_eq_bind, Option.bind_some, Command.mapM_ofLine? hblank]
  rfl

end Legible

end PenStroke
