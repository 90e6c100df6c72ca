import PenStroke.Smoothing.Canvas

/-! Canvases put one after the other. Drawing a command or giving a notice adds a canvas that holds
nothing else. -/
namespace PenStroke

variable {α : Type}

theorem Path.ext_toList {path path' : Path α} (h : path.toList = path'.toList) : path = path' := by
  obtain ⟨commands⟩ := path
  obtain ⟨commands'⟩ := path'
  obtain rfl : commands = commands' := Array.toList_inj.mp h
  rfl

theorem Path.figureCount_eq (path : Path α) :
    path.figureCount = path.toList.countP Command.isStroke :=
  Array.countP_toList.symm

namespace Canvas

/-- The canvas with the given commands and notices. -/
def of (commands : List (Command α)) (notices : List (Notice α)) : Canvas α :=
  ⟨.ofList commands, notices.toArray⟩

instance : Append (Canvas α) := ⟨fun c d => ⟨c.path ++ d.path, c.notices ++ d.notices⟩⟩

@[simp] theorem path_append (c d : Canvas α) : (c ++ d).path = c.path ++ d.path := rfl

@[simp] theorem notices_append (c d : Canvas α) : (c ++ d).notices = c.notices ++ d.notices := rfl

@[simp] theorem toList_path_of (cs : List (Command α)) (ns : List (Notice α)) :
    (of cs ns).path.toList = cs := rfl

@[simp] theorem toList_notices_of (cs : List (Command α)) (ns : List (Notice α)) :
    (of cs ns).notices.toList = ns := rfl

theorem ext_toList {c d : Canvas α} (hp : c.path.toList = d.path.toList)
    (hn : c.notices.toList = d.notices.toList) : c = d := by
  obtain ⟨path, notices⟩ := c
  obtain ⟨path', notices'⟩ := d
  obtain rfl : path = path' := Path.ext_toList hp
  obtain rfl : notices = notices' := Array.toList_inj.mp hn
  rfl

@[simp] theorem of_nil : of ([] : List (Command α)) [] = {} := rfl

@[simp] theorem append_empty (c : Canvas α) : c ++ ({} : Canvas α) = c := by
  apply ext_toList <;> simp

@[simp] theorem empty_append (c : Canvas α) : ({} : Canvas α) ++ c = c := by
  apply ext_toList <;> simp

@[simp] theorem append_of_append_of (c : Canvas α) (cs ds : List (Command α))
    (ns ms : List (Notice α)) : c ++ of cs ns ++ of ds ms = c ++ of (cs ++ ds) (ns ++ ms) := by
  apply ext_toList <;> simp

section Commands
variable (c : Canvas α) (p q r : Point α)

@[simp] theorem moveTo_eq : c.moveTo p = c ++ of [.moveTo p] [] := by
  apply ext_toList <;> simp [moveTo, draw]

@[simp] theorem lineTo_eq : c.lineTo p = c ++ of [.lineTo p] [] := by
  apply ext_toList <;> simp [lineTo, draw]

@[simp] theorem curveTo_eq : c.curveTo p q r = c ++ of [.curveTo p q r] [] := by
  apply ext_toList <;> simp [curveTo, draw]

@[simp] theorem stroke_eq : c.stroke = c ++ of [.stroke] [] := by
  apply ext_toList <;> simp [stroke, draw]

@[simp] theorem note_eq (n : Notice α) : c.note n = c ++ of [] [n] := by
  apply ext_toList <;> simp [note]

end Commands

end Canvas

end PenStroke
