/-!
What a drawing's text is made of. Numerals are how a coordinate is written in it. Sinks are text
that is written piece by piece, into a place that may be limited: a piece that does not fit is cut
off where the room ends, and with that the writing ends.
-/

namespace PenStroke

/-- A way to write values. -/
class Numeral (α : Type) where
  numeral : α → String

export Numeral (numeral)

/-- What has been written, and for how many more characters there is room; every character written
by this library takes one byte. -/
structure Sink where
  text : String := ""
  /-- Without a number there is room for anything. -/
  room : Option Nat := none

/-- The reason why writing ends early. -/
inductive Overflow where
  /-- There was no room for a piece. -/
  | overflow
  deriving DecidableEq

abbrev Writing := ExceptT Overflow (StateM Sink)

namespace Writing

def put (piece : String) : Writing Unit := fun sink =>
  match sink.room with
  | none => (.ok (), { sink with text := sink.text ++ piece })
  | some room =>
    if piece.length ≤ room then
      (.ok (), ⟨sink.text ++ piece, some (room - piece.length)⟩)
    else
      (.error .overflow, ⟨sink.text ++ String.ofList (piece.toList.take room), some 0⟩)

/-- Carries out an act of writing on a sink. -/
def into {β : Type} (act : Writing β) (sink : Sink) : Except Overflow β × Sink := act.run.run sink

/-- All that an act writes where there is room for everything. -/
def text {β : Type} (act : Writing β) : String := (act.into {}).2.text

end Writing

end PenStroke
