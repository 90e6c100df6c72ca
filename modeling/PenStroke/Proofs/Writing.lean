import Mathlib
import PenStroke.Output.Sink

/-! Writing piece by piece is writing the whole, also where the room ends in the middle. -/
namespace PenStroke.Writing

section Steps
variable {act next : Writing Unit} {sink sink' : Sink}

theorem bind_of_ok (h : act sink = (.ok (), sink')) :
    (do act; next : Writing Unit) sink = next sink' := by
  simp only [bind, ExceptT.bind, ExceptT.mk, StateT.bind, h, ExceptT.bindCont]

theorem bind_of_error {e : Overflow} (h : act sink = (.error e, sink')) :
    (do act; next : Writing Unit) sink = (.error e, sink') := by
  simp only [bind, ExceptT.bind, ExceptT.mk, StateT.bind, h, ExceptT.bindCont]
  rfl

theorem put_unlimited (piece text : String) :
    put piece ⟨text, none⟩ = (.ok (), ⟨text ++ piece, none⟩) := rfl

theorem put_of_le {piece text : String} {room : ℕ} (h : piece.length ≤ room) :
    put piece ⟨text, some room⟩ = (.ok (), ⟨text ++ piece, some (room - piece.length)⟩) :=
  if_pos h

theorem put_of_gt {piece text : String} {room : ℕ} (h : room < piece.length) :
    put piece ⟨text, some room⟩ =
      (.error .overflow, ⟨text ++ .ofList (piece.toList.take room), some 0⟩) :=
  if_neg (by omega)

end Steps

theorem put_empty : put "" = pure () := by
  funext ⟨text, room⟩
  cases room with
  | none => exact (put_unlimited "" text).trans (by rw [String.append_empty]; rfl)
  | some room => exact (put_of_le (Nat.zero_le room)).trans (by rw [String.append_empty]; rfl)

theorem put_append (s t : String) : (do put s; put t) = put (s ++ t) := by
  funext ⟨text, room⟩
  cases room with
  | none =>
    rw [bind_of_ok (put_unlimited s text), put_unlimited, put_unlimited, String.append_assoc]
  | some room =>
    rcases Nat.lt_or_ge room s.length with hs | hs
    · have hst : room < (s ++ t).length := by
        rw [String.length_append]
        omega
      rw [bind_of_error (put_of_gt hs), put_of_gt hst, String.toList_append,
        List.take_append_of_le_length (by rw [String.length_toList]; omega)]
    · rw [bind_of_ok (put_of_le hs)]
      rcases Nat.lt_or_ge (room - s.length) t.length with ht | ht
      · have hst : room < (s ++ t).length := by
          rw [String.length_append]
          omega
        have hlength : s.toList.length ≤ room := by rwa [String.length_toList]
        rw [put_of_gt ht, put_of_gt hst, String.toList_append, List.take_append,
          List.take_of_length_le hlength, String.length_toList, String.ofList_append,
          String.ofList_toList, String.append_assoc]
      · have hst : (s ++ t).length ≤ room := by
          rw [String.length_append]
          omega
        rw [put_of_le ht, put_of_le hst, String.append_assoc, String.length_append, Nat.sub_sub]

/-- Pieces written one after the other are written as one. -/
theorem forM_put {β : Type} (piece : β → String) (xs : List β) :
    (xs.forM fun x => put (piece x)) = put (String.join (xs.map piece)) := by
  induction xs with
  | nil => exact put_empty.symm
  | cons x xs ih =>
    rw [List.forM, ih, put_append, List.map_cons, String.join_cons]

@[simp] theorem text_put (piece : String) : (put piece).text = piece := String.empty_append

section Spaced

/-- Pieces with a blank before each, but none before the very first. -/
def spaced : Bool → List String → String
  | _, [] => ""
  | isFirst, s :: ss => (if isFirst then s else " " ++ s) ++ spaced false ss

theorem spaced_false (s : String) (ss : List String) :
    spaced false (s :: ss) = " " ++ " ".intercalate (s :: ss) := by
  induction ss generalizing s with
  | nil => simp [spaced]
  | cons t ss ih =>
    rw [spaced, ih, String.intercalate_cons_cons]
    simp [String.append_assoc]

theorem spaced_true (ss : List String) : spaced true ss = " ".intercalate ss := by
  match ss with
  | [] => rw [spaced, String.intercalate_nil]
  | [s] => simp [spaced]
  | s :: t :: ss =>
    rw [spaced, spaced_false, String.intercalate_cons_cons]
    simp [String.append_assoc]

theorem put_spaced (isFirst : Bool) (s : String) (ss : List String) :
    (do unless isFirst do put " "
        put s
        put (spaced false ss)) = put (spaced isFirst (s :: ss)) := by
  cases isFirst with
  | true => exact put_append _ _
  | false =>
    change (do put " "; put s; put (spaced false ss) : Writing Unit) = _
    rw [put_append, put_append, ← String.append_assoc]
    rfl

end Spaced

end PenStroke.Writing
