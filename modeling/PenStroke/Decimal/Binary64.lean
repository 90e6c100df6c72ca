import PenStroke.Decimal.Shortest
import PenStroke.Output.Sink
import PenStroke.Scalar.Binary64

/-! The texts of doubles. -/

namespace PenStroke.Binary64

open Float.Model (UnpackedFloat)

/-- A way to write the coordinates of a point. -/
structure Format where
  /-- The least width of a number; shorter ones are filled up with blanks on the left. -/
  width : Nat := 0
  /-- The number of decimal places; as few digits as tell the number when it is not given. -/
  places : Option Nat := none
  /-- Whether a number that is not negative has a plus sign. -/
  plus : Bool := false

def signText (plus : Bool) : UnpackedFloat.Sign → List Char
  | .negative => ['-']
  | .positive => if plus then ['+'] else []

/-- The digits of `mantissa * 2 ^ exponent`, the exact value rounded where places are given. -/
def magnitudeText (layout : Decimal.Layout) (places : Option Nat) (mantissa : Nat)
    (exponent : Int) : List Char :=
  match places with
  | none => (Decimal.shortest mantissa exponent).write layout
  | some places =>
    Decimal.fixed places (Decimal.roundQuotient
      (mantissa * Nat.pow 2 exponent.toNat * Nat.pow 10 places) (Nat.pow 2 (-exponent).toNat))

def zeroText (layout : Decimal.Layout) : Option Nat → List Char
  | none => Decimal.write layout ⟨0, 0⟩
  | some places => Decimal.fixed places 0

/-- A double in digits, with a sign on zeros and infinities. -/
def textChars (layout : Decimal.Layout) (format : Format) (x : Float) : List Char :=
  match parts x with
  | .notANumber => "NaN".toList
  | .infinity sign => signText format.plus sign ++ "inf".toList
  | .zero sign => signText format.plus sign ++ zeroText layout format.places
  | .finite sign mantissa exponent _ =>
    signText format.plus sign ++ magnitudeText layout format.places mantissa exponent

def coordinateText (format : Format) (x : Float) : String :=
  let cs := textChars .coordinate format x
  String.ofList (List.replicate (format.width - cs.length) ' ' ++ cs)

def diagnosticText (x : Float) : String := String.ofList (textChars .diagnostic {} x)

instance : Numeral Float := ⟨coordinateText {}⟩

end PenStroke.Binary64
