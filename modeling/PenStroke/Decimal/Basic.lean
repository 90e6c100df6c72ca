/-! Decimal numbers and the ways to write them. -/

namespace PenStroke

/-- The number `coefficient * 10 ^ exponent`. -/
structure Decimal where
  coefficient : Nat
  exponent : Int
  deriving DecidableEq

namespace Decimal

def digits (n : Nat) : List Char := Nat.toDigits 10 n

/-- The same number with no zero at the end of its coefficient. -/
def trim (coefficient : Nat) (exponent : Int) : Decimal :=
  if 0 < coefficient ∧ coefficient % 10 = 0 then trim (coefficient / 10) (exponent + 1)
  else ⟨coefficient, exponent⟩
termination_by coefficient
decreasing_by omega

/-- The power of ten that the leading digit counts. -/
def leadingPower (d : Decimal) : Int := (digits d.coefficient).length + d.exponent - 1

/-- The digits with the point where it belongs and a digit on both sides of it; a whole number has
neither. -/
def positional (d : Decimal) : List Char :=
  let ds := digits d.coefficient
  match d.exponent with
  | .ofNat zeros => ds ++ List.replicate zeros '0'
  | .negSucc n =>
    let ds := List.replicate (n + 2 - ds.length) '0' ++ ds
    let whole := ds.length - (n + 1)
    ds.take whole ++ '.' :: ds.drop whole

/-- The leading digit, a point and the other digits if there are any, and the power of ten. -/
def scientific (d : Decimal) : List Char :=
  let mantissa := match digits d.coefficient with
    | c :: [] => [c]
    | c :: rest => c :: '.' :: rest
    | [] => []
  let power := match d.leadingPower with
    | .ofNat n => digits n
    | .negSucc n => '-' :: digits (n + 1)
  mantissa ++ 'e' :: power

/-- The choices in writing a decimal. -/
structure Layout where
  /-- Whether a whole number ends in a point and a zero. -/
  pointZero : Bool
  /-- Whether a number whose leading digit counts that power of ten is written out. -/
  isPositional : Int → Bool

/-- Coordinates are written out whatever their size, and whole ones without a point. -/
def Layout.coordinate : Layout := ⟨false, fun _ => true⟩

/-- In notices a number from `1e16` on or below `1e-4` is written by a power of ten, and any other
has a point. -/
def Layout.diagnostic : Layout := ⟨true, fun power => -5 < power && power < 16⟩

def write (layout : Layout) (d : Decimal) : List Char :=
  if layout.isPositional d.leadingPower then
    d.positional ++ (if layout.pointZero && 0 ≤ d.exponent then ['.', '0'] else [])
  else d.scientific

/-- A quotient rounded to the nearest natural number, a tie to the even one. -/
def roundQuotient (num den : Nat) : Nat :=
  let below := num / den
  let rest := num % den
  if 2 * rest < den ∨ (2 * rest = den ∧ below % 2 = 0) then below else below + 1

/-- A number of units of `10 ^ (-places)` with all its places written. -/
def fixed (places units : Nat) : List Char :=
  match places with
  | 0 => digits units
  | places + 1 => positional ⟨units, .negSucc places⟩

end Decimal

end PenStroke
