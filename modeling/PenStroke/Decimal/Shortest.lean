import PenStroke.Decimal.Basic

/-!
The shortest decimal that names a double. Of the numbers that round to the double, those with the
fewest digits are meant, and of them the one nearest to it. Everything is compared exactly, in
natural numbers over a common denominator.
-/

namespace PenStroke.Decimal

/-- A positive number `value / den` and the numbers between `low / den` and `high / den` that round
to it. -/
structure Bracket where
  low : Nat
  value : Nat
  high : Nat
  den : Nat
  /-- Whether the two ends round to the number too. -/
  closed : Bool

namespace Bracket

/-- The bracket of the double `mantissa * 2 ^ exponent`, in quarters of its last place: half a
place to each side, but half of that below a power of two, where the doubles lie twice as dense.
Ties round to an even mantissa. -/
def ofDouble (mantissa : Nat) (exponent : Int) : Bracket :=
  let unit := Nat.pow 2 (exponent - 2).toNat
  let gap := if mantissa = Nat.pow 2 52 ∧ -1074 < exponent then 1 else 2
  { low := (4 * mantissa - gap) * unit
    value := 4 * mantissa * unit
    high := (4 * mantissa + 2) * unit
    den := Nat.pow 2 (2 - exponent).toNat
    closed := mantissa % 2 = 0 }

/-- The same bracket counted in units of a power of ten. -/
def inUnits (b : Bracket) (power : Int) : Bracket :=
  let finer := Nat.pow 10 (-power).toNat
  { b with
    low := b.low * finer
    value := b.value * finer
    high := b.high * finer
    den := b.den * Nat.pow 10 power.toNat }

def holds (b : Bracket) (n : Nat) : Bool :=
  if b.closed then b.low ≤ n * b.den && n * b.den ≤ b.high
  else b.low < n * b.den && n * b.den < b.high

/-- The whole number in the bracket that is nearest to its value, the larger one at a tie. -/
def nearest? (b : Bracket) : Option Nat :=
  let below := b.value / b.den
  let nearer := if 2 * b.value < (2 * below + 1) * b.den then below else below + 1
  if b.holds nearer then some nearer
  else [below, below + 1].find? b.holds

def digitCount (n : Nat) : Nat := if n < 10 then 1 else digitCount (n / 10) + 1

/-- The least power of ten above the value. -/
def magnitude (b : Bracket) : Int :=
  if b.den ≤ b.value then digitCount (b.value / b.den)
  else 1 - digitCount ((b.den - 1) / b.value)

end Bracket

/-- The shortest decimal that rounds to the double `mantissa * 2 ^ exponent`: one digit is tried
first, and seventeen are always enough. -/
def shortest (mantissa : Nat) (exponent : Int) : Decimal :=
  let bracket := Bracket.ofDouble mantissa exponent
  let top := bracket.magnitude
  let found := (List.range 17).findSome? fun n =>
    let power := top - (n + 1 : Nat)
    (bracket.inUnits power).nearest?.map fun c => trim c power
  found.getD ⟨0, 0⟩

end PenStroke.Decimal
