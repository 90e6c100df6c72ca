import PenStroke.Scalar

/-!
Doubles as scalars. The four operations, comparison and conversion are those of the format; the
roundings that the format does not fix are computed exactly on sign, mantissa and exponent and
rounded once.
-/

namespace PenStroke.Binary64

open Float.Model

/-- Sign, mantissa and exponent of a double: `± mantissa * 2 ^ exponent` if it is finite. -/
def parts (x : Float) : UnpackedFloat := UnpackedFloat.unpack Format.binary64 x.toBits.toBitVec

/-- The double with the given parts, which must fit the format. -/
def ofParts (x : UnpackedFloat) : Float := Float.ofBits ⟨UnpackedFloat.pack Format.binary64 x⟩

/-- The whole part of a positive double; zero for any other. -/
def natFloor (x : Float) : Nat :=
  match parts x with
  | .finite .positive mantissa (.ofNat k) _ => mantissa <<< k
  | .finite .positive mantissa (.negSucc k) _ => mantissa >>> (k + 1)
  | _ => 0

/-- The nearest whole number, a half going away from zero, with the sign kept on zero. A double
whose exponent is not negative is whole already; any other is counted in halves of a unit. -/
def round (x : Float) : Float :=
  match parts x with
  | .finite sign mantissa (.negSucc k) _ =>
    ofParts (UnpackedFloat.round Format.binary64 sign ((mantissa + Nat.pow 2 k) >>> (k + 1)) 0)
  | _ => x

/-- The square root of `n * 2 ^ e`, rounded once to the nearest double. -/
def sqrtScaled (n : Nat) (e : Int) : Float :=
  let (root, exponent, accuracy) := UnpackedFloat.sqrtCore Format.binary64 n e
  ofParts (UnpackedFloat.roundWithAccuracy Format.binary64 .positive root exponent accuracy)

/-- One way to compute the square root of `x² + y²`: rounded once, so that no intermediate square
can overflow or vanish. Others may differ in the last places. An infinite leg makes it infinite
whatever the other leg is. -/
def hypot (x y : Float) : Float :=
  match parts x, parts y with
  | .infinity _, _ | _, .infinity _ => ofParts (.infinity .positive)
  | .notANumber, _ | _, .notANumber => ofParts .notANumber
  | .zero _, _ => y.abs
  | _, .zero _ => x.abs
  | .finite _ m e _, .finite _ n f _ =>
    let unit := min e f
    let m := m <<< (e - unit).toNat
    let n := n <<< (f - unit).toNat
    sqrtScaled (m * m + n * n) (2 * unit)

instance : Scalar Float where
  toNatCast := ⟨Float.ofNat⟩
  decLt := inferInstance
  abs := Float.abs
  natFloor := natFloor
  round := round
  isFinite := Float.isFinite
  undefined := ofParts .notANumber

instance : Hypotenuse Float := ⟨hypot⟩

end PenStroke.Binary64
