import PenStroke.Geometry.Point
import PenStroke.Proofs.BoundedDoubles

/-! Lengths over doubles. How closely the length of a hypotenuse is computed is left open, and what
is relied on holds of it however roughly it is rounded. Displacements within a bound have a length
within the next. -/
namespace PenStroke

open Binary64 (magnitude parts)

/-- What is relied on of the length of a hypotenuse. The length itself is not shorter than either
leg, and at most `√2` times as long as the longer one: each bound leaves room for some rounding. -/
structure HypotenuseLaws [Hypotenuse Float] : Prop where
  /-- A leg that is infinite or undefined leaves no finite length. -/
  finite_legs {x y : Float} (h : (hypot x y).isFinite = true) :
    x.isFinite = true ∧ y.isFinite = true
  /-- A length is at least one half of either leg. -/
  legs_le {x y : Float} (h : (hypot x y).isFinite = true) :
    magnitude (parts x) ≤ 2 * magnitude (parts (hypot x y)) ∧
      magnitude (parts y) ≤ 2 * magnitude (parts (hypot x y))
  /-- A length is at most twice a bound on both legs, and has not overflowed on the way. -/
  within {p : ℕ} {x y : Float} (hx : Binary64.Within p x) (hy : Binary64.Within p y)
    (hp : p < 1023) : Binary64.Within (p + 1) (hypot x y)

/-- Both components within a power of two. -/
structure Offset.Within (p : ℕ) (v : Offset Float) : Prop where
  x : Binary64.Within p v.x
  y : Binary64.Within p v.y

/-- Both coordinates within a power of two. -/
structure Point.Within (p : ℕ) (a : Point Float) : Prop where
  x : Binary64.Within p a.x
  y : Binary64.Within p a.y

namespace Offset.Within
variable {p q r : ℕ} {v w : Offset Float} {s : Float}

theorem neg (h : v.Within p) : (-v).Within p := ⟨h.x.neg, h.y.neg⟩

theorem turnLeft (h : v.Within p) : v.turnLeft.Within p := ⟨h.y.neg, h.x⟩

theorem smul (hs : Binary64.Within q s) (h : v.Within p) (hr : p + q ≤ r ∧ r ≤ 1023) :
    (s • v).Within r :=
  ⟨h.x.mul hs hr, h.y.mul hs hr⟩

theorem dot (hv : v.Within p) (hw : w.Within q) (hr : p + q < r ∧ r ≤ 1023) :
    Binary64.Within r (v.dot w) :=
  (hv.x.mul hw.x (r := p + q) (by omega)).add (hv.y.mul hw.y (r := p + q) (by omega)) (by omega)

theorem cross (hv : v.Within p) (hw : w.Within q) (hr : p + q < r ∧ r ≤ 1023) :
    Binary64.Within r (v.cross w) :=
  (hv.x.mul hw.y (r := p + q) (by omega)).sub (hv.y.mul hw.x (r := p + q) (by omega)) (by omega)

theorem length [Hypotenuse Float] (laws : HypotenuseLaws) (h : v.Within p)
    (hr : p < r ∧ r ≤ 1023) : Binary64.Within r v.length :=
  (laws.within h.x h.y (by omega)).mono hr.1

theorem isFinite (h : v.Within p) : v.isFinite = true :=
  Bool.and_eq_true_iff.mpr ⟨h.x.finite, h.y.finite⟩

end Offset.Within

namespace Point.Within
variable {p q r : ℕ} {a b : Point Float} {v : Offset Float} {bound : Float}

theorem of_abs_le (hb : Binary64.Within p bound) (h : a.x.abs ≤ bound ∧ a.y.abs ≤ bound) :
    a.Within p :=
  ⟨hb.of_abs_le h.1, hb.of_abs_le h.2⟩

theorem sub (ha : a.Within p) (hb : b.Within q) (hr : p < r ∧ q < r ∧ r ≤ 1023) :
    (a - b).Within r :=
  ⟨ha.x.sub hb.x hr, ha.y.sub hb.y hr⟩

theorem add_offset (ha : a.Within p) (hv : v.Within q) (hr : p < r ∧ q < r ∧ r ≤ 1023) :
    (a + v).Within r :=
  ⟨ha.x.add hv.x hr, ha.y.add hv.y hr⟩

theorem sub_offset (ha : a.Within p) (hv : v.Within q) (hr : p < r ∧ q < r ∧ r ≤ 1023) :
    (a - v).Within r :=
  ⟨ha.x.sub hv.x hr, ha.y.sub hv.y hr⟩

theorem isFinite (h : a.Within p) : a.isFinite = true :=
  Bool.and_eq_true_iff.mpr ⟨h.x.finite, h.y.finite⟩

end Point.Within

end PenStroke
