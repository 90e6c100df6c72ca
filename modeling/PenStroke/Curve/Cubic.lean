import PenStroke.Scalar

/-! Cubic polynomials over the unit interval, by coefficients or by what they do at its ends. -/

namespace PenStroke

open scoped Scalar

/-- The polynomial `((a·u + b)·u + c)·u + d`. -/
structure Cubic (α : Type) where
  a : α
  b : α
  c : α
  d : α
  deriving BEq

/-- The four ordinates of a cubic in Bernstein form: the heights of its control points. -/
structure Ordinates (α : Type) where
  start : α
  first : α
  second : α
  finish : α
  deriving BEq

namespace Cubic

variable {α : Type} [Scalar α]

def zero : Cubic α := ⟨0, 0, 0, 0⟩

instance : Inhabited (Cubic α) := ⟨zero⟩

/-- The cubic with values `v₀`, `v₁` and slopes `d₀`, `d₁` at the ends. -/
def ofHermite (v₀ v₁ d₀ d₁ : α) : Cubic α where
  a := 2 * (v₀ - v₁) + d₀ + d₁
  b := 3 * (v₁ - v₀) - 2 * d₀ - d₁
  c := d₀
  d := v₀

def eval (s : Cubic α) (u : α) : α := ((s.a * u + s.b) * u + s.c) * u + s.d

def slope (s : Cubic α) (u : α) : α := (3 * s.a * u + 2 * s.b) * u + s.c

/-- The second derivative at `u`. -/
def bend (s : Cubic α) (u : α) : α := 6 * s.a * u + 2 * s.b

/-- The Bernstein form. The inner ordinates lie a third of the end slopes away from the ends. -/
def ordinates (s : Cubic α) : Ordinates α :=
  let value := s.a + s.b + s.c + s.d
  let slope := 3 * s.a + 2 * s.b + s.c
  { start := s.d
    first := s.d + s.c * (1 / 3)
    second := value - slope * (1 / 3)
    finish := value }

end Cubic

end PenStroke
