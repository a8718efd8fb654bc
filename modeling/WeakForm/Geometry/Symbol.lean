import WeakForm.Cell.Basic

/-!
# Geometry symbols

The quantities of a physical cell that integrals depend on: the entries of the
Jacobian `J` of the map from the reference cell, the entries of its inverse `K`,
the determinant of `J`, and the scale factor of the measure. All but the last
belong to a side on interior facets.

Symbols are ordered by kind first, then by side, row and column. Products of
symbols list their factors in this order, which fixes how they are written.

## Theorems

* `Symbol.key_injective`: Different symbols have different keys.
-/

namespace WeakForm

/-- A scalar quantity of a physical cell. -/
inductive Symbol where
  /-- The derivative of physical coordinate `row` along reference axis `col`. -/
  | jacobian (side : Option Side) (row col : Nat)
  /-- The derivative of reference coordinate `row` along physical axis `col`. -/
  | inverse (side : Option Side) (row col : Nat)
  /-- The determinant of the Jacobian, or its pseudo-determinant. -/
  | determinant (side : Option Side)
  /-- The factor of the measure: the size of the determinant on cells, the determinant of the
      facet on facets. -/
  | scale
  deriving DecidableEq, Repr

namespace Symbol

def sideKey : Option Side → Nat
  | none => 0
  | some .plus => 1
  | some .minus => 2

/-- The numbers a symbol is ordered by, most significant first. -/
def key : Symbol → List Nat
  | jacobian side row col => [0, sideKey side, row, col]
  | inverse side row col => [1, sideKey side, row, col]
  | determinant side => [2, sideKey side]
  | scale => [3]

def before (a b : Symbol) : Bool := a.key < b.key

theorem sideKey_injective {a b : Option Side} (h : sideKey a = sideKey b) : a = b := by
  rcases a with _ | (_ | _) <;> rcases b with _ | (_ | _) <;> simp_all [sideKey]

theorem key_injective {a b : Symbol} (h : a.key = b.key) : a = b := by
  cases a <;> cases b <;> simp_all [key] <;> exact sideKey_injective (by simp_all)

end Symbol
end WeakForm
