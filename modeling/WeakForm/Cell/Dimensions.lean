import WeakForm.Problem

/-!
# Dimension pairs

A cell of topological dimension `tdim` lives in a space of dimension `gdim`,
which is at least as large and at most three. If it is larger the cell is a
manifold: its Jacobian is not square, and determinant and inverse are replaced by
pseudo-determinant and pseudo-inverse.

The bounds are part of the type, so every definition that takes a dimension pair
may rely on them.
-/

namespace WeakForm

/-- A supported pair of topological and geometric dimension. -/
structure Dimensions where
  tdim : Nat
  gdim : Nat
  tdim_pos : 1 ≤ tdim
  tdim_le : tdim ≤ gdim
  gdim_le : gdim ≤ 3
  deriving DecidableEq, Repr

namespace Dimensions

/-- The pair of two numbers, if it is supported. -/
def of (tdim gdim : Nat) : Except Problem Dimensions :=
  if h : 1 ≤ tdim ∧ tdim ≤ gdim ∧ gdim ≤ 3 then .ok ⟨tdim, gdim, h.1, h.2.1, h.2.2⟩
  else .error (.unsupportedDimensions tdim gdim)

/-- Whether the cell is embedded in a space of higher dimension. -/
def isManifold (d : Dimensions) : Bool := d.tdim < d.gdim

def shape (d : Dimensions) : Shape :=
  match d.tdim with
  | 1 => .interval
  | 2 => .triangle
  | _ => .tetrahedron

/-- The supported pairs, ordered by topological and then by geometric dimension. -/
def all : List Dimensions :=
  [⟨1, 1, by decide, by decide, by decide⟩, ⟨1, 2, by decide, by decide, by decide⟩,
    ⟨1, 3, by decide, by decide, by decide⟩, ⟨2, 2, by decide, by decide, by decide⟩,
    ⟨2, 3, by decide, by decide, by decide⟩, ⟨3, 3, by decide, by decide, by decide⟩]

/-! The same pairs by their names. -/

abbrev line : Dimensions := ⟨1, 1, by decide, by decide, by decide⟩

abbrev planeCurve : Dimensions := ⟨1, 2, by decide, by decide, by decide⟩

abbrev spaceCurve : Dimensions := ⟨1, 3, by decide, by decide, by decide⟩

abbrev plane : Dimensions := ⟨2, 2, by decide, by decide, by decide⟩

abbrev surface : Dimensions := ⟨2, 3, by decide, by decide, by decide⟩

abbrev solid : Dimensions := ⟨3, 3, by decide, by decide, by decide⟩

theorem mem_all (d : Dimensions) : d ∈ all := by
  obtain ⟨t, g, h1, h2, h3⟩ := d
  have : (t = 1 ∧ g = 1) ∨ (t = 1 ∧ g = 2) ∨ (t = 1 ∧ g = 3) ∨ (t = 2 ∧ g = 2) ∨
      (t = 2 ∧ g = 3) ∨ (t = 3 ∧ g = 3) := by omega
  rcases this with ⟨rfl, rfl⟩ | ⟨rfl, rfl⟩ | ⟨rfl, rfl⟩ | ⟨rfl, rfl⟩ | ⟨rfl, rfl⟩ | ⟨rfl, rfl⟩ <;>
    simp [all]

/-- A property of all pairs, shown for each of the six. -/
@[elab_as_elim]
theorem pairs {P : Dimensions → Prop} (line : P line) (planeCurve : P planeCurve)
    (spaceCurve : P spaceCurve) (plane : P plane) (surface : P surface) (solid : P solid)
    (d : Dimensions) : P d := by
  have hd := d.mem_all
  simp only [all, List.mem_cons, List.not_mem_nil, or_false] at hd
  rcases hd with rfl | rfl | rfl | rfl | rfl | rfl <;> assumption

end Dimensions
end WeakForm
