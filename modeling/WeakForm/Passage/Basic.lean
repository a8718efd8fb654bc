import WeakForm.Passage.Step

/-!
# Passages of geometry code

A passage declares one geometric quantity of the current cell, in the formulas of
the affine geometry for each dimension pair. It may read what other passages
declare; a list of passages is completed by these and put into an order in which
every quantity is declared before it is read.

Facet quantities of an interior facet are those of the cell on the plus side. The
normal on the minus side is the negated normal on the plus side.

## Theorems

* `Passage.rank_required`: A passage reads from those of lower rank only.
* `Passage.visit_eq`: What visiting a passage does.
-/

namespace WeakForm

/-- The quantities that geometry code can declare. -/
inductive Passage where
  | jacobian
  | inverseJacobian
  | orientation
  | scaleFactor
  | facetDeterminant
  | facetNormal
  | cellVolume
  | circumradius
  | facetArea
  /-- The physical coordinates of the current quadrature point. -/
  | pointCoordinates
  deriving DecidableEq, Repr

namespace Passage

def all : List Passage :=
  [jacobian, inverseJacobian, orientation, scaleFactor, facetDeterminant, facetNormal, cellVolume,
    circumradius, facetArea, pointCoordinates]

/-- The place of a passage among all of them. -/
def rank : Passage → Nat
  | jacobian => 0
  | inverseJacobian => 1
  | orientation => 2
  | scaleFactor => 3
  | facetDeterminant => 4
  | facetNormal => 5
  | cellVolume => 6
  | circumradius => 7
  | facetArea => 8
  | pointCoordinates => 9

/-- The passages whose declarations a passage reads. -/
def required : Passage → List Passage
  | jacobian => []
  | inverseJacobian => [jacobian]
  | orientation => [inverseJacobian]
  | scaleFactor => [inverseJacobian]
  | facetDeterminant => [jacobian]
  | facetNormal => [facetDeterminant]
  | cellVolume => [inverseJacobian]
  | circumradius => [cellVolume]
  | facetArea => [facetDeterminant]
  | pointCoordinates => [jacobian]

theorem rank_required {p q : Passage} (h : q ∈ p.required) : q.rank < p.rank := by
  cases p <;> simp_all [required, rank]

/-- Appends a passage behind those it reads from, unless it is there already. -/
def visit (done : List Passage) (p : Passage) : List Passage :=
  if p ∈ done then done
  else p.required.attach.foldl (fun done q => visit done q.1) done ++ [p]
termination_by p.rank
decreasing_by exact rank_required q.2

theorem visit_eq (done : List Passage) (p : Passage) :
    visit done p = if p ∈ done then done else p.required.foldl visit done ++ [p] := by
  rw [visit, List.foldl_attach (l := p.required) (f := visit)]

/-- The passages of a list and all they read from, each once and behind what it reads. The order
    of the list plays no role. -/
def complete (ps : List Passage) : List Passage :=
  (ps.mergeSort fun a b => a.rank ≤ b.rank).foldl visit []

/-- The side that facet quantities are computed on. -/
def facetSide (side : Option Side) : Option Side := side.map fun _ => .plus

def scalar (name : String) : Term := .name (.scalar name)

/-- The literal `units / 10 ^ places`. -/
def fixed (units places : Nat) : Term := .literal ⟨units, places⟩

/-- The coordinate of a vertex with a fixed number. -/
def vertex (side : Option Side) (number axis : Nat) : Term :=
  .name (.coordinate side (.fixed number) axis)

/-- The coordinate of a vertex held by a variable. -/
def namedVertex (side : Option Side) (variableName : String) (axis : Nat) : Term :=
  .name (.coordinate side (.named variableName) axis)

def square (e : Term) : Term := e * e

/-- A sum of terms, of which there is at least one. -/
def total (es : List Term) : Term := Expr.sumOf (fixed 0 1) es

def sumOfSquares (es : List Term) : Term := total (es.map square)

/-- A constant with quotients written wide. -/
def constant (name : String) (e : Term) : Step := .define true name .wide (.plain e)

def entryJ (side : Option Side) (row col : Nat) : Term := scalar (Cpp.symbol (.jacobian side row col))

def nameK (side : Option Side) (row col : Nat) : String := Cpp.symbol (.inverse side row col)

def nameDet (side : Option Side) : String := Cpp.symbol (.determinant side)

/-- The two axes behind an axis, in cyclic order. -/
def nextAxes (axis : Nat) : Nat × Nat := ((axis + 1) % 3, (axis + 2) % 3)

def jacobianSteps (d : Dimensions) (side : Option Side) : List Step :=
  (if d.isManifold then
    [.note s!"Geometric dimension {d.gdim}, topological dimension {d.tdim}"] else []) ++
  [.note "Extract vertex coordinates", .coordinates side, .gap,
    .note "Compute Jacobian of affine map from reference cell"] ++
  (List.range d.gdim).flatMap fun g => (List.range d.tdim).map fun t =>
    constant (Cpp.symbol (.jacobian side g t)) (vertex side (t + 1) g - vertex side 0 g)

def inverseJacobianSteps (d : Dimensions) (side : Option Side) : List Step :=
  let r := Side.suffix side
  let j := entryJ side
  let det := scalar (nameDet side)
  let squaredDet := s!"detJ2{r}"
  let root : Step :=
    .define (!d.isManifold) (nameDet side) .wide (.plain (.sqrt (scalar squaredDet)))
  match d.tdim, d.gdim with
  | 1, 1 =>
    [.note "Compute determinant of Jacobian", constant (nameDet side) (j 0 0), .gap,
      .note "Compute inverse of Jacobian", constant (nameK side 0 0) (fixed 10 1 / det)]
  | 2, 2 =>
    let entry (row col : Nat) (layout : Layout) (e : Term) : Step :=
      .define true (nameK side row col) layout (.plain e)
    [.note "Compute determinant of Jacobian",
      constant (nameDet side) (j 0 0 * j 1 1 - j 0 1 * j 1 0), .gap,
      .note "Compute inverse of Jacobian", entry 0 0 .aligned (j 1 1 / det),
      entry 0 1 .wide (-j 0 1 / det), entry 1 0 .wide (-j 1 0 / det),
      entry 1 1 .aligned (j 0 0 / det)]
  | 3, 3 =>
    let cofactorName (a b : Nat) : String := s!"d{r}_{a}{b}"
    let cofactor (a b : Nat) : Term :=
      let (a1, a2) := nextAxes a
      let (b1, b2) := nextAxes b
      j a1 b1 * j a2 b2 - j a1 b2 * j a2 b1
    let c (a b : Nat) : Term := scalar (cofactorName a b)
    [.note "Compute sub determinants"] ++
    ((List.range 3).flatMap fun a => (List.range 3).map fun b =>
      constant (cofactorName a b) (cofactor a b)) ++
    [.gap, .note "Compute determinant of Jacobian",
      constant (nameDet side) (j 0 0 * c 0 0 + j 1 0 * c 1 0 + j 2 0 * c 2 0), .gap,
      .note "Compute inverse of Jacobian"] ++
    ((List.range 3).flatMap fun t => (List.range 3).map fun g =>
      constant (nameK side t g) (c g t / det))
  | 1, gdim =>
    [.note "Compute pseudodeterminant of Jacobian",
      constant squaredDet (sumOfSquares ((List.range gdim).map fun g => j g 0)), root, .gap,
      .note "Compute pseudoinverse of Jacobian"] ++
    (List.range gdim).map fun g => constant (nameK side 0 g) (j g 0 / scalar squaredDet)
  | _, _ =>
    let minor (k : Nat) : String := s!"d{r}_{k}"
    let n1 := scalar s!"n{r}_1"
    let n2 := scalar s!"n{r}_2"
    let m := scalar s!"m{r}"
    let den := scalar s!"den{r}"
    [.note "Compute pseudodeterminant of Jacobian",
      constant (minor 0) (j 1 0 * j 2 1 - j 2 0 * j 1 1),
      constant (minor 1) (-(.group (j 0 0 * j 2 1 - j 2 0 * j 0 1))),
      constant (minor 2) (j 0 0 * j 1 1 - j 1 0 * j 0 1),
      constant squaredDet (sumOfSquares ((List.range 3).map fun k => scalar (minor k))), root, .gap,
      .note "Compute some common factors for the pseudoinverse",
      constant s!"n{r}_1" (sumOfSquares ((List.range 3).map fun g => j g 0)),
      constant s!"n{r}_2" (sumOfSquares ((List.range 3).map fun g => j g 1)),
      constant s!"m{r}" (total ((List.range 3).map fun g => j g 0 * j g 1)),
      constant s!"den{r}" (n1 * n2 - m * m), .gap,
      .note "Compute pseudoinverse of Jacobian"] ++
    ((List.range 3).map fun g =>
      constant (nameK side 0 g) (.group (j g 0 * n2 - j g 1 * m) / den)) ++
    ((List.range 3).map fun g =>
      constant (nameK side 1 g) (.group (-j g 0 * m + j g 1 * n1) / den))

/-- The vertices of the edges of a triangle, as code lists them. -/
def edgeVertices : List (List Nat) := [[1, 2], [0, 2], [0, 1]]

/-- The vertices of the faces of a tetrahedron, as code lists them. -/
def faceVertices : List (List Nat) := [[1, 2, 3], [0, 2, 3], [0, 1, 3], [0, 1, 2]]

def facetDeterminantSteps (d : Dimensions) (side : Option Side) : List Step :=
  let x (v : String) (axis : Nat) : Term := namedVertex side v axis
  match d.tdim with
  | 1 => [.note "Facet determinant of a vertex", constant "det" (fixed 10 1)]
  | 2 =>
    let dx (g : Nat) : String := s!"dx{g}"
    [.note "Get vertices on edge", .vertexLists "edge_vertices" edgeVertices,
      .facetVertex "v0" "edge_vertices" side 0, .facetVertex "v1" "edge_vertices" side 1, .gap,
      .note "Compute scale factor (length of edge scaled by length of reference interval)"] ++
    ((List.range d.gdim).map fun g => constant (dx g) (x "v1" g - x "v0" g)) ++
    [constant "det" (.sqrt (sumOfSquares ((List.range d.gdim).map fun g => scalar (dx g))))]
  | _ =>
    let e (v : String) (g : Nat) : Term := .group (x v g - x "v0" g)
    let a (k : Nat) : String := s!"a{k}"
    [.note "Get vertices on face", .vertexLists "face_vertices" faceVertices] ++
    ((List.range 3).map fun k => .facetVertex s!"v{k}" "face_vertices" side k) ++
    [.gap, .note "Compute scale factor (area of face scaled by area of reference triangle)"] ++
    ((List.range 3).map fun k =>
      let (b, c) := nextAxes k
      constant (a k) (e "v1" b * e "v2" c - e "v1" c * e "v2" b)) ++
    [constant "det" (.sqrt (sumOfSquares ((List.range 3).map fun k => scalar (a k))))]

def facetNormalSteps (d : Dimensions) (side : Option Side) : List Step :=
  let r := Side.suffix side
  let plus := facetSide side
  let facet := Cpp.facetVariable plus
  let opposite : Bool := side = some .minus
  let det := scalar "det"
  let dx (g : Nat) : Term := scalar s!"dx{g}"
  let component (g : Nat) : String := s!"n{r}{g}"
  let raw (g : Nat) : String := s!"_n{r}{g}"
  -- From the first vertex of the facet to the vertex opposite to it
  let away (g : Nat) : Term := .group (namedVertex plus facet g - namedVertex plus "v0" g)
  match d.tdim, d.gdim with
  | 1, 1 =>
    [.direction (.ahead plus),
      .note "Facet normals are 1.0 or -1.0:   (-1.0) <-- X------X --> (1.0)",
      .define true s!"n{r}" .wide (.directed opposite (fixed 10 1) (-fixed 10 1))]
  | 2, 2 =>
    [.direction (.negative (dx 1 * away 0 - dx 0 * away 1)),
      .note "Compute facet normals from the facet scale factor constants",
      .define true (component 0) .wide (.directed opposite (dx 1 / det) (-dx 1 / det)),
      .define true (component 1) .wide (.directed opposite (-dx 0 / det) (dx 0 / det))]
  | 3, 3 =>
    let a (g : Nat) : Term := scalar s!"a{g}"
    [.direction (.negative (total ((List.range 3).map fun g => a g * away g))),
      .note "Compute facet normals from the facet scale factor constants"] ++
    ((List.range 3).map fun g =>
      .define true (component g) .wide (.directed opposite (a g / det) (-a g / det)))
  | 1, gdim =>
    let length := s!"n{r}_length"
    [.note "Compute facet normal"] ++
    ((List.range gdim).map fun g =>
      .define true (raw g) .wide
        (.byFacet plus (vertex plus 0 g - vertex plus 1 g) (vertex plus 1 g - vertex plus 0 g))) ++
    [constant length (.sqrt (sumOfSquares ((List.range gdim).map fun g => scalar (raw g))))] ++
    ((List.range gdim).map fun g =>
      let n := scalar (raw g)
      constant (component g) ((if opposite then -n else n) / scalar length))
  | _, _ =>
    let e (v g : Nat) : Term := .group (vertex plus v g - vertex plus 0 g)
    let rawK (g : Nat) : String := s!"_k{r}{g}"
    let k (g : Nat) : Term := scalar s!"k{r}{g}"
    let length := s!"_k{r}_length"
    let along := s!"k{r}dote"
    [.note "Compute facet normal n via Rodrigues' rotation formula:",
      .note "  n = k x e  + k (k . e)",
      .note "where e is the edge vector (dx0, dx1, dx2) and k is the unit cell normal"] ++
    ((List.range 3).map fun g =>
      let (a, b) := nextAxes g
      constant (rawK g) (e 1 a * e 2 b - e 1 b * e 2 a)) ++
    [constant length (.sqrt (sumOfSquares ((List.range 3).map fun g => scalar (rawK g))))] ++
    ((List.range 3).map fun g => constant s!"k{r}{g}" (scalar (rawK g) / scalar length)) ++
    [constant along (total ((List.range 3).map fun g => k g * dx g))] ++
    ((List.range 3).map fun g =>
      let (a, b) := nextAxes g
      constant (raw g) (.group (k a * dx b - k b * dx a) + k g * scalar along)) ++
    [.note "Orient the normal away from the vertex opposite to the facet",
      .direction (.negative (total ((List.range 3).map fun g => scalar (raw g) * away g)))] ++
    ((List.range 3).map fun g =>
      .define true (component g) .wide
        (.turned opposite (scalar (raw g) / det) (-scalar (raw g) / det)))

def cellVolumeSteps (d : Dimensions) (side : Option Side) : List Step :=
  let size : Term := .abs (scalar (nameDet side))
  let value :=
    match d.tdim with
    | 1 => size
    | 2 => size / fixed 20 1
    | _ => size / fixed 60 1
  [.note "Cell volume", .define true s!"volume{Side.suffix side}" .tight (.plain value)]

def circumradiusSteps (d : Dimensions) (side : Option Side) : List Step :=
  let r := Side.suffix side
  let name := s!"circumradius{r}"
  let volume := scalar s!"volume{r}"
  let lengthName (a b : Nat) : String := s!"v{a}v{b}{r}"
  let length (a b : Nat) : Term := scalar (lengthName a b)
  let lengthStep : Nat × Nat → Step := fun (a, b) =>
    constant (lengthName a b) (.sqrt (sumOfSquares
      ((List.range d.gdim).map fun g => .group (vertex side b g - vertex side a g))))
  match d.tdim with
  | 1 =>
    [.note "Compute circumradius, in 1D it is equal to the cell volume",
      constant name (.abs (scalar (nameDet side)))]
  | 2 =>
    [.note "Compute circumradius of triangle"] ++ [(1, 2), (0, 2), (0, 1)].map lengthStep ++
    [.gap, .define true name .tight
      (.plain (fixed 25 2 * .group (length 1 2 * length 0 2 * length 0 1) / .group volume))]
  | _ =>
    let la := scalar s!"la{r}"
    let lb := scalar s!"lb{r}"
    let lc := scalar s!"lc{r}"
    let s := scalar s!"s{r}"
    [.note "Compute circumradius"] ++
    [(1, 2), (0, 2), (0, 1), (0, 3), (1, 3), (2, 3)].map lengthStep ++
    [constant s!"la{r}" (length 1 2 * length 0 3), constant s!"lb{r}" (length 0 2 * length 1 3),
      constant s!"lc{r}" (length 0 1 * length 2 3),
      constant s!"s{r}" (fixed 5 1 * .group (la + lb + lc)),
      constant s!"area{r}"
        (.sqrt (s * .group (s - la) * .group (s - lb) * .group (s - lc))),
      .gap, constant name (scalar s!"area{r}" / .group (fixed 60 1 * volume))]

def facetAreaSteps (d : Dimensions) : List Step :=
  let area (e : Term) : Step := .define true "facet_area" .tight (.plain e)
  match d.tdim with
  | 1 => [.note "Facet area", area (fixed 10 1)]
  | 2 => [.note "Facet area", area (scalar "det")]
  | _ =>
    [.note "Facet area (det is scaled by the area of the reference triangle)",
      area (scalar "det" / fixed 20 1)]

def pointCoordinatesSteps (d : Dimensions) (side : Option Side) : List Step :=
  [.note "Map quadrature point ip to physical coordinates", .pointArray side d.gdim] ++
  (List.range d.gdim).map fun g =>
    .pointEntry side g ((List.range d.tdim).foldl
      (fun e t => e + entryJ side g t * .name (.point t)) (vertex side 0 g))

/-- The steps of a passage for a dimension pair and a side. -/
def steps (p : Passage) (d : Dimensions) (side : Option Side) : List Step :=
  match p with
  | jacobian => jacobianSteps d side
  | inverseJacobian => inverseJacobianSteps d side
  | orientation => if d.isManifold then [.orientation side] else []
  | scaleFactor => [.note "Set scale factor", constant "det" (.abs (scalar "detJ"))]
  | facetDeterminant => facetDeterminantSteps d (facetSide side)
  | facetNormal => facetNormalSteps d side
  | cellVolume => cellVolumeSteps d side
  | circumradius => circumradiusSteps d side
  | facetArea => facetAreaSteps d
  | pointCoordinates => pointCoordinatesSteps d side

/-- The code of a passage; every line is ended. -/
def text (p : Passage) (d : Dimensions) (side : Option Side) : String :=
  String.join ((p.steps d side).flatMap fun s => s.lines.map (· ++ "\n"))

end Passage
end WeakForm
