import WeakForm.Proofs.Monomial
import WeakForm.Geometry.Transform
import WeakForm.Proofs.Numbering

/-!
# Symbolic and numeric transforms

The transforms of values and derivatives are stated once, over the entries of a cell
map, and used with symbols and with numbers. That they agree is not a property of
any one mapping: a definition that only multiplies entries together carries every
relation between two kinds of entries over to its results, if multiplication does.
`MapEntries.Related` is such a relation, and the lemmas about it are proved once for
all mappings and all orders of derivatives.

Two instances are needed. Symbols are related to the values that an assignment gives
them, which also keeps track of which symbols occur and with which sign of the
exponent. Values of the symbols of a cell are related to the entries of its map by
equality, where the map has them.

Between the two stands `MapEntries.valued`, the map whose entries are the values of
symbols. None of its operations fails, so its transforms always exist.

## Theorems

* `valueTransform_eq_ok`: What a value transform consists of.
* `derivativeRow_related`, `valueEntries_related`: Related maps have related transforms.
* `symbolic_related_valued`: Symbols stand for their values.
* `derivativeRow_valued`: The factors of a derivative, as products.
-/

namespace WeakForm

open List Success GeometryMonomial

theorem mapM_related {ε ε' ι σ τ : Type} {f : ι → Except ε σ} {g : ι → Except ε' τ}
    {R : σ → τ → Prop} {xs : List ι} {ys : List σ} {zs : List τ} (hf : xs.mapM f = .ok ys)
    (hg : xs.mapM g = .ok zs)
    (h : ∀ x ∈ xs, ∀ y z, f x = .ok y → g x = .ok z → R y z) : Forall₂ R ys zs :=
  forall₂_join (mapM_eq_ok.1 hf) (mapM_eq_ok.1 hg) fun x hx y _ z hxy hxz =>
    h x hx y z hxy hxz

theorem mapM_exists {ε ι σ : Type} (xs : List ι) (f : ι → Except ε σ)
    (h : ∀ x ∈ xs, ∃ y, f x = .ok y) : ∃ ys, xs.mapM f = .ok ys := by
  induction xs with
  | nil => exact ⟨[], mapM_eq_ok.2 Forall₂.nil⟩
  | cons x xs ih =>
    rcases h x mem_cons_self with ⟨y, hy⟩
    rcases ih fun x' hx' => h x' (mem_cons_of_mem x hx') with ⟨ys, hys⟩
    exact ⟨y :: ys, mapM_eq_ok.2 (Forall₂.cons hy (mapM_eq_ok.1 hys))⟩

section

variable {σ τ : Type} {mapping : Mapping} {component : Nat} {m : MapEntries σ} {row xs : List σ}
  {g : List Nat} {ys : List τ}

theorem valueTransform_eq_ok {components : Nat} {t : ValueTransform σ} :
    valueTransform mapping component components m = .ok t ↔
      components = mapping.components m.dims.tdim ∧
        valueEntries mapping component m = .ok (t.scale, t.row) ∧
          t.components = mapping.components m.dims.gdim := by
  unfold valueTransform
  by_cases hcount : components = mapping.components m.dims.tdim
  · simp only [if_pos hcount]
    rw [bind_eq_ok]
    constructor
    · rintro ⟨x, hx, h⟩
      cases h
      exact ⟨hcount, lift_fault_eq_ok.1 hx, rfl⟩
    · rintro ⟨_, hx, ht⟩
      refine ⟨_, lift_fault_eq_ok.2 hx, pure_eq_ok.2 ?_⟩
      rw [← ht]
  · simp only [if_neg hcount]
    constructor
    · intro h
      cases h
    · intro h
      exact absurd h.1 hcount

theorem mem_axisPairs {n : Nat} {x : Nat × Nat} : x ∈ axisPairs n ↔ x.1 < n ∧ x.2 < n := by
  rcases x with ⟨j, k⟩
  unfold axisPairs
  simp only [mem_flatMap, mem_map, mem_range, Prod.mk.injEq]
  constructor
  · rintro ⟨a, ha, b, hb, rfl, rfl⟩
    exact ⟨ha, hb⟩
  · rintro ⟨hj, hk⟩
    exact ⟨j, hj, k, hk, rfl, rfl⟩

theorem length_axisPairs (n : Nat) : (axisPairs n).length = n * n := by
  unfold axisPairs
  rw [length_flatMap]
  simp

/-- The places of the reference components of a mapping: axes, or pairs of axes. -/
def Mapping.places (tdim : Nat) : Mapping → List (Nat × Nat)
  | affine => [(0, 0)]
  | contravariant | covariant => (List.range tdim).map fun j => (j, 0)
  | doubleCovariant | doubleContravariant => axisPairs tdim

theorem Mapping.length_places (mapping : Mapping) (tdim : Nat) :
    (mapping.places tdim).length = mapping.components tdim := by
  cases mapping <;> simp [places, components, length_axisPairs]

def MapEntries.scale (m : MapEntries σ) : Mapping → Checked σ
  | .affine | .covariant | .doubleCovariant => pure m.one
  | .contravariant => pure m.inverseDeterminant
  | .doubleContravariant => m.mul m.inverseDeterminant m.inverseDeterminant

/-- The entry of the row of a value transform at the given place. -/
def MapEntries.factor (m : MapEntries σ) (component : Nat) (x : Nat × Nat) : Mapping → Checked σ
  | .affine => pure m.one
  | .contravariant => m.jacobian component x.1
  | .covariant => m.inverse x.1 component
  | .doubleCovariant => do
    m.mul (← m.inverse x.1 (component / m.dims.gdim)) (← m.inverse x.2 (component % m.dims.gdim))
  | .doubleContravariant => do
    m.mul (← m.jacobian (component / m.dims.gdim) x.1)
      (← m.jacobian (component % m.dims.gdim) x.2)

theorem valueEntries_eq_ok {scale : σ} : valueEntries mapping component m = .ok (scale, row) ↔
      m.scale mapping = .ok scale ∧
        (mapping.places m.dims.tdim).mapM (m.factor component · mapping) = .ok row := by
  have hparts : valueEntries mapping component m = (do
      let row ← (mapping.places m.dims.tdim).mapM (m.factor component · mapping)
      return (← m.scale mapping, row)) := by
    cases mapping <;>
      simp [valueEntries, Mapping.places, MapEntries.scale, MapEntries.factor, mapM_map,
        Function.comp_def]
  rw [hparts, bind_eq_ok]
  constructor
  · rintro ⟨row', hrow, h⟩
    rcases bind_eq_ok.1 h with ⟨scale', hscale, h⟩
    cases pure_eq_ok.1 h
    exact ⟨hscale, hrow⟩
  · rintro ⟨hscale, hrow⟩
    exact ⟨row, hrow, bind_eq_ok.2 ⟨scale, hscale, rfl⟩⟩

theorem length_valueEntries {scale : σ} (h : valueEntries mapping component m = .ok (scale, row)) :
    row.length = mapping.components m.dims.tdim := by
  rw [← (mapM_eq_ok.1 (valueEntries_eq_ok.1 h).2).length_eq, Mapping.length_places]

/-- Entries of one map stand for those of another, and products of entries do. Only entries
    inside of the matrices are compared. -/
structure MapEntries.Related (R : σ → τ → Prop) (m : MapEntries σ) (n : MapEntries τ) : Prop where
  dims : m.dims = n.dims
  one : R m.one n.one
  mul : ∀ {a a' b b' c c'}, R a a' → R b b' → m.mul a b = .ok c → n.mul a' b' = .ok c' → R c c'
  jacobian : ∀ {row col x y}, row < m.dims.gdim → col < m.dims.tdim →
    m.jacobian row col = .ok x → n.jacobian row col = .ok y → R x y
  inverse : ∀ {row col x y}, row < m.dims.tdim → col < m.dims.gdim →
    m.inverse row col = .ok x → n.inverse row col = .ok y → R x y
  inverseDeterminant : R m.inverseDeterminant n.inverseDeterminant

variable {R : σ → τ → Prop} {m : MapEntries σ} {n : MapEntries τ}

theorem derivativeEntry_related (h : m.Related R n) {t : List Nat}
    (hg : ∀ axis ∈ g, axis < m.dims.gdim) (ht : ∀ axis ∈ t, axis < m.dims.tdim) {x : σ} {y : τ}
    (hx : derivativeEntry m g t = .ok x) (hy : derivativeEntry n g t = .ok y) : R x y := by
  unfold derivativeEntry at hx hy
  have hone := h.one
  -- The products are related from any related start on.
  generalize m.one = a at hx hone
  generalize n.one = a' at hy hone
  induction t generalizing g a a' with
  | nil =>
    rw [zip_nil_left, foldlM_nil_eq_ok] at hx hy
    rwa [← hx, ← hy]
  | cons t ts ih =>
    cases g with
    | nil =>
      rw [zip_nil_right, foldlM_nil_eq_ok] at hx hy
      rwa [← hx, ← hy]
    | cons g gs =>
      rw [zip_cons_cons, foldlM_cons_eq_ok] at hx hy
      rcases hx with ⟨b, hb, hx⟩
      rcases hy with ⟨b', hb', hy⟩
      rcases bind_eq_ok.1 hb with ⟨k, hk, hb⟩
      rcases bind_eq_ok.1 hb' with ⟨k', hk', hb'⟩
      have hkk := h.inverse (ht t mem_cons_self) (hg g mem_cons_self) hk hk'
      exact ih (fun axis ha => hg axis (mem_cons_of_mem g ha))
        (fun axis ha => ht axis (mem_cons_of_mem t ha)) _ hx _ hy
        (h.mul hone hkk hb hb')

theorem derivativeRow_related (h : m.Related R n) {order : Nat}
    (hg : ∀ axis ∈ g, axis < m.dims.gdim) (hx : derivativeRow order m g = .ok xs)
    (hy : derivativeRow order n g = .ok ys) : Forall₂ R xs ys := by
  unfold derivativeRow at hx hy
  rw [← h.dims] at hy
  -- The columns of the row are the tuples of reference axes.
  refine mapM_related hx hy fun t ht x y hxt hyt => ?_
  exact derivativeEntry_related h hg (Tuple.mem_axes_iff.1 ht).2 hxt hyt

theorem valueEntries_related (h : m.Related R n)
    (hcomponent : component < mapping.components m.dims.gdim) {a : σ} {b : τ}
    (hx : valueEntries mapping component m = .ok (a, xs))
    (hy : valueEntries mapping component n = .ok (b, ys)) : R a b ∧ Forall₂ R xs ys := by
  have hgdim : 0 < m.dims.gdim := Nat.lt_of_lt_of_le m.dims.tdim_pos m.dims.tdim_le
  rcases valueEntries_eq_ok.1 hx with ⟨ha, hxs⟩
  rcases valueEntries_eq_ok.1 hy with ⟨hb, hys⟩
  rw [← h.dims] at hys
  refine ⟨?_, mapM_related hxs hys fun place hplace x y hx hy => ?_⟩
  · cases mapping with
    | affine | covariant | doubleCovariant =>
      rw [← Except.ok.inj ha, ← Except.ok.inj hb]
      exact h.one
    | contravariant =>
      rw [← Except.ok.inj ha, ← Except.ok.inj hb]
      exact h.inverseDeterminant
    | doubleContravariant => exact h.mul h.inverseDeterminant h.inverseDeterminant ha hb
  -- The mappings differ in the matrix they read, and in whether they read it once or twice.
  · cases mapping with
    | affine =>
      rw [← Except.ok.inj hx, ← Except.ok.inj hy]
      exact h.one
    | contravariant =>
      rcases mem_map.1 hplace with ⟨j, hj, rfl⟩
      exact h.jacobian hcomponent (mem_range.1 hj) hx hy
    | covariant =>
      rcases mem_map.1 hplace with ⟨j, hj, rfl⟩
      exact h.inverse (mem_range.1 hj) hcomponent hx hy
    | doubleCovariant =>
      have hplace := mem_axisPairs.1 hplace
      rcases bind_eq_ok.1 hx with ⟨x₁, hx₁, hx⟩
      rcases bind_eq_ok.1 hx with ⟨x₂, hx₂, hx⟩
      rcases bind_eq_ok.1 hy with ⟨y₁, hy₁, hy⟩
      rcases bind_eq_ok.1 hy with ⟨y₂, hy₂, hy⟩
      rw [← h.dims] at hy₁ hy₂
      -- A component of a matrix is a row and a column of the physical axes.
      exact h.mul (h.inverse hplace.1 (Nat.div_lt_of_lt_mul hcomponent) hx₁ hy₁)
        (h.inverse hplace.2 (Nat.mod_lt _ hgdim) hx₂ hy₂) hx hy
    | doubleContravariant =>
      have hplace := mem_axisPairs.1 hplace
      rcases bind_eq_ok.1 hx with ⟨x₁, hx₁, hx⟩
      rcases bind_eq_ok.1 hx with ⟨x₂, hx₂, hx⟩
      rcases bind_eq_ok.1 hy with ⟨y₁, hy₁, hy⟩
      rcases bind_eq_ok.1 hy with ⟨y₂, hy₂, hy⟩
      rw [← h.dims] at hy₁ hy₂
      exact h.mul (h.jacobian (Nat.div_lt_of_lt_mul hcomponent) hplace.1 hx₁ hy₁)
        (h.jacobian (Nat.mod_lt _ hgdim) hplace.2 hx₂ hy₂) hx hy

theorem exists_valueEntries {S : σ → Prop}
    (hjacobian : ∀ row < m.dims.gdim, ∀ col < m.dims.tdim, ∃ a, S a ∧ m.jacobian row col = .ok a)
    (hinverse : ∀ row < m.dims.tdim, ∀ col < m.dims.gdim, ∃ a, S a ∧ m.inverse row col = .ok a)
    (hdeterminant : S m.inverseDeterminant) (hmul : ∀ a b, S a → S b → ∃ c, m.mul a b = .ok c)
    (hcomponent : component < mapping.components m.dims.gdim) :
    ∃ scale row, valueEntries mapping component m = .ok (scale, row) := by
  have hgdim : 0 < m.dims.gdim := Nat.lt_of_lt_of_le m.dims.tdim_pos m.dims.tdim_le
  have hscale : ∃ scale, m.scale mapping = .ok scale := by
    cases mapping with
    | doubleContravariant => exact hmul _ _ hdeterminant hdeterminant
    | affine | contravariant | covariant | doubleCovariant => exact ⟨_, rfl⟩
  have hrow := mapM_exists (mapping.places m.dims.tdim) (m.factor component · mapping)
    fun place hplace => by
      cases mapping with
      | affine => exact ⟨_, rfl⟩
      | contravariant =>
        rcases mem_map.1 hplace with ⟨j, hj, rfl⟩
        exact (hjacobian _ hcomponent _ (mem_range.1 hj)).imp fun _ h => h.2
      | covariant =>
        rcases mem_map.1 hplace with ⟨j, hj, rfl⟩
        exact (hinverse _ (mem_range.1 hj) _ hcomponent).imp fun _ h => h.2
      | doubleCovariant =>
        rcases mem_axisPairs.1 hplace with ⟨h₁, h₂⟩
        rcases hinverse _ h₁ _ (Nat.div_lt_of_lt_mul hcomponent) with ⟨a, ha, hx₁⟩
        rcases hinverse _ h₂ _ (Nat.mod_lt component hgdim) with ⟨b, hb, hx₂⟩
        exact (hmul a b ha hb).imp fun _ hc => bind_eq_ok.2 ⟨a, hx₁, bind_eq_ok.2 ⟨b, hx₂, hc⟩⟩
      | doubleContravariant =>
        rcases mem_axisPairs.1 hplace with ⟨h₁, h₂⟩
        rcases hjacobian _ (Nat.div_lt_of_lt_mul hcomponent) _ h₁ with ⟨a, ha, hx₁⟩
        rcases hjacobian _ (Nat.mod_lt component hgdim) _ h₂ with ⟨b, hb, hx₂⟩
        exact (hmul a b ha hb).imp fun _ hc => bind_eq_ok.2 ⟨a, hx₁, bind_eq_ok.2 ⟨b, hx₂, hc⟩⟩
  rcases hscale with ⟨scale, hscale⟩
  rcases hrow with ⟨row, hrow⟩
  exact ⟨scale, row, valueEntries_eq_ok.2 ⟨hscale, hrow⟩⟩

end

/-- The entries of the matrices of a cell have their row and column below its dimensions. -/
def Symbol.Within (d : Dimensions) : Symbol → Prop
  | jacobian _ row col => row < d.gdim ∧ col < d.tdim
  | inverse _ row col => row < d.tdim ∧ col < d.gdim
  | _ => True

/-- The symbols of one side of a cell, and the scale factor. -/
def Symbol.On (side : Option Side) : Symbol → Prop
  | jacobian s _ _ | inverse s _ _ | determinant s => s = side
  | scale => True

section

variable {K : Type} [Field K]

/-- The entries that an assignment of values to symbols gives. -/
def MapEntries.valued (d : Dimensions) (side : Option Side) (v : Symbol → K) : MapEntries K where
  dims := d
  one := 1
  mul a b := .ok (a * b)
  jacobian row col := .ok (v (.jacobian side row col))
  inverse row col := .ok (v (.inverse side row col))
  inverseDeterminant := 1 / v (.determinant side)

/-- The factor of the reference derivative along `t` in the physical derivative along `g`. -/
def chainFactor (side : Option Side) (v : Symbol → K) (g t : List Nat) : K :=
  (List.zipWith (fun t g => v (.inverse side t g)) t g).prod

theorem derivativeEntry_valued (d : Dimensions) (side : Option Side) (v : Symbol → K)
    (g t : List Nat) :
    derivativeEntry (MapEntries.valued d side v) g t = .ok (chainFactor side v g t) := by
  -- The product starts at one, but is followed from any start on.
  have hfold : ∀ (t g : List Nat) (a : K),
      (t.zip g).foldlM (fun entry x => do
        (MapEntries.valued d side v).mul entry (← (MapEntries.valued d side v).inverse x.1 x.2)) a =
          .ok (a * chainFactor side v g t) := by
    intro t
    induction t with
    | nil =>
      intro g a
      rw [zip_nil_left, foldlM_nil, chainFactor, zipWith_nil_left, prod_nil, mul_one]
      rfl
    | cons t ts ih =>
      intro g a
      cases g with
      | nil =>
        rw [zip_nil_right, foldlM_nil, chainFactor, zipWith_nil_right, prod_nil, mul_one]
        rfl
      | cons g gs =>
        rw [zip_cons_cons, foldlM_cons_eq_ok]
        refine ⟨_, rfl, ?_⟩
        rw [ih, chainFactor, chainFactor, zipWith_cons_cons, prod_cons, mul_assoc]
  have h := hfold t g 1
  rwa [one_mul] at h

theorem derivativeRow_valued (order : Nat) (d : Dimensions) (side : Option Side) (v : Symbol → K)
    (g : List Nat) : derivativeRow order (MapEntries.valued d side v) g =
      .ok ((Tuple.axes d.tdim order).map (chainFactor side v g)) := by
  unfold derivativeRow
  rw [mapM_eq_ok, forall₂_map_right_iff]
  exact forall₂_same.2 fun t _ => derivativeEntry_valued d side v g t

theorem valueEntries_valued (mapping : Mapping) (component : Nat) (d : Dimensions)
    (side : Option Side) (v : Symbol → K) :
    ∃ scale row, valueEntries mapping component (MapEntries.valued d side v) =
      .ok (scale, row) := by
  rcases mapM_exists (mapping.places d.tdim)
    ((MapEntries.valued d side v).factor component · mapping)
    (fun _ _ => by cases mapping <;> exact ⟨_, rfl⟩) with ⟨row, hrow⟩
  cases mapping <;> exact ⟨_, row, valueEntries_eq_ok.2 ⟨rfl, hrow⟩⟩

variable [LinearOrder K] [Root K]

/-- A monomial over the symbols of a cell whose value is a given number. -/
structure GeometryMonomial.Stands (d : Dimensions) (v : Symbol → K) (x : GeometryMonomial K)
    (y : K) : Prop where
  signed : x.powers.Signed
  within : x.powers.Over (Symbol.Within d)
  value : x.value v = y

theorem MapEntries.symbolic_related_valued (d : Dimensions) (side : Option Side) (v : Symbol → K) :
    (symbolic d side).Related (Stands d v) (valued d side v) where
  dims := rfl
  one := ⟨Powers.signed_nil, nofun, rfl⟩
  mul := by
    intro a a' b b' c c' ha hb hc hc'
    -- Exponents of one sign never cancel, so no symbol has to be different from zero.
    rcases mul_spec hc ha.signed hb.signed v with ⟨hsigned, hvalue, _⟩
    refine ⟨hsigned, ?_, ?_⟩
    · rcases bind_eq_ok.1 hc with ⟨p, hp, hc⟩
      cases hc
      exact Powers.over_mul hp ha.within hb.within
    · rw [hvalue, ha.value, hb.value]
      exact Except.ok.inj hc'
  jacobian := by
    intro row col x y hrow hcol hx hy
    rw [← Except.ok.inj hx, ← Except.ok.inj hy]
    refine ⟨signed_ofSymbol rfl, ?_, value_ofSymbol _ v⟩
    intro x hx
    rw [mem_singleton.1 hx]
    exact ⟨hrow, hcol⟩
  inverse := by
    intro row col x y hrow hcol hx hy
    rw [← Except.ok.inj hx, ← Except.ok.inj hy]
    refine ⟨signed_ofSymbol rfl, ?_, value_ofSymbol _ v⟩
    intro x hx
    rw [mem_singleton.1 hx]
    exact ⟨hrow, hcol⟩
  inverseDeterminant := by
    refine ⟨?_, ?_, ?_⟩
    · exact Powers.signed_cons.2 ⟨by simp [Symbol.isDivisor], Powers.signed_nil⟩
    · intro x hx
      rw [mem_singleton.1 hx]
      trivial
    -- The only symbol with a negative exponent.
    · rw [value_eq]
      change 1 * Powers.value v [(Symbol.determinant side, -1)] = 1 / v (.determinant side)
      rw [Powers.value_cons, Powers.value_nil, zpow_neg_one, mul_one, one_mul, one_div]

theorem MapEntries.valued_related_ofMap (m : AffineMap K) (side : Option Side) :
    (valued m.dims side m.symbolValue).Related Eq (ofMap m) where
  dims := rfl
  one := rfl
  mul := by
    rintro a _ b _ c c' rfl rfl hc hc'
    rw [← Except.ok.inj hc, ← Except.ok.inj hc']
  -- Symbols have a value outside of the matrix as well; there the map fails.
  jacobian := by
    intro row col x y _ _ hx hy
    cases hx
    exact (Grid.get_eq_ok.1 hy).2
  inverse := by
    intro row col x y _ _ hx hy
    cases hx
    exact (Grid.get_eq_ok.1 hy).2
  inverseDeterminant := rfl

end

end WeakForm
