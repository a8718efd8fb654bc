import WeakForm.Proofs.PseudoInverse

/-!
# Piola maps

The contravariant map takes a vector of the reference cell along with the Jacobian and divides by
the determinant, the covariant map takes it along with the transposed inverse. Between the two
there is nothing but the determinant: products of a contravariant and a covariant value are
products of reference values, over the determinant. This only needs the inverse to be one from
the left, so that it holds for curves and surfaces as well, with any orientation. The double maps
of matrices do to the product of two vectors what the single maps do to its factors, component by
component.

Both facts are about transforms that exist. A transform fails for a wrong number of reference
components and for nothing else, with the same error for the numbers of a cell and for its
symbols: the entries of the matrices are in range, and exponents of two symbols cannot overflow.

## Theorems

* `apply_contravariant`, `apply_covariant`: Values of vectors, as sums.
* `apply_doubleContravariant`, `apply_doubleCovariant`: Values of products of vectors.
* `AffineMap.exists_valueEntries`, `Dimensions.exists_valueEntries`: Transforms exist.
* `AffineMap.piola_dual`: Duality, products and failures of the transforms of a cell.
-/

namespace WeakForm

open List Success Matrix WeakForm.Geometry

/-! ## Values -/

/-- The components of the product of two vectors, row by row. -/
noncomputable def outer (u v : List ℝ) : List ℝ := u.flatMap fun a => v.map (a * ·)

section

variable {n : Nat} {u v : List ℝ}

theorem sum_row (hu : u.length = n) (f : Nat → ℝ) :
    Scalar.sum (zipWith (· * ·) ((range n).map f) u) = ∑ j : Fin n, f j * vector n u j := by
  rw [eq_map_coordinate hu, zipWith_map_left, zipWith_map_right, zipWith_self, Scalar.sum_eq_sum,
    sum_range_eq_sum, vector_map_range]

theorem sum_outer (hu : u.length = n) (hv : v.length = n) (f g : Nat → ℝ) :
    Scalar.sum (zipWith (· * ·) ((axisPairs n).map fun x => f x.1 * g x.2) (outer u v)) =
      (∑ j : Fin n, f j * vector n u j) * ∑ j : Fin n, g j * vector n v j := by
  have houter : outer u v = (axisPairs n).map fun x => coordinate u x.1 * coordinate v x.2 := by
    rw [outer, axisPairs, map_flatMap]
    conv_lhs => rw [eq_map_coordinate hu, eq_map_coordinate hv]
    simp only [flatMap_map, List.map_map]
    rfl
  rw [houter, zipWith_map_left, zipWith_map_right, zipWith_self, Scalar.sum_eq_sum, axisPairs,
    map_flatMap, flatMap_def, sum_flatten, List.map_map, sum_range_eq_sum, Finset.sum_mul_sum]
  refine Finset.sum_congr rfl fun j _ => ?_
  rw [Function.comp_apply, List.map_map, sum_range_eq_sum]
  exact Finset.sum_congr rfl fun k _ => mul_mul_mul_comm _ _ _ _

end

section

variable {m : AffineMap ℝ} {i components : Nat} {t : ValueTransform ℝ} {u v : List ℝ}

theorem apply_contravariant (h : valueTransform .contravariant i components (.ofMap m) = .ok t)
    (hu : u.length = m.dims.tdim) : t.apply u = 1 / m.determinant *
      ∑ j : Fin m.dims.tdim, m.jacobian.entry i j * vector m.dims.tdim u j := by
  rcases valueEntries_eq_ok.1 (valueTransform_eq_ok.1 h).2.1 with ⟨hscale, hrow⟩
  have hrow := mapM_eq_map (g := fun x : Nat × Nat => m.jacobian.entry i x.1) hrow
    fun x _ y hy => (Grid.get_eq_ok.1 hy).2.symm
  rw [ValueTransform.apply, ← pure_eq_ok.1 hscale, hrow, ← sum_row hu, Mapping.places,
    List.map_map]
  rfl

theorem apply_covariant (h : valueTransform .covariant i components (.ofMap m) = .ok t)
    (hu : u.length = m.dims.tdim) : t.apply u =
      ∑ j : Fin m.dims.tdim, m.inverse.entry j i * vector m.dims.tdim u j := by
  rcases valueEntries_eq_ok.1 (valueTransform_eq_ok.1 h).2.1 with ⟨hscale, hrow⟩
  have hrow := mapM_eq_map (g := fun x : Nat × Nat => m.inverse.entry x.1 i) hrow
    fun x _ y hy => (Grid.get_eq_ok.1 hy).2.symm
  rw [ValueTransform.apply, ← pure_eq_ok.1 hscale, hrow,
    ← sum_row hu fun j => m.inverse.entry j i, Mapping.places, List.map_map]
  exact one_mul _

theorem product_of_get {g g' : Grid ℝ} {a b a' b' : Nat} {y : ℝ}
    (h : (do (MapEntries.ofMap m).mul (← g.get a b) (← g'.get a' b')) = .ok y) :
    y = g.entry a b * g'.entry a' b' := by
  rcases bind_eq_ok.1 h with ⟨x, hx, h⟩
  rcases bind_eq_ok.1 h with ⟨x', hx', h⟩
  rw [(Grid.get_eq_ok.1 hx).2, (Grid.get_eq_ok.1 hx').2]
  exact (Except.ok.inj h).symm

theorem apply_doubleContravariant
    (h : valueTransform .doubleContravariant i components (.ofMap m) = .ok t)
    (hu : u.length = m.dims.tdim) (hv : v.length = m.dims.tdim) : t.apply (outer u v) =
      1 / m.determinant * (1 / m.determinant) * ((∑ j : Fin m.dims.tdim,
            m.jacobian.entry (i / m.dims.gdim) j * vector m.dims.tdim u j) * ∑ j : Fin m.dims.tdim,
            m.jacobian.entry (i % m.dims.gdim) j * vector m.dims.tdim v j) := by
  rcases valueEntries_eq_ok.1 (valueTransform_eq_ok.1 h).2.1 with ⟨hscale, hrow⟩
  have hrow := mapM_eq_map (g := fun x : Nat × Nat => m.jacobian.entry (i / m.dims.gdim) x.1 *
    m.jacobian.entry (i % m.dims.gdim) x.2) hrow fun x _ y hy => product_of_get hy
  rw [ValueTransform.apply, ← Except.ok.inj hscale, hrow, ← sum_outer hu hv]
  rfl

theorem apply_doubleCovariant (h : valueTransform .doubleCovariant i components (.ofMap m) = .ok t)
    (hu : u.length = m.dims.tdim) (hv : v.length = m.dims.tdim) : t.apply (outer u v) =
      (∑ j : Fin m.dims.tdim, m.inverse.entry j (i / m.dims.gdim) * vector m.dims.tdim u j) *
        ∑ j : Fin m.dims.tdim, m.inverse.entry j (i % m.dims.gdim) * vector m.dims.tdim v j := by
  rcases valueEntries_eq_ok.1 (valueTransform_eq_ok.1 h).2.1 with ⟨hscale, hrow⟩
  have hrow := mapM_eq_map (g := fun x : Nat × Nat => m.inverse.entry x.1 (i / m.dims.gdim) *
    m.inverse.entry x.2 (i % m.dims.gdim)) hrow fun x _ y hy => product_of_get hy
  rw [ValueTransform.apply, ← pure_eq_ok.1 hscale, hrow,
    ← sum_outer hu hv (fun j => m.inverse.entry j _) fun j => m.inverse.entry j _]
  exact one_mul _

end

/-! ## Existence -/

theorem AffineMap.parts {α : Type} [Scalar α] {x : Grid α} {d : Dimensions} {m : AffineMap α}
    (h : AffineMap.of x d = .ok m ∨ ∃ orientation, AffineMap.oriented x d orientation = .ok m) :
    m.dims = d ∧ m.jacobian = Geometry.jacobian x d ∧
      m.inverse = (inverseJacobian (Geometry.jacobian x d) d).2 := by
  have hof : ∀ {m}, AffineMap.of x d = .ok m → m.dims = d ∧ m.jacobian = Geometry.jacobian x d ∧
      m.inverse = (inverseJacobian (Geometry.jacobian x d) d).2 := by
    intro m h
    rcases bind_eq_ok.1 h with ⟨_, _, h⟩
    cases h
    exact ⟨rfl, rfl, rfl⟩
  rcases h with h | ⟨orientation, h⟩
  · exact hof h
  · rcases bind_eq_ok.1 h with ⟨m', hm', h⟩
    have hparts := hof (lift_fault_eq_ok.1 hm')
    -- An orientation only touches the determinant.
    split at h
    · rcases bind_eq_ok.1 h with ⟨_, _, h⟩
      rwa [← pure_eq_ok.1 h]
    · rwa [← pure_eq_ok.1 h]

variable {mapping : Mapping} {i : Nat}

theorem AffineMap.exists_valueEntries {m : AffineMap ℝ} (hrows : m.jacobian.rows = m.dims.gdim)
    (hcols : m.jacobian.cols = m.dims.tdim) (hrows' : m.inverse.rows = m.dims.tdim)
    (hcols' : m.inverse.cols = m.dims.gdim) (hi : i < mapping.components m.dims.gdim) :
    ∃ scale row, valueEntries mapping i (.ofMap m) = .ok (scale, row) := by
  refine WeakForm.exists_valueEntries (m := .ofMap m) (S := fun _ => True)
    (fun row hrow col hcol => ⟨_, trivial, if_pos ?_⟩)
    (fun row hrow col hcol => ⟨_, trivial, if_pos ?_⟩) trivial (fun _ _ _ _ => ⟨_, rfl⟩) hi
  · rw [hrows, hcols]
    exact ⟨hrow, hcol⟩
  · rw [hrows', hcols']
    exact ⟨hrow, hcol⟩

theorem GeometryMonomial.exists_mul_power (s s' : Symbol) {e k : Int} (he : e ≠ 0) (hk : k ≠ 0)
    (h : Powers.fits (e + k) = true) :
    ∃ c, (power s e : GeometryMonomial ℝ).mul (power s' k) = .ok c := by
  have hinsert : ∃ p, Powers.mul [(s, e)] [(s', k)] = .ok p := by
    change ∃ p, ((Powers.insert s' k [(s, e)]).bind fun p => .ok p) = .ok p
    unfold Powers.insert
    split_ifs <;> simp_all [Except.bind, Powers.insert, bind, pure, Except.pure]
  rcases hinsert with ⟨p, hp⟩
  refine ⟨_, bind_eq_ok.2 ⟨p, ?_, rfl⟩⟩
  rwa [power, power, if_neg he, if_neg hk]

theorem Dimensions.exists_valueEntries (d : Dimensions) (side : Option Side)
    (hi : i < mapping.components d.gdim) : ∃ scale row, valueEntries mapping i
      (.symbolic d side : MapEntries (GeometryMonomial ℝ)) = .ok (scale, row) := by
  -- All entries are single symbols, with exponent one or minus one.
  refine WeakForm.exists_valueEntries (m := .symbolic d side)
    (S := fun a => ∃ s e, (e = 1 ∨ e = -1) ∧ a = GeometryMonomial.power s e)
    (fun row _ col _ => ⟨_, ⟨.jacobian side row col, 1, .inl rfl, rfl⟩, rfl⟩)
    (fun row _ col _ => ⟨_, ⟨.inverse side row col, 1, .inl rfl, rfl⟩, rfl⟩)
    ⟨.determinant side, -1, .inr rfl, rfl⟩ ?_ hi
  rintro _ _ ⟨s, e, he, rfl⟩ ⟨s', k, hk, rfl⟩
  rcases he with rfl | rfl <;> rcases hk with rfl | rfl <;>
    exact GeometryMonomial.exists_mul_power s s' (by decide) (by decide) rfl

/-- Where the entries exist, a transform depends on the number of reference components only. -/
theorem valueTransform_shape {σ : Type} {m : MapEntries σ}
    (h : ∃ scale row, valueEntries mapping i m = .ok (scale, row)) (components : Nat) :
    ((∃ t, valueTransform mapping i components m = .ok t) ↔
      components = mapping.components m.dims.tdim) ∧ (components ≠ mapping.components m.dims.tdim →
      valueTransform mapping i components m = .error (.problem
        (.invalidValueShape mapping.name (mapping.components m.dims.tdim) components))) := by
  rcases h with ⟨scale, row, hentries⟩
  refine ⟨⟨fun ⟨t, ht⟩ => (valueTransform_eq_ok.1 ht).1, fun hcount => ?_⟩, fun hne => if_neg hne⟩
  exact ⟨⟨scale, row, _⟩, valueTransform_eq_ok.2 ⟨hcount, hentries, rfl⟩⟩

/-- The value transforms of a cell that is not degenerate, with any orientation. Contravariant and
    covariant values are dual to each other, the double maps take products of vectors to products
    of values, and a transform fails exactly if the number of reference components is not that of
    the mapping, for the numbers of the cell as for its symbols. -/
theorem AffineMap.piola_dual {x : Grid ℝ} {d : Dimensions} {m : AffineMap ℝ}
    (hm : AffineMap.of x d = .ok m ∨ ∃ orientation, AffineMap.oriented x d orientation = .ok m)
    (hdet : ((m.jacobian.matrix d.gdim d.tdim)ᵀ * m.jacobian.matrix d.gdim d.tdim).det ≠ 0) :
    ∃ t : Mapping → Nat → ValueTransform ℝ,
      (∀ mapping, ∀ i < mapping.components d.gdim,
        valueTransform mapping i (mapping.components d.tdim) (.ofMap m) = .ok (t mapping i)) ∧
      (∀ u v : List ℝ, u.length = d.tdim → v.length = d.tdim →
        ∑ i ∈ Finset.range d.gdim, (t .contravariant i).apply u * (t .covariant i).apply v =
          1 / m.determinant * ∑ j ∈ Finset.range d.tdim, coordinate u j * coordinate v j ∧
        ∀ i₀ < d.gdim, ∀ i₁ < d.gdim,
          (t .doubleCovariant (i₀ * d.gdim + i₁)).apply (outer u v) =
            (t .covariant i₀).apply u * (t .covariant i₁).apply v ∧
          (t .doubleContravariant (i₀ * d.gdim + i₁)).apply (outer u v) =
            (t .contravariant i₀).apply u * (t .contravariant i₁).apply v) ∧
      ∀ mapping, ∀ i < mapping.components d.gdim, ∀ (components : Nat) (side : Option Side),
        ((∃ a, valueTransform mapping i components (.ofMap m) = .ok a) ↔
          components = mapping.components d.tdim) ∧
        ((∃ a, valueTransform mapping i components
            (.symbolic d side : MapEntries (GeometryMonomial ℝ)) = .ok a) ↔
          components = mapping.components d.tdim) ∧
        (components ≠ mapping.components d.tdim →
          valueTransform mapping i components (.ofMap m) = .error (.problem
            (.invalidValueShape mapping.name (mapping.components d.tdim) components)) ∧
          valueTransform mapping i components
            (.symbolic d side : MapEntries (GeometryMonomial ℝ)) = .error (.problem
              (.invalidValueShape mapping.name (mapping.components d.tdim) components))) := by
  rcases AffineMap.parts hm with ⟨rfl, hjacobian, hinverse⟩
  have hnumeric : ∀ mapping, ∀ i < mapping.components m.dims.gdim,
      ∃ scale row, valueEntries mapping i (.ofMap m) = .ok (scale, row) := by
    rcases inverseJacobian_size (Geometry.jacobian x m.dims) m.dims with ⟨hrows, hcols⟩
    rw [← hinverse] at hrows hcols
    exact fun mapping i hi =>
      AffineMap.exists_valueEntries (hjacobian ▸ rfl) (hjacobian ▸ rfl) hrows hcols hi
  have : Nonempty (ValueTransform ℝ) := ⟨⟨0, [], 0⟩⟩
  choose! t ht using fun mapping i (hi : i < mapping.components m.dims.gdim) =>
    (valueTransform_shape (hnumeric mapping i hi) _).1.2 rfl
  refine ⟨t, ht, fun u v hu hv => ⟨?_, fun i₀ h₀ i₁ h₁ => ?_⟩,
    fun mapping i hi components side => ?_⟩
  · have hleft : m.inverse.matrix m.dims.tdim m.dims.gdim *
        m.jacobian.matrix m.dims.gdim m.dims.tdim = 1 := by
      rw [hjacobian] at hdet ⊢
      rw [hinverse]
      exact inverse_mul_jacobian hdet
    have hterm : ∀ i : Fin m.dims.gdim, (t .contravariant i).apply u * (t .covariant i).apply v =
        1 / m.determinant * ((m.jacobian.matrix m.dims.gdim m.dims.tdim *ᵥ
          vector m.dims.tdim u) i *
            ((m.inverse.matrix m.dims.tdim m.dims.gdim)ᵀ *ᵥ vector m.dims.tdim v) i) := by
      intro i
      rw [apply_contravariant (ht .contravariant i i.isLt) hu,
        apply_covariant (ht .covariant i i.isLt) hv, mul_assoc]
      rfl
    rw [Finset.sum_range, Finset.sum_range, Finset.sum_congr rfl fun i _ => hterm i,
      ← Finset.mul_sum]
    refine congrArg (1 / m.determinant * ·) ?_
    -- The Jacobian and its inverse meet between the two vectors.
    change _ ⬝ᵥ _ = vector m.dims.tdim u ⬝ᵥ vector m.dims.tdim v
    rw [dotProduct_mulVec, vecMul_transpose, mulVec_mulVec, hleft, one_mulVec]
  · rcases Table.split_digit (n := i₀) h₁ with ⟨hdiv, hmod⟩
    have hi : i₀ * m.dims.gdim + i₁ < m.dims.gdim * m.dims.gdim := by nlinarith
    rw [apply_doubleCovariant (ht .doubleCovariant _ hi) hu hv,
      apply_doubleContravariant (ht .doubleContravariant _ hi) hu hv,
      apply_covariant (ht .covariant i₀ h₀) hu, apply_covariant (ht .covariant i₁ h₁) hv,
      apply_contravariant (ht .contravariant i₀ h₀) hu,
      apply_contravariant (ht .contravariant i₁ h₁) hv, hdiv, hmod]
    exact ⟨rfl, mul_mul_mul_comm _ _ _ _⟩
  · rcases valueTransform_shape (hnumeric mapping i hi) components with ⟨hiff, herror⟩
    rcases valueTransform_shape (m.dims.exists_valueEntries side hi) components with
      ⟨hiff', herror'⟩
    exact ⟨hiff, hiff', fun hne => ⟨herror hne, herror' hne⟩⟩

theorem AffineMap.piola_dual_tilted : ∃ m, AffineMap.oriented tiltedTriangle .surface 1 = .ok m ∧
    ((m.jacobian.matrix 3 2)ᵀ * m.jacobian.matrix 3 2).det ≠ 0 ∧
    ∃ t : Mapping → Nat → ValueTransform ℝ,
      (∀ mapping, ∀ i < mapping.components 3,
        valueTransform mapping i (mapping.components 2) (.ofMap m) = .ok (t mapping i)) ∧
      (∀ u v : List ℝ, u.length = 2 → v.length = 2 →
        ∑ i ∈ Finset.range 3, (t .contravariant i).apply u * (t .covariant i).apply v =
          1 / m.determinant * ∑ j ∈ Finset.range 2, coordinate u j * coordinate v j ∧
        ∀ i₀ < 3, ∀ i₁ < 3,
          (t .doubleCovariant (i₀ * 3 + i₁)).apply (outer u v) =
            (t .covariant i₀).apply u * (t .covariant i₁).apply v ∧
          (t .doubleContravariant (i₀ * 3 + i₁)).apply (outer u v) =
            (t .contravariant i₀).apply u * (t .contravariant i₁).apply v) ∧
      valueTransform .doubleCovariant 8 2 (.ofMap m) =
        .error (.problem (.invalidValueShape Mapping.doubleCovariant.name 4 2)) := by
  have hdet : (((Geometry.jacobian tiltedTriangle .surface).matrix 3 2)ᵀ *
      (Geometry.jacobian tiltedTriangle .surface).matrix 3 2).det ≠ 0 := by
    rw [← Geometry.gram, det_gram_tiltedTriangle]
    norm_num
  have horiented : AffineMap.oriented tiltedTriangle .surface 1 = .ok ⟨.surface, tiltedTriangle,
      Geometry.jacobian tiltedTriangle .surface, _, _⟩ := rfl
  rcases AffineMap.piola_dual (.inr ⟨1, horiented⟩) hdet with ⟨t, ht, hdual, hshape⟩
  have hfails := (hshape .doubleCovariant 8 (by decide) 2 none).2.2 (by decide)
  exact ⟨_, horiented, hdet, t, ht, hdual, hfails.1⟩

end WeakForm
