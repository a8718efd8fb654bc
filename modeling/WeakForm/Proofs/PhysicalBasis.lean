import WeakForm.Proofs.Expansion

/-!
# Basis functions on a physical cell

There are two ways to the values of a basis function on a physical cell. A table can be
transformed with the numbers of the cell, values first and derivatives after. Or a
factor is expanded into tables and products of symbols, and the symbols are given the
values they have on the cell.

Both end in `Expand.physicalSum`, which `expandFactor_total` says of the second way and
`transformTable_entry` of the first. What remains is that the entries of a cell map are
the values of its symbols, and that a tuple of axes stands at its number.

## Theorems

* `expandFactor_eq_transformTable`: Symbolic and numeric transforms agree.
-/

namespace WeakForm

open List Success Expand

section

variable {K : Type} [Field K] {p k r c size : Nat} {data : Dof} {g : List Nat}

theorem sum_zipWith_range (row : List K) (f : Nat → K) :
    (zipWith (· * ·) row ((range row.length).map f)).sum =
      (row.zipIdx.map fun y => y.1 * f y.2).sum := by
  congr 1
  apply ext_getElem
  · simp
  · intro n _ _
    simp

variable [LinearOrder K] [Root K] {e : Element} {t : Table K} {order : Nat} {m : AffineMap K}
  {physical : Table K} (h : transformTable e t order m = .ok physical)

include h

theorem dofs_of_transformTable : t.dofs = e.spaceDimension := by
  unfold transformTable at h
  rcases bind_eq_ok.1 h with ⟨_, _, h⟩
  rcases bind_eq_ok.1 h with ⟨_, _, h⟩
  rcases bind_eq_ok.1 h with ⟨_, _, h⟩
  rcases bind_eq_ok.1 h with ⟨_, hdofs, _⟩
  exact of_decide_eq_true (Checked.require_eq_ok.1 (lift_fault_eq_ok.1 hdofs))

/-- An entry of a transformed table, from the transform of its derivative and the transforms of its
    degree of freedom. -/
theorem transformTable_get (hp : p < t.points) (hdata : e.dofs[k]? = some data)
    (hr : (Tuple.axes m.dims.gdim order)[r]? = some g) (hsize : e.physicalSize = .ok size)
    (hc : c < max size 1) : ∃ chains ts, derivativeRow order (MapEntries.ofMap m) g = .ok chains ∧
      Forall₂ (fun i transform =>
        valueTransform data.mapping i data.components (MapEntries.ofMap m) = .ok transform)
        (range (data.mapping.components m.dims.gdim)) ts ∧
      physical.get p k r c = .ok (if data.physicalOffset ≤ c then
        match ts[c - data.physicalOffset]? with
        | some transform => ((range chains.length).map fun s => chains[s]?.getD 0 *
            transform.apply ((range data.components).map fun j =>
              t.entry p k s (data.referenceOffset + j))).sum
        | none => 0 else 0) := by
  unfold transformTable at h
  rcases bind_eq_ok.1 h with ⟨countT, hcountT, h⟩
  rcases bind_eq_ok.1 h with ⟨countG, hcountG, h⟩
  rcases bind_eq_ok.1 h with ⟨_, _, h⟩
  rcases bind_eq_ok.1 h with ⟨_, _, h⟩
  rcases bind_eq_ok.1 h with ⟨_, hreserve, h⟩
  rcases bind_eq_ok.1 h with ⟨transform, htransform, h⟩
  rcases bind_eq_ok.1 h with ⟨size', hsize', h⟩
  rcases bind_eq_ok.1 h with ⟨_, _, h⟩
  rcases bind_eq_ok.1 h with ⟨_, _, h⟩
  rcases bind_eq_ok.1 h with ⟨transforms, htransforms, h⟩
  rw [lift_fault_eq_ok] at hcountT hcountG hreserve htransform hsize' h
  have hsizes := Except.ok.inj (hsize.symm.trans hsize')
  subst hsizes
  -- The rows of the transform were counted, so the counts modulo a power of two are exact.
  rcases bind_eq_ok.1 hreserve with ⟨rows, hrows, _⟩
  have hbound := Size.pow_bound hrows
  have hpos := m.dims.tdim_pos
  have hle := m.dims.tdim_le
  have htdim := Tuple.axesCount_eq_pow hcountT (by omega)
  have hgdim := Tuple.axesCount_eq_pow hcountG (by omega)
  have hk : k < e.spaceDimension := (List.getElem?_eq_some_iff.1 hdata).1
  have hr' : r < countG := by
    rw [hgdim, ← Tuple.length_axes]
    exact (List.getElem?_eq_some_iff.1 hr).1
  rcases forall₂_get (mapM_eq_ok.1 htransform) hr with ⟨chains, hchains, hrow⟩
  rcases forall₂_get (mapM_eq_ok.1 htransforms) hdata with ⟨⟨data', ts⟩, hts, hdof⟩
  rcases bind_eq_ok.1 hdof with ⟨list, hlist, hdof⟩
  rcases bind_eq_ok.1 hdof with ⟨_, _, hdof⟩
  cases hdof
  have hlength : chains.length = countT := by
    rw [← (mapM_eq_ok.1 hrow).length_eq, htdim]
    exact Tuple.length_axes _ _
  refine ⟨chains, list, hrow, mapM_eq_ok.1 hlist, ?_⟩
  have hentry := Table.get_ofFn h hp hk hr' hc
  simp only [getElem?_toArray, hts, getElem?_map, hchains, Option.map_some, Option.getD_some,
    Scalar.foldl_add_eq_sum, zero_add] at hentry
  rw [hlength]
  exact hentry

/-- An entry of a transformed table is the sum over all chains of the mapped values, and zero if
    the degree of freedom does not cover the component. -/
theorem transformTable_entry (hp : p < t.points) (hdata : e.dofs[k]? = some data)
    (hr : (Tuple.axes m.dims.gdim order)[r]? = some g) (hsize : e.physicalSize = .ok size)
    (hc : c < max size 1) : (¬ Covers m.dims c data → physical.get p k r c = .ok 0) ∧
      (Covers m.dims c data → ∃ chains scale row,
        derivativeRow order (MapEntries.ofMap m) g = .ok chains ∧
        valueEntries data.mapping (c - data.physicalOffset) (MapEntries.ofMap m) =
          .ok (scale, row) ∧ physical.get p k r c =
          .ok (physicalSum chains scale row data.referenceOffset (t.entry p k))) := by
  rcases transformTable_get h hp hdata hr hsize hc with ⟨chains, ts, hrow, hts, hget⟩
  have hcount := hts.length_eq
  rw [length_range] at hcount
  rw [hget]
  refine ⟨fun hcovers => ?_, fun hcovers => ?_⟩
  · split
    · next hfrom =>
      -- The component lies behind those of the degree of freedom.
      have hbeyond : ts.length ≤ c - data.physicalOffset := by
        unfold Covers at hcovers
        omega
      rw [getElem?_eq_none hbeyond]
    · rfl
  · have hrange : (range (data.mapping.components m.dims.gdim))[c - data.physicalOffset]? =
        some (c - data.physicalOffset) := by
      unfold Covers at hcovers
      exact getElem?_range (by omega)
    rcases forall₂_get hts hrange with ⟨mapped, hmapped, htransform⟩
    rcases valueTransform_eq_ok.1 htransform with ⟨hcomponents, hentries, _⟩
    refine ⟨chains, mapped.scale, mapped.row, hrow, hentries, ?_⟩
    rw [if_pos hcovers.1, hmapped, physicalSum, sum_zipIdx_eq_range chains fun s => mapped.scale *
      (mapped.row.zipIdx.map fun y => y.1 * t.entry p k s (data.referenceOffset + y.2)).sum]
    refine congrArg (fun xs : List K => (.ok xs.sum : Checked K)) (map_congr_left fun s _ => ?_)
    unfold ValueTransform.apply
    rw [Scalar.sum_eq_sum, hcomponents, ← length_valueEntries hentries, sum_zipWith_range]

variable [IsStrictOrderedRing K]

omit h in
/-- The symbolic and the numeric transform of a factor agree: the tables of the factor, times the
    values that their symbols have on a cell, add up to the entry of the transformed table in
    the row of the factor's axes. Degrees of freedom that do not cover the component contribute
    zero to both, and the tables have pairwise different geometry with coefficient one and
    at least one value other than zero each. -/
theorem expandFactor_eq_transformTable {e : Element} {factor : Factor} {t : Table K}
    {m : AffineMap K} {tables : List (ScaledTable K)} {physical : Table K} {size : Nat}
    (hexpand : expandFactor e factor t m.dims 0 = .ok tables)
    (htransform : transformTable e t factor.order m = .ok physical)
    (hsize : e.physicalSize = .ok size) (hcomponent : factor.component < max size 1)
    (haxes : ∀ axis ∈ factor.derivatives, axis < m.dims.gdim) :
    (∀ p < t.points, ∀ k < t.dofs,
      physical.get p k ((Tuple.axes m.dims.gdim factor.order).idxOf factor.derivatives)
          factor.component = .ok (ScaledTable.total m.symbolValue tables p k)) ∧
      (∀ p < t.points, ∀ k < t.dofs, ∀ data, e.dofs[k]? = some data →
        ¬ Covers m.dims factor.component data →
          ScaledTable.total m.symbolValue tables p k = 0 ∧
          physical.get p k ((Tuple.axes m.dims.gdim factor.order).idxOf factor.derivatives)
            factor.component = .ok 0) ∧
      (tables.Pairwise fun s s' => s.geometry.powers ≠ s'.geometry.powers) ∧
      ∀ s ∈ tables, s.geometry.coefficient = 1 ∧ ∃ row ∈ s.values, ∃ x ∈ row, x ≠ 0 := by
  have hr : (Tuple.axes m.dims.gdim factor.order)[(Tuple.axes m.dims.gdim factor.order).idxOf
      factor.derivatives]? = some factor.derivatives := by
    have hmem : factor.derivatives ∈ Tuple.axes m.dims.gdim factor.order :=
      Tuple.mem_axes_iff.2 ⟨rfl, haxes⟩
    rw [List.getElem?_eq_getElem (List.idxOf_lt_length_of_mem hmem), List.getElem_idxOf]
  have htables := expandFactor_tables hexpand
  refine ⟨?_, ?_, htables.1, fun s hs => ⟨(htables.2 s hs).1, (htables.2 s hs).2.2.2.2.2⟩⟩
  · intro p hp k hk
    have hk' : k < e.dofs.length := by
      rwa [dofs_of_transformTable htransform] at hk
    have hdata := List.getElem?_eq_getElem hk'
    rcases transformTable_entry htransform hp hdata hr hsize hcomponent with ⟨hzero, hsum⟩
    by_cases hcovers : Covers m.dims factor.component e.dofs[k]
    · rcases hsum hcovers with ⟨chains, scale, row, hchains, hentries, hget⟩
      have hrelated := MapEntries.valued_related_ofMap m factor.side
      have hbelow : factor.component - e.dofs[k].physicalOffset <
          e.dofs[k].mapping.components m.dims.gdim := by
        unfold Covers at hcovers
        omega
      rcases valueEntries_valued e.dofs[k].mapping (factor.component - e.dofs[k].physicalOffset)
        m.dims factor.side m.symbolValue with ⟨scale', row', hvalued⟩
      rcases valueEntries_related hrelated hbelow hvalued hentries with ⟨rfl, hrow⟩
      have hchain := derivativeRow_related hrelated haxes (derivativeRow_valued _ _ _ _ _) hchains
      rw [List.forall₂_eq_eq_eq] at hrow hchain
      rw [hget, expandFactor_total hexpand haxes _ hp hk hdata hcovers hvalued, hrow, hchain]
    · rw [hzero hcovers, expandFactor_total_of_not_covers hexpand haxes _ hp hk hdata hcovers]
  · intro p hp k hk data hdata hcovers
    rcases transformTable_entry htransform hp hdata hr hsize hcomponent with ⟨hzero, _⟩
    exact ⟨expandFactor_total_of_not_covers hexpand haxes _ hp hk hdata hcovers, hzero hcovers⟩

end

/-- A triangle that is stretched and sheared. -/
def shearedTriangle : AffineMap ℚ :=
  let d : Dimensions := .plane
  let x : Grid ℚ := ⟨2, 3, #[#[0, 2, 1], #[0, 0, 3]]⟩
  let j := Geometry.jacobian x d
  ⟨d, x, j, (Geometry.inverseJacobian j d).2, (Geometry.inverseJacobian j d).1⟩

/-- The first derivatives of the lowest order flux basis at one point. -/
def fluxTable : Table ℚ := ⟨1, 3, 2, 2, #[1, 0, 0, 1, 1, 0, 0, 1, 1, 0, 0, 1]⟩

/-- The derivative along the second axis of the second component of a flux. -/
theorem expandFactor_eq_transformTable_flux : ∃ tables physical,
    expandFactor (.raviartThomas .triangle 2) ⟨0, 1, [1], none⟩ fluxTable shearedTriangle.dims 0 =
      .ok tables ∧
    transformTable (.raviartThomas .triangle 2) fluxTable 1 shearedTriangle = .ok physical ∧
    physical.get 0 2 1 1 = .ok (ScaledTable.total shearedTriangle.symbolValue tables 0 2) := by
  rcases exists_of_isOk (x := expandFactor (.raviartThomas .triangle 2) ⟨0, 1, [1], none⟩ fluxTable
    shearedTriangle.dims 0) (by decide +kernel) with ⟨tables, htables⟩
  rcases exists_of_isOk (x := transformTable (.raviartThomas .triangle 2) fluxTable 1
    shearedTriangle) (by decide +kernel) with ⟨physical, hphysical⟩
  have hsize : (Element.raviartThomas .triangle 2).physicalSize = .ok 2 := by decide +kernel
  have h := expandFactor_eq_transformTable htables hphysical hsize (by decide) (by decide)
  exact ⟨tables, physical, htables, hphysical, h.1 0 (by decide) 2 (by decide)⟩

end WeakForm
