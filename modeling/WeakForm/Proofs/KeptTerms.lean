import WeakForm.Proofs.WeightSharing

/-!
# Terms and what is declared for them

The weights and tables of a term are stored while later terms are still to come. This
module follows the stores through all terms of a case, over any scalars whose keys are
lawful, and says what is declared in the end for every product: weights and tables with
as many entries and rows as there are points, rows as long as the loop of the argument,
and columns that lie within the element tensor together with their offsets.

Everything here is about the shape of arrays. Their values do not matter, so neither
rounding nor signed zeros do.

## Main definitions

* `Product.Kept`, `PointTerm.Kept`: What was stored of a term is still there.

## Theorems

* `quadratureTerm_shape`: The tables of a monomial have the shape of its arguments.
* `storeTerms_kept`: What storing all terms keeps.
* `PointTerm.Kept.readable`: The tables of a kept term are declared.
-/

namespace WeakForm

open List Success

variable {α : Type}

def TermTables.Rectangular (factors : List (List (ScaledTable α) × Nat)) : Prop :=
  ∀ x ∈ factors, ∀ table ∈ x.1, TableStore.Rectangular table.values

section

/-- The offsets of the entries of a monomial on given facets. Without a second facet there is one
    cell only. -/
def Form.offsetsOn (f : Form α) (m : Monomial α) (facets : Facets) : List Nat :=
  if facets.2.isSome then f.offsets m else List.replicate f.rank 0

variable [Scalar α] {s : Setting α} {f : Form α} {d : Dimensions} {facets : Facets} {m : Monomial α}
  {t : TermTables α} (hpair : facets.2.isSome → facets.1.isSome)
  (hgauss : ∀ n, 0 < n → s.gauss n ≠ []) (htabulator : ∀ e ∈ f.arguments, s.tabulator.Shaped e)
  (h : quadratureTerm s f d m facets = .ok t)

include hpair hgauss htabulator h

theorem quadratureTerm_shape :
    0 < t.weights.length ∧ t.factors.map Prod.snd = f.offsetsOn m facets ∧
      Forall₂ (fun x n => (x.2 = 0 ∨ facets.2.isSome ∧ x.2 = n) ∧ ∀ table ∈ x.1,
        table.values.length = t.weights.length ∧ ∀ row ∈ table.values, row.length = n)
        t.factors f.argumentDims := by
  rcases quadratureTerm_tables hpair hgauss htabulator h with ⟨hpos, factors, harrange, htables⟩
  have hdims := Form.forall₂_argumentDims (Form.arrange_arguments harrange)
  refine ⟨hpos, ?_, ?_⟩
  · unfold Form.offsetsOn
    split
    · next hcells =>
      rw [Form.offsets_eq harrange]
      refine map_eq_zipWith_of_forall₂ htables hdims fun factor _ x n hx hn => ?_
      rcases hx with ⟨e, _, he, hoffset, _⟩
      rw [hoffset, hn e he]
      simp only [hcells, true_and]
    · next hcells =>
      -- Without a second rule no factor is moved.
      have hlength := congrArg List.length (Form.arrange_arguments harrange)
      rw [length_map, length_range, htables.length_eq] at hlength
      refine eq_replicate_iff.2 ⟨by rw [length_map, hlength], ?_⟩
      refine forall_mem_map.2 (forall₂_left htables.flip fun x factor hx => ?_)
      rcases hx with ⟨e, _, _, hoffset, _⟩
      rw [hoffset, if_neg fun h => hcells h.1]
  · refine forall₂_join htables hdims fun factor _ x _ n hx hn => ?_
    rcases hx with ⟨e, reference, he, hoffset, hpoints, hdofs, hexpand⟩
    rw [hoffset, hn e he]
    refine ⟨?_, fun table htable => ?_⟩
    · split
      · next hmoved => exact .inr ⟨hmoved.1, rfl⟩
      · exact .inl rfl
    · rcases Expand.of_mem_expandFactor hexpand htable with ⟨_, _, hvalues, hwidth⟩
      exact ⟨hvalues.trans hpoints, fun row hrow => (hwidth row hrow).trans hdofs⟩

theorem quadratureTerm_rectangular : TermTables.Rectangular t.factors := by
  rcases quadratureTerm_shape hpair hgauss htabulator h with ⟨_, _, hshape⟩
  refine forall₂_left hshape fun x n hx table htable => ?_
  exact (TableStore.rectangular_of_length (hx.2 table htable).2).1

end

section

variable [Scalar α] {t : TermTables α}

/-- A table for each factor, which is one of those that the factor was expanded to, at the offset of
    the factor. -/
def Product.Kept (store : TableStore α) (factors : List (List (ScaledTable α) × Nat))
    (y : Product α) : Prop :=
  List.Forall₂ (fun x t => t.offset = x.2 ∧ ∃ table ∈ x.1, store.Keeps t.table table.values)
    factors y.tables

variable [LawfulKeys α] {stores : Stores α} {calls : List (Nat × List α)}

/-- Stores in which every array has a name of its own: no table is stored twice, and the weights
    were stored by calls with different terms below a bound. -/
structure Stores.Ready (stores : Stores α) (calls : List (Nat × List α)) (bound : Nat) : Prop where
  tables : stores.tables.Sharp
  weights : stores.weights.Groups calls
  terms : (calls.map Prod.fst).Nodup
  below : ∀ c ∈ calls, c.1 < bound

/-- What was stored of a term is still there. -/
structure PointTerm.Kept (stores : Stores α) (calls : List (Nat × List α)) (t : TermTables α)
    (x : PointTerm α) : Prop where
  points : x.points = t.weights.length
  weights : ∃ ws, calls.find? (fun c => sameRow t.weights c.2) = some (x.weights, ws)
  products : ∀ y ∈ x.products, y.Kept stores.tables t.factors

theorem PointTerm.Made.kept {coefficient : α} {x : PointTerm α}
    (h : x.Made TableStore.Rectangular stores calls coefficient t) : x.Kept stores calls t := by
  refine ⟨h.points, h.find?_weights, fun y hy => ?_⟩
  rcases forall₂_mem h.products.flip hy with ⟨choice, hchoice, hmade⟩
  -- There is a choice for every factor.
  have hlength : t.factors.length = choice.length := by
    rw [Tuple.length_of_mem_all hchoice, length_map]
  rw [Product.Kept, ← map_fst_zip hlength.le, forall₂_map_left_iff]
  refine hmade.tables.flip.imp fun z table htable => ?_
  rcases htable with ⟨s, hs, hoffset, htook⟩
  exact ⟨hoffset, s, mem_of_getElem? hs, htook.keeps⟩

theorem storeTerms_kept {s : Setting α} {f : Form α} {d : Dimensions} {facets : Facets}
    {ms : List (Monomial α)} {terms : List (PointTerm α)}
    (h : storeTerms s f d facets ms = .ok (terms, stores))
    (hfactors : ∀ m ∈ ms, ∀ t, quadratureTerm s f d m facets = .ok t →
      TermTables.Rectangular t.factors) :
    ∃ calls bound, stores.Ready calls bound ∧ ∀ x ∈ terms, ∃ t,
      (∃ m ∈ ms, quadratureTerm s f d m facets = .ok t) ∧ x.Kept stores calls t := by
  rcases storeTerms_made h hfactors with ⟨calls, xs, hweights, hnumbers, hleads, hxs, rfl⟩
  refine ⟨calls, ms.length, ⟨hleads.keeps.2.2 ⟨.nil, .nil⟩, hweights ▸ WeightStore.groups_after calls,
    nodup_range.sublist hnumbers, fun c hc => mem_range.1 (hnumbers.subset (mem_map_of_mem hc))⟩, ?_⟩
  intro x hx
  rcases exists_made hxs x hx with ⟨m, hm, t, ht, hmade⟩
  exact ⟨t, ⟨m, hm, ht⟩, hmade.kept⟩

def Stores.arrays (stores : Stores α) : List (String × Contents α) :=
  stores.weights.declarations.arrays ++ stores.tables.declarations.arrays

theorem Stores.Ready.nodup_names {bound : Nat} (h : stores.Ready calls bound) :
    (stores.arrays.map Prod.fst).Nodup := by
  rw [Stores.arrays, map_append, nodup_append]
  refine ⟨h.weights.nodup_names h.terms, stores.tables.nodup_names, fun a ha b hb => ?_⟩
  rw [WeightStore.arrays_declarations, map_map] at ha
  rw [TableStore.arrays_declarations, map_append, map_map, map_map] at hb
  rcases mem_map.1 ha with ⟨g, _, rfl⟩
  rcases mem_append.1 hb with hb | hb
  · rcases mem_map.1 hb with ⟨x, _, rfl⟩
    exact Cpp.weightName_ne_tableName _ _
  · rcases mem_map.1 hb with ⟨x, _, rfl⟩
    exact Cpp.weightName_ne_columnsName _ _

end

/-- A table that the loop of an argument can read at each of the given points, and columns that lie
    within a dimension together with the offset. -/
structure ArgumentTable.Readable (arrays : List (String × Contents α)) (points dim : Nat)
    (t : ArgumentTable) : Prop where
  table : ∃ rows, (Cpp.tableName t.table.number, .table rows) ∈ arrays ∧ rows.length = points ∧
    ∀ row ∈ rows, row.length = t.table.columns
  columns : ∃ dofs, t.table.Lists arrays dofs ∧ dofs.length = t.table.columns ∧
    dofs.Pairwise (· < ·) ∧ ∀ dof ∈ dofs, dof + t.offset < dim

theorem TableRef.Lists.mono {ref : TableRef} {arrays arrays' : List (String × Contents α)}
    {dofs : List Nat} (h : ref.Lists arrays dofs) (hsubset : arrays ⊆ arrays') :
    ref.Lists arrays' dofs := by
  unfold TableRef.Lists at h ⊢
  split
  · next number href =>
    rw [href] at h
    exact hsubset h
  · next href =>
    rw [href] at h
    exact h

section

variable [Scalar α] [LawfulKeys α] {m : Monomial α} {t : TermTables α}

theorem TableStore.Keeps.readable {store : TableStore α} {t : ArgumentTable} {rows : List (List α)}
    (h : store.Keeps t.table rows) {n dim : Nat}
    (hrows : ∀ row ∈ rows, row.length = n) (hoffset : n + t.offset ≤ dim) :
    t.Readable store.declarations.arrays rows.length dim := by
  rcases rectangular_of_length hrows with ⟨hrectangular, hwidth⟩
  rcases h.declares hrectangular with ⟨stored, hdeclares⟩
  refine ⟨⟨stored, hdeclares.table, ?_, hdeclares.columns⟩, _, hdeclares.listed, hdeclares.length,
    hdeclares.increasing, fun dof hdof => ?_⟩
  · rw [← (sameRows_iff_forall₂.1 hdeclares.values).length_eq, length_map]
  · have hinside := hdeclares.inside dof hdof
    omega

variable {s : Setting α} {f : Form α} {d : Dimensions} {facets : Facets} {kind : Integral}

theorem PointTerm.Kept.readable {stores : Stores α} {calls : List (Nat × List α)} {bound : Nat}
    {x : PointTerm α} (h : x.Kept stores calls t) (hready : stores.Ready calls bound)
    (hpair : facets.2.isSome → facets.1.isSome)
    (hinterior : facets.2.isSome → kind = .interiorFacet) (hgauss : ∀ n, 0 < n → s.gauss n ≠ [])
    (htabulator : ∀ e ∈ f.arguments, s.tabulator.Shaped e)
    (hterm : quadratureTerm s f d m facets = .ok t) : 0 < x.points ∧
      (∃ ws, (Cpp.weightName x.weights, .weights ws) ∈ stores.arrays ∧ ws.length = x.points) ∧
      ∀ y ∈ x.products, y.tables.map ArgumentTable.offset = f.offsetsOn m facets ∧
        Forall₂ (fun t dim => t.Readable stores.arrays x.points dim) y.tables
          (macroDims f kind) := by
  rcases quadratureTerm_shape hpair hgauss htabulator hterm with ⟨hpos, hoffsets, hshape⟩
  refine ⟨h.points ▸ hpos, ?_, fun y hy => ⟨?_, ?_⟩⟩
  · rcases h.weights with ⟨ws, hfind⟩
    have hsame : sameRow t.weights ws = true := by simpa using find?_some hfind
    exact ⟨ws, mem_append_left _ (hready.weights.mem_arrays hfind),
      (sameRow_iff_forall₂.1 hsame).length_eq.symm.trans h.points.symm⟩
  · rw [← hoffsets, ← forall₂_eq_eq_eq, forall₂_map_left_iff, forall₂_map_right_iff]
    exact (h.products y hy).flip.imp fun _ _ hx => hx.1
  · rw [macroDims, forall₂_map_right_iff]
    refine forall₂_join (h.products y hy) hshape fun z _ table _ n htable hz => ?_
    rcases htable with ⟨hoffset, scaled, hscaled, hkeeps⟩
    rcases hz.2 scaled hscaled with ⟨hlength, hwidth⟩
    -- A table is moved only if there are two cells, and then there is room for both.
    have hdim : n + table.offset ≤ if kind = .interiorFacet then 2 * n else n := by
      rw [hoffset]
      rcases hz.1 with hzero | ⟨hcells, hmoved⟩
      · rw [hzero]
        split <;> omega
      · rw [if_pos (hinterior hcells), hmoved]
        omega
    have hreadable := hkeeps.readable hwidth hdim
    rw [hlength, ← h.points] at hreadable
    rcases hreadable.table with ⟨rows, hrows, hshape⟩
    rcases hreadable.columns with ⟨dofs, hlists, hdofs⟩
    exact ⟨⟨rows, mem_append_right _ hrows, hshape⟩, dofs,
      hlists.mono (subset_append_right _ _), hdofs⟩

end

end WeakForm
