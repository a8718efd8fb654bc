import WeakForm.Proofs.ContractionCode

/-!
# What a case does to the element tensor

A case that clears the element tensor leaves its contribution there, whatever was in the
tensor before. A case that does not clear it adds the contribution. Both are one
statement, `Code.Contributes`: the code first clears if asked for, and what follows never
assigns to the tensor but adds the contribution to any tensor of the right size.

The contribution is the same list of numbers with and without clearing. By quadrature it
is the sum of what the monomials contribute to each entry, by contraction it is what
evaluating the element tensor gives.

## Main definitions

* `Code.Contributes`: Code that overwrites the element tensor, or adds to it.

## Theorems

* `contractionCase_contributes`: What a case by contraction contributes.
-/

namespace WeakForm

open List Success Code

namespace Code

variable {α : Type}

/-- Whether code assigns to an entry of the element tensor. Clearing an entry is the only
    assignment there is. -/
def assigns : Code α → Bool
  | seq first second => first.assigns || second.assigns
  | block body | loop _ _ body => body.assigns
  | clear _ => true
  | _ => false

theorem assigns_all {cs : List (Code α)} :
    (all cs).assigns = false ↔ ∀ c ∈ cs, c.assigns = false := by
  induction cs with
  | nil => exact ⟨fun _ _ hc => absurd hc not_mem_nil, fun _ => rfl⟩
  | cons c cs ih =>
    change (c.assigns || (all cs).assigns) = false ↔ _
    rw [Bool.or_eq_false_iff, ih, forall_mem_cons]

theorem assigns_loops (ranges : List (Counter × Nat)) (body : Code α) :
    (loops ranges body).assigns = body.assigns := by
  induction ranges with
  | nil => rfl
  | cons range ranges ih => exact ih

end Code

section

variable {α : Type} [Scalar α] {constants : ConstantStore α} {number : α → String}
  {factorise : Bool} {dims : List Nat} {operations : Nat}

theorem Nest.assigns_code (n : Nest α) : n.code.assigns = false := by
  rw [code, assigns_loops, assigns_all]
  intro c hc
  rcases mem_map.1 hc with ⟨statement, _, rfl⟩
  rfl

theorem pointLoop_assigns {constants' : ConstantStore α} {points : Nat} {terms : List (PointTerm α)}
    {code : Code α} (h : pointLoop number factorise dims constants points terms =
      .ok (code, operations, constants')) : code.assigns = false := by
  rcases pointLoop_eq_ok h with ⟨nests, _, _, _, _, rfl⟩
  have hbody : (Code.all (nests.map Nest.code)).assigns = false := by
    rw [assigns_all]
    intro c hc
    rcases mem_map.1 hc with ⟨n, _, rfl⟩
    exact n.assigns_code
  refine assigns_all.2 (forall_mem_append.2 ⟨?_, ?_⟩)
  · simp [assigns]
  · unfold loopCode
    split
    · exact forall_mem_singleton.2 hbody
    · simp [assigns, hbody]

theorem assigns_stored {groups : List (Nat × List (PointTerm α))} {loops : List (Code α)}
    (stores : Stores α) (h : groups.foldlM (loopStep number factorise dims) ([], 0, {}) =
      .ok (loops, operations, constants)) :
    (Code.all [stores.weights.declarations, stores.tables.declarations, constants.declarations,
      .block (.all loops)]).assigns = false := by
  have hloops : ∀ c ∈ loops, c.assigns = false := by
    refine foldlM_invariant (P := fun state => ∀ c ∈ state.1, c.assigns = false) h
      nofun fun x _ state state' hstate hstep => ?_
    rcases loopStep_eq_ok hstep with ⟨code, count, hloop, hcodes, _⟩
    rw [hcodes]
    refine forall_mem_append.2 ⟨hstate, ?_⟩
    simp [assigns, pointLoop_assigns hloop]
  have hweights : stores.weights.declarations.assigns = false := by
    refine assigns_all.2 fun c hc => ?_
    rcases mem_map.1 hc with ⟨group, _, rfl⟩
    rfl
  have htables : stores.tables.declarations.assigns = false := by
    refine assigns_all.2 (forall_mem_append.2 ⟨fun c hc => ?_, fun c hc => ?_⟩)
    · rcases mem_map.1 hc with ⟨table, _, rfl⟩
      rfl
    · rcases mem_map.1 hc with ⟨columns, _, rfl⟩
      rfl
  have hconstants : constants.declarations.assigns = false := by
    refine assigns_all.2 (forall_mem_append.2 ⟨fun c hc => ?_, fun c hc => ?_⟩)
    · split at hc
      · rcases mem_cons.1 hc with rfl | hc
        · rfl
        · rw [mem_singleton.1 hc]
          rfl
      · rw [mem_singleton.1 hc]
        rfl
    · rcases mem_map.1 hc with ⟨constant, _, rfl⟩
      rfl
  simp only [assigns_all, forall_mem_cons]
  exact ⟨hweights, htables, hconstants, assigns_all.2 hloops,
    nofun⟩

theorem Contraction.assigns_code (entries : List (Nat × List Nat × GeometryMonomial α))
    (terms : List (TensorTerm α)) :
    (Code.all (geometryCode entries ++ elementCode terms)).assigns = false := by
  refine assigns_all.2 (forall_mem_append.2 ⟨forall_mem_append.2 ⟨?_, ?_⟩,
    forall_mem_append.2 ⟨?_, ?_⟩⟩)
  · simp [assigns]
  · intro c hc
    rcases mem_map.1 hc with ⟨x, _, rfl⟩
    rfl
  · simp [assigns]
  · intro c hc
    rcases exists_of_mem_statements hc with ⟨_, _, rfl⟩
    rfl

end

section

variable {K : Type} [Field K] [LinearOrder K] [Root K] {e : Env K} {v : Symbol → K} {f : Form K}
  {kind : Integral} {ms : List (Monomial K)} {s : Setting K}

/-- The code clears the element tensor first if asked for, assigns to it nowhere else, and can be
    run on every element tensor of its size. With clearing the contribution is left there, and
    without it the contribution is added. -/
structure Code.Contributes (c : Code K) (reset : Bool) (size : Nat) (v : Symbol → K)
    (contribution : List K) : Prop where
  shape : ∃ rest, rest.assigns = false ∧ c = .seq (if reset then .reset size else .skip) rest
  length : contribution.length = size
  exec : ∀ A : List K, A.length = size → ∃ e, c.exec v {} A =
    .ok (e, if reset then contribution else List.zipWith (· + ·) A contribution)

/-- Code that adds a contribution is overwriting code once the element tensor is cleared in front
    of it. -/
theorem Code.contributes_of_exec {rest : Code K} {size : Nat} {contribution : List K}
    (hassigns : rest.assigns = false) (hlength : contribution.length = size)
    (hexec : ∀ A : List K, A.length = size →
      rest.exec v {} A = .ok (e, zipWith (· + ·) A contribution)) (reset : Bool) :
    (seq (if reset then .reset size else .skip) rest).Contributes reset size v contribution := by
  refine ⟨⟨rest, hassigns, rfl⟩, hlength, fun A hA => ⟨e, ?_⟩⟩
  cases reset with
  | false => exact (exec_seq rfl).trans (hexec A hA)
  | true =>
    have hreset := exec_reset (v := v) (e := {}) rfl A
    rw [hA] at hreset
    have hzeros : zipWith (· + ·) (replicate size 0) contribution = contribution := by
      rw [← hlength]
      apply ext_getElem
      · simp
      · intro n hn hn'
        simp
    refine (exec_seq hreset).trans ((hexec _ length_replicate).trans ?_)
    rw [hzeros]
    rfl

/-- Code that adds amounts to multi-indices adds the list of these amounts to any element tensor of
    its size. -/
theorem Adds.exec {dims : List Nat} {c : Code K} {amount : List Nat → K}
    (h : Adds v e dims c amount) {A : List K} (hA : A.length = dims.prod) :
    c.exec v e A = .ok (e, zipWith (· + ·) A ((Tuple.all dims).map amount)) := by
  -- The tensor is given by the values of its entries at their multi-indices.
  have hentries : A = (Tuple.all dims).map fun M => A[Tuple.linear dims M]?.getD 0 := by
    apply ext_getElem?
    intro n
    rw [getElem?_map]
    rcases hM : (Tuple.all dims)[n]? with _ | M
    · rw [List.getElem?_eq_none_iff, Tuple.length_all] at hM
      rw [Option.map_none, List.getElem?_eq_none_iff]
      omega
    · have hn : n < A.length := by
        rw [hA, ← Tuple.length_all]
        exact (List.getElem?_eq_some_iff.1 hM).1
      rw [Option.map_some, Tuple.linear_of_get hM, getElem?_eq_getElem hn, Option.getD_some]
  have hrun := h fun M => A[Tuple.linear dims M]?.getD 0
  rw [← hentries] at hrun
  rw [hrun]
  conv_rhs => rw [hentries, zipWith_map_left, zipWith_map_right, zipWith_self]

/-- Gathered terms can be run by their loops: there are points, the geometry of their products can
    be read, and their tables are in scope. -/
theorem gathered_ready {xs : List (TermTables K × Option (PointTerm K))} {stores : Stores K}
    {numbers : AddSubgroup K} (he : e.Declares stores)
    (hcoefficients : ∀ m ∈ ms, m.coefficient ∈ numbers)
    (hxs : Forall₂ (fun m x => x.1.StoredAs stores m.coefficient x.2 ∧
      x.1.Fits (fun n => if kind = .interiorFacet then 2 * n else n) f.argumentDims ∧
      x.1.factors.map Prod.snd = f.offsets m) ms xs) :
    ∀ x ∈ byPoints (xs.flatMap fun x => x.2.toList), 0 < x.1 ∧ ∀ t ∈ x.2, ∀ y ∈ t.products,
      (y.geometry.powers.Over Symbol.OneDigit ∧ y.geometry.coefficient ∈ numbers) ∧
        e.Offers x.1 (macroDims f kind) t.weights y.tables := by
  intro x hx
  rcases of_mem_byPoints hx with ⟨⟨t, ht, hpoints⟩, hall⟩
  refine ⟨?_, fun t ht y hy => ?_⟩
  · rcases exists_stored hxs t ht with ⟨m, _, tables, hstored, hfit⟩
    rw [← hpoints, hstored.points]
    exact hfit.pos
  · rcases hall t ht with ⟨hmem, hpoints⟩
    rcases exists_stored hxs t hmem with ⟨m, hm, tables, hstored, hfit⟩
    rw [← hpoints]
    exact ⟨hstored.readable (hcoefficients m hm) y hy, hstored.offers hfit he y hy⟩

variable [IsStrictOrderedRing K]
variable {numbers : AddSubgroup K} {literal : List Char → Option K}

/-- The code of some monomials by quadrature contributes to each entry what the monomials
    contribute there. -/
theorem quadratureCase_contributes {d : Dimensions} {facets : Facets} {c : CaseCode K}
    (hd : f.dims = .ok d) (hkind : ∀ m ∈ ms, m.integral = kind)
    (hfacets : facets ∈ facetCases f.cell kind) (hgauss : ∀ n, 0 < n → s.gauss n ≠ [])
    (htabulator : ∀ e ∈ f.arguments, s.tabulator.Shaped e)
    (hnumber : Legible s.number numbers literal) (hcoefficients : ∀ m ∈ ms, m.coefficient ∈ numbers)
    (h : quadratureCase s f d kind ms facets = .ok c) (v : Symbol → K) :
    ∃ tables, ms.mapM (fun m => quadratureTerm s f d m facets) = .ok tables ∧
      c.code.Contributes s.options.resetTensor (macroDims f kind).prod v
        ((Tuple.all (macroDims f kind)).map fun M =>
          ((ms.zip tables).map fun x => f.macroEntry v x.1 x.2 M).sum) := by
  rcases isSome_of_mem_facetCases hfacets with ⟨hpair, hinterior⟩
  rcases quadratureCase_eq_ok h with
    ⟨terms, stores, loops, operations, constants, hstore, hloops, _, hcode⟩
  have hfits := fun m (hm : m ∈ ms) t (ht : quadratureTerm s f d m facets = .ok t) =>
    quadratureTerm_fits hd (hkind m hm) hpair hinterior hgauss htabulator ht
  rcases storeTerms_spec hstore fun m hm t ht => (hfits m hm t ht).1.tabulated with
    ⟨xs, hxs, rfl, bound, hnamed⟩
  have hall := ((forall₂_and_left ms xs).2 ⟨fun m hm => hm, hxs⟩).imp fun m x hx =>
    And.intro hx.2.2 (hfits m hx.1 x.1 hx.2.1)
  have he := Env.declares_ofStores hnamed v constants
  have hready := gathered_ready he hcoefficients hall
  rcases adds_pointLoops hnumber hloops nofun
    (fun x hx => (hready x hx).1) (fun x hx t ht y hy => ((hready x hx).2 t ht y hy).1) with
    ⟨_, loops', hloops', hadds⟩
  rw [nil_append] at hloops'
  subst hloops'
  have hadds := hadds (Env.knows_ofStores v stores constants) (fun _ => rfl)
    fun x hx t ht y hy => ((hready x hx).2 t ht y hy).2
  have hamount := (adds_last (adds_block hadds)).congr fun M hM =>
    sum_gathered hall he (N := M) (by rw [Tuple.length_of_mem_all hM, macroDims, length_map]) v
  refine ⟨xs.map Prod.fst, ?_, ?_⟩
  · rw [mapM_eq_ok, forall₂_map_right_iff]
    exact hxs.imp fun _ _ hx => hx.1
  · rw [hcode]
    exact contributes_of_exec (assigns_stored stores hloops)
      (by rw [length_map, Tuple.length_all])
      (fun A hA => (exec_stores hnamed v constants _ A).trans (hamount.exec hA)) s.options.resetTensor

theorem contractionCase_contributes {domain : Nat} {primary : MultiIndex} {facet : Option Nat}
    {c c' : Allocator} {x : CaseCode K} (hms : ms ≠ []) (hprimary : primary.dims = macroDims f kind)
    (h : (contractionCase s f kind domain ms primary facet).run c = (.ok x, c')) (v : Symbol → K) :
    ∃ terms tensor contribution,
      (tensorTerms s.gauss s.tabulator f ms facet primary).run c = (.ok terms, c') ∧
      ElementTensor.of terms kind domain (Cpp.style s.number) = .ok tensor ∧
      tensor.evaluate v = .ok contribution ∧
      x.code.Contributes s.options.resetTensor (macroDims f kind).prod v contribution := by
  rcases contractionCase_eq_ok h with ⟨terms, tensor, hterms, htensor, hsame, hcode⟩
  rcases tensorTerms_ranges hterms with ⟨hlength, hranges⟩
  have hne : terms ≠ [] := by
    rw [← length_pos_iff, hlength]
    exact length_pos_iff.2 hms
  rcases Contraction.code_eq_ok hcode with ⟨entries, hentries, _, _, hcode⟩
  have hevaluate := Contraction.evaluate_eq_ok (v := v) hne hranges hsame hentries
  rw [hprimary] at hevaluate
  refine ⟨terms, tensor, _, hterms, htensor, hevaluate, ?_⟩
  rw [hcode]
  refine contributes_of_exec (e := { geometry := Contraction.scope v entries })
    (Contraction.assigns_code entries terms) (by rw [length_map, Tuple.length_all])
    (fun A hA => ?_) s.options.resetTensor
  -- The notes in front of the sums change nothing.
  have hstatements := Contraction.adds_statements hne hranges hentries (v := v)
    (e := { geometry := Contraction.scope v entries }) rfl
  rw [hprimary] at hstatements
  refine (exec_all_append (Contraction.exec_geometryCode hentries A)).trans ?_
  exact (adds_seq (adds_zero fun _ => rfl) (adds_note (adds_note hstatements _) _)).congr
    (fun M _ => zero_add _) |>.exec hA

end

end WeakForm
