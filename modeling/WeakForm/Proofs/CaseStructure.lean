import WeakForm.Code.Routine
import WeakForm.Proofs.Drawing

/-!
# Cases of a routine

What successful code generation consists of, said once. A loop over points is made of
nests, a case by quadrature of declarations and such loops, a case by contraction of
declarations and sums, and a routine of one case for each way it can be called. The
theorems here take a result apart into the results of its steps; what a case computes,
and how many operations that takes, is said elsewhere about these parts.

A routine is called with the facets that the integral is over: with none on a cell,
with one on the boundary, with one on either side between cells (`facetCases`).
`Body.select` is the case that runs then.

## Theorems

* `pointLoop_eq_ok`, `quadratureCase_eq_ok`, `Contraction.code_eq_ok`: The parts of code.
* `routine_eq_ok`: The cases of a routine, its geometry, and its operations.
-/

namespace WeakForm

open List Success Drawing

variable {α : Type}

theorem Size.sum_eq_ok {ns : List Nat} {n : Nat} (h : sum ns = .ok n) : n = ns.sum := by
  -- The invariant of the loop has an arbitrary start.
  have hfold : ∀ (ns : List Nat) (start n : Nat), ns.foldlM add start = .ok n →
      n = start + ns.sum := by
    intro ns
    induction ns with
    | nil =>
      intro start n h
      rw [← foldlM_nil_eq_ok.1 h, sum_nil, Nat.add_zero]
    | cons x ns ih =>
      intro start n h
      rcases foldlM_cons_eq_ok.1 h with ⟨next, hnext, h⟩
      rw [ih next n h, add_eq_ok hnext, sum_cons, Nat.add_assoc]
  rw [hfold ns 0 n h, Nat.zero_add]

section

variable [Scalar α] {dims : List Nat} {s : Setting α} {number : α → String}
  {factorise : Bool} {c : Code α} {f : Form α} {kind : Integral} {ms : List (Monomial α)}
  {terms : List (TensorTerm α)} {entries : List (Nat × List Nat × GeometryMonomial α)}

/-- The statements of a loop over points. A single point needs no loop. -/
def loopCode (points : Nat) (body : Code α) : List (Code α) :=
  if 1 < points then [.loop .point points body]
  else [.note "Only 1 integration point, omitting IP loop.", .block body]

theorem pointLoop_eq_ok {constants constants' : ConstantStore α} {points : Nat}
    {terms : List (PointTerm α)} {code : Code α} {operations : Nat}
    (h : pointLoop number factorise dims constants points terms =
      .ok (code, operations, constants')) :
    ∃ nests counts, (PointLoop.entries factorise terms).foldlM (PointLoop.step number dims points)
        (constants, []) = .ok (constants', nests) ∧
      nests.mapM Nest.totalOperations = .ok counts ∧ operations = counts.sum * points ∧
      code = .all ([.note ("Loop quadrature points (tensor/monomial terms " ++
          termTuple (terms.map fun t => t.number) ++ ")"),
        .note ("Number of operations to compute element tensor for following IP loop = " ++
          toString operations)] ++ loopCode points (.all (nests.map Nest.code))) := by
  unfold pointLoop at h
  rcases bind_eq_ok.1 h with ⟨⟨constants₁, nests⟩, hfold, h⟩
  rcases bind_eq_ok.1 h with ⟨counts, hcounts, h⟩
  rcases bind_eq_ok.1 h with ⟨perPoint, hsum, h⟩
  rcases bind_eq_ok.1 h with ⟨total, htotal, h⟩
  cases h
  refine ⟨nests, counts, hfold, hcounts, ?_, rfl⟩
  rw [Size.mul_eq_ok htotal, Size.sum_eq_ok hsum]

omit [Scalar α] in
/-- A statement makes a nest of its own, or joins the one with its signature. -/
theorem PointLoop.forall_insert {P : Nest α → Prop} {signature : Signature}
    {statement : Position × List (Expr Operand α)} {nests : List (Nest α)}
    (hnew : P ⟨signature, [statement]⟩)
    (hjoin : ∀ statements, P ⟨signature, statements⟩ → P ⟨signature, statements ++ [statement]⟩)
    (h : ∀ n ∈ nests, P n) : ∀ n ∈ insert signature statement nests, P n := by
  induction nests with
  | nil => exact forall_mem_singleton.2 hnew
  | cons n nests ih =>
    rw [forall_mem_cons] at h
    rw [insert]
    split
    · next hsame =>
      subst hsame
      exact forall_mem_cons.2 ⟨hjoin _ h.1, h.2⟩
    · exact forall_mem_cons.2 ⟨h.1, ih h.2⟩

/-- Adds the loop of the terms with one number of points to the loops made so far, with the
    operations they take and the constants they read. -/
def loopStep (number : α → String) (factorise : Bool) (dims : List Nat)
    (state : List (Code α) × Nat × ConstantStore α) (x : Nat × List (PointTerm α)) :
    Outcome (List (Code α) × Nat × ConstantStore α) := do
  let loop ← pointLoop number factorise dims state.2.2 x.1 x.2
  let count ← Size.add state.2.1 loop.2.1
  return (state.1 ++ [.gap, .block loop.1], count, loop.2.2)

theorem loopStep_eq_ok {state state' : List (Code α) × Nat × ConstantStore α}
    {x : Nat × List (PointTerm α)} (h : loopStep number factorise dims state x = .ok state') :
    ∃ code count, pointLoop number factorise dims state.2.2 x.1 x.2 = .ok (code, count, state'.2.2) ∧
      state'.1 = state.1 ++ [.gap, .block code] ∧ state'.2.1 = state.2.1 + count := by
  rcases bind_eq_ok.1 h with ⟨⟨code, count, constants⟩, hloop, h⟩
  rcases bind_eq_ok.1 h with ⟨total, htotal, h⟩
  cases h
  exact ⟨code, count, lift_fault_eq_ok.1 hloop, rfl, Size.add_eq_ok (lift_fault_eq_ok.1 htotal)⟩

omit [Scalar α] in
theorem resetCode_eq_ok {s : Setting α} {dims : List Nat} (h : resetCode s dims = .ok c) :
    c = if s.options.resetTensor then .reset dims.prod else .skip := by
  unfold resetCode at h
  split at h
  · next hreset =>
    rcases bind_eq_ok.1 h with ⟨size, hsize, h⟩
    rw [if_pos hreset, ← pure_eq_ok.1 h, Size.product_eq_prod hsize]
  · next hreset => rw [if_neg hreset, ← pure_eq_ok.1 h]

theorem quadratureCase_eq_ok {d : Dimensions} {facets : Facets} {c : CaseCode α}
    (h : quadratureCase s f d kind ms facets = .ok c) : ∃ terms stores loops operations constants,
      storeTerms s f d facets ms = .ok (terms, stores) ∧
      (byPoints terms).foldlM (loopStep s.number (2 ≤ s.options.optimisationLevel) (macroDims f kind))
        ([], 0, {}) = .ok (loops, operations, constants) ∧
      (c.symbols = constants.symbols ∧ c.operations = operations + constants.operations) ∧
      c.code = .seq (if s.options.resetTensor then .reset (macroDims f kind).prod else .skip)
        (.all [stores.weights.declarations, stores.tables.declarations, constants.declarations,
          .block (.all loops)]) := by
  rcases bind_eq_ok.1 h with ⟨⟨terms, stores⟩, hstore, h⟩
  rcases bind_eq_ok.1 h with ⟨⟨loops, operations, constants⟩, hloops, h⟩
  rcases bind_eq_ok.1 h with ⟨reset, hreset, h⟩
  rcases bind_eq_ok.1 h with ⟨total, htotal, h⟩
  cases h
  refine ⟨terms, stores, loops, operations, constants, hstore, hloops,
    ⟨rfl, Size.add_eq_ok (lift_fault_eq_ok.1 htotal)⟩, ?_⟩
  rw [← resetCode_eq_ok (lift_fault_eq_ok.1 hreset)]
  rfl

/-- The declarations of a contraction are those of its terms, one after the other. -/
theorem Contraction.geometryEntries_eq_ok (h : geometryEntries terms = .ok entries) :
    ∃ lists, entries = lists.flatten ∧ Forall₂ (fun x list => ∃ es,
      x.1.geometry.entries = .ok es ∧ list = es.map fun y => (x.2, y.1, y.2)) terms.zipIdx lists := by
  rcases bind_eq_ok.1 h with ⟨lists, hlists, h⟩
  refine ⟨lists, (pure_eq_ok.1 h).symm, (mapM_eq_ok.1 hlists).imp fun x list hlist => ?_⟩
  rcases bind_eq_ok.1 hlist with ⟨es, hes, hlist⟩
  exact ⟨es, hes, (pure_eq_ok.1 hlist).symm⟩

theorem Contraction.forall_geometryEntries {P : Powers → Prop}
    (h : geometryEntries terms = .ok entries)
    (hP : ∀ t ∈ terms, ∀ es, t.geometry.entries = .ok es → ∀ x ∈ es, P x.2.powers) :
    ∀ x ∈ entries, P x.2.2.powers := by
  rcases geometryEntries_eq_ok h with ⟨lists, rfl, hlists⟩
  intro x hx
  rcases mem_flatten.1 hx with ⟨list, hlist, hx⟩
  rcases forall₂_mem hlists.flip hlist with ⟨t, ht, es, hes, rfl⟩
  rcases mem_map.1 hx with ⟨y, hy, rfl⟩
  exact hP t.1 (fst_mem_of_mem_zipIdx ht) es hes y hy

theorem Contraction.exists_of_mem_statements (h : c ∈ statements terms) :
    ∃ position value, c = .accumulate position value := by
  unfold statements at h
  split at h
  · cases h
  · rcases mem_filterMap.1 h with ⟨x, _, h⟩
    simp only at h
    split at h
    · cases h
    · cases h
      exact ⟨_, _, rfl⟩

def Contraction.geometryCode (entries : List (Nat × List Nat × GeometryMonomial α)) :
    List (Code α) :=
  [.note "Compute geometry tensors", .note ("Number of operations to compute geometry tensors = " ++
    toString (entries.map fun x => x.2.2.operations).sum)] ++
    entries.map fun x => .geometry x.1 x.2.1 x.2.2

def Contraction.elementCode (terms : List (TensorTerm α)) : List (Code α) :=
  [.gap, .note "Compute element tensor", .note ("Number of operations to compute element tensor = " ++
    toString (terms.map fun term => 2 * addedCount term).sum)] ++ statements terms

theorem Contraction.code_eq_ok {c : CaseCode α} (h : code s dims terms = .ok c) :
    ∃ entries, geometryEntries terms = .ok entries ∧
      c.symbols = entries.flatMap (fun x => x.2.2.powers.map Prod.fst) ∧
      c.operations = (entries.map fun x => x.2.2.operations).sum +
        (terms.map fun term => 2 * addedCount term).sum ∧
      c.code = .seq (if s.options.resetTensor then .reset dims.prod else .skip)
        (.all (geometryCode entries ++ elementCode terms)) := by
  rcases bind_eq_ok.1 h with ⟨entries, hentries, h⟩
  rcases bind_eq_ok.1 h with ⟨geometry, hgeometry, h⟩
  rcases bind_eq_ok.1 h with ⟨element, helement, h⟩
  rcases bind_eq_ok.1 h with ⟨reset, hreset, h⟩
  rcases bind_eq_ok.1 h with ⟨operations, hoperations, h⟩
  cases h
  rw [Size.sum_eq_ok hgeometry, Size.sum_eq_ok helement] at hoperations
  rw [Size.sum_eq_ok hgeometry, Size.sum_eq_ok helement]
  refine ⟨entries, hentries, rfl, Size.add_eq_ok hoperations, ?_⟩
  rw [← resetCode_eq_ok hreset]
  simp only [geometryCode, elementCode, append_assoc]
  rfl

theorem contractionCase_eq_ok {domain : Nat} {primary : MultiIndex} {facet : Option Nat}
    {c c' : Allocator} {x : CaseCode α}
    (h : (contractionCase s f kind domain ms primary facet).run c = (.ok x, c')) :
    ∃ terms tensor, (tensorTerms s.gauss s.tabulator f ms facet primary).run c = (.ok terms, c') ∧
      ElementTensor.of terms kind domain (Cpp.style s.number) = .ok tensor ∧ tensor.terms = terms ∧
      Contraction.code s (macroDims f kind) terms = .ok x := by
  rcases run_bind_eq_ok.1 h with ⟨_, c₀, hlength, h⟩
  rw [run_ofOutcome, Prod.mk.injEq] at hlength
  rcases hlength with ⟨_, rfl⟩
  rcases run_bind_eq_ok.1 h with ⟨terms, c₁, hterms, h⟩
  rw [run_ofOutcome, Prod.mk.injEq] at h
  rcases bind_eq_ok.1 h.1 with ⟨_, _, h'⟩
  rcases bind_eq_ok.1 h' with ⟨tensor, htensor, hcode⟩
  have hsame := (ElementTensor.of_eq_ok htensor).1
  rw [hsame] at hcode
  exact ⟨terms, tensor, h.2 ▸ hterms, htensor, hsame, lift_fault_eq_ok.1 hcode⟩

end

/-- The facets that the cases of an integral are computed on. -/
def facetCases (shape : Shape) : Integral → List Facets
  | .cell => [(none, none)]
  | .exteriorFacet => (List.range shape.facetCount).map fun k => (some k, none)
  | .interiorFacet => (List.range shape.facetCount).flatMap fun j =>
    (List.range shape.facetCount).map fun k => (some j, some k)

theorem facetCases_ne_nil (shape : Shape) (kind : Integral) : facetCases shape kind ≠ [] := by
  cases kind <;> cases shape <;> decide

theorem isSome_of_mem_facetCases {shape : Shape} {kind : Integral} {facets : Facets}
    (h : facets ∈ facetCases shape kind) :
    (facets.2.isSome → facets.1.isSome) ∧ (kind = .interiorFacet → facets.2.isSome) := by
  cases kind with
  | cell =>
    rw [mem_singleton.1 h]
    exact ⟨id, Integral.noConfusion⟩
  | exteriorFacet =>
    rcases mem_map.1 h with ⟨facet, _, rfl⟩
    exact ⟨fun _ => rfl, Integral.noConfusion⟩
  | interiorFacet =>
    rcases mem_flatMap.1 h with ⟨facet0, _, h⟩
    rcases mem_map.1 h with ⟨facet1, _, rfl⟩
    exact ⟨fun _ => rfl, fun _ => rfl⟩

def Body.codes : Body α → List (Code α)
  | cell code => [code]
  | facets codes => codes
  | facetPairs codes => codes.flatten

/-- The code that runs for given facets. A routine with one body for all facets runs that. -/
def Body.select : Body α → Facets → Option (Code α)
  | cell code, _ => some code
  | facets codes, (some facet, _) => codes[facet]?
  | facetPairs codes, (some facet0, some facet1) => codes[facet0]?.bind fun row => row[facet1]?
  | _, _ => none

theorem forall₂_range {β : Type} {R : Nat → β → Prop} {n : Nat} {ys : List β}
    (h : Forall₂ R (range n) ys) : Forall₂ (fun k y => ys[k]? = some y ∧ R k y) (range n) ys := by
  rw [forall₂_iff_get] at h ⊢
  refine ⟨h.1, fun k hk hk' => ⟨?_, h.2 k hk hk'⟩⟩
  rw [get_eq_getElem, getElem_range, getElem?_eq_getElem hk']
  rfl

section

variable {kind : Integral} {case : Facets → Drawing (CaseCode α)} {c c' : Allocator}

/-- A body has the code of its cases, one for each way to call it that was made for these facets. -/
theorem caseBody_eq_ok {shape : Shape} {body : Body α} {cases : List (CaseCode α)}
    (h : (caseBody shape kind case).run c = (.ok (body, cases), c')) :
    body.codes = cases.map CaseCode.code ∧
      Forall₂ (fun facets x => body.select facets = some x.code ∧
        ∃ c₁ c₂, (case facets).run c₁ = (.ok x, c₂)) (facetCases shape kind) cases := by
  unfold caseBody at h
  cases kind with
  | cell =>
    rcases run_bind_eq_ok.1 h with ⟨x, c₁, hx, h⟩
    cases h
    exact ⟨rfl, .cons ⟨rfl, _, _, hx⟩ .nil⟩
  | exteriorFacet =>
    rcases run_bind_eq_ok.1 h with ⟨xs, c₁, hxs, h⟩
    cases h
    rw [facetCases, forall₂_map_left_iff]
    refine ⟨rfl, (forall₂_range (run_mapM_eq_ok hxs)).imp fun facet x hx => ⟨?_, hx.2⟩⟩
    rw [Body.select, getElem?_map, hx.1, Option.map_some]
  | interiorFacet =>
    rcases run_bind_eq_ok.1 h with ⟨xss, c₁, hxss, h⟩
    cases h
    rw [facetCases, flatMap_def]
    refine ⟨map_flatten.symm, rel_flatten ?_⟩
    rw [forall₂_map_left_iff]
    refine (forall₂_range (run_mapM_eq_ok hxss)).imp fun facet0 xs hxs => ?_
    rcases hxs with ⟨hget, c₂, c₃, hxs⟩
    rw [forall₂_map_left_iff]
    refine (forall₂_range (run_mapM_eq_ok hxs)).imp fun facet1 x hx => ⟨?_, hx.2⟩
    rw [Body.select, getElem?_map, hget, Option.map_some, Option.bind_some, getElem?_map, hx.1,
      Option.map_some]

variable [Scalar α]

theorem routine_eq_ok {s : Setting α} {f : Form α} {name : String} {r : Routine α}
    (h : (routine s f kind name false case).run c = (.ok r, c')) :
    ∃ d cases, f.dims = .ok d ∧ r.kind = kind ∧
      r.geometry = some ((geometryListing d kind (cases.flatMap CaseCode.symbols)).prune
        (r.body.listing s.number)) ∧ r.body.codes = cases.map CaseCode.code ∧
      r.operations = (cases.map fun x => x.operations).foldl max 0 ∧
      Forall₂ (fun facets x => r.body.select facets = some x.code ∧
        ∃ c₁ c₂, (case facets).run c₁ = (.ok x, c₂)) (facetCases f.cell kind) cases := by
  unfold routine at h
  rcases run_bind_eq_ok.1 h with ⟨d, c₁, hd, h⟩
  rcases run_bind_eq_ok.1 h with ⟨⟨body, cases⟩, c₂, hbody, h⟩
  rw [run_ofOutcome, Prod.mk.injEq, lift_problem_eq_ok] at hd
  rcases caseBody_eq_ok hbody with ⟨hcodes, hcases⟩
  cases h
  exact ⟨d, cases, hd.1, rfl, rfl, hcodes, rfl, hcases⟩

end

end WeakForm
