import WeakForm.Proofs.ContractionText
import WeakForm.Proofs.GeometryScope
import WeakForm.Proofs.Independence
import WeakForm.Proofs.SoundLoops

/-!
# The meaning of contraction code

The code of a contraction declares the entries of the geometry tensors and then adds a
sum of numbers times these names to each entry of the element tensor. What it adds is
what `ElementTensor.evaluate` computes.

The declarations are looked up by term and secondary tuple. Every entry has a name of its
own, so a name has the value it was declared with (`scope_of_mem`), and every name that a
sum reads is declared, because the reference and the geometry tensor of a term range over
the same secondary tuples.

## Theorems

* `Contraction.adds_statements`: What the sums add.
* `Contraction.evaluate_eq_ok`: Evaluating gives the sums.
-/

namespace WeakForm

open List Success ElementTensor

section

variable {α : Type} [Scalar α]

theorem forall₂_positions {β : Type} (xs : List β) :
    Forall₂ (fun x y => y.1 = x ∧ xs[y.2]? = some y.1) xs xs.zipIdx := by
  refine forall₂_iff_get.2 ⟨length_zipIdx.symm, fun n hn hn' => ?_⟩
  simp [hn]

namespace ElementTensor

variable {terms : List (TensorTerm α)}

theorem sumExpr_along {P : List (Nat × List Nat × α) → Expr (Nat × List Nat) α → Prop}
    (hfirst : ∀ y, P [y] (.literal y.2.2 * .name (y.1, y.2.1)))
    (hsub : ∀ done y e, P done e → P (done ++ [y]) (e - .literal (-y.2.2) * .name (y.1, y.2.1)))
    (hadd : ∀ done y e, P done e → P (done ++ [y]) (e + .literal y.2.2 * .name (y.1, y.2.1)))
    (y : Nat × List Nat × α) (rest : List (Nat × List Nat × α)) :
    P (y :: rest) (sumExpr (y :: rest)) := by
  induction rest using List.reverseRecOn with
  | nil => exact hfirst y
  | append_singleton rest z ih =>
    have hlast : sumExpr (y :: (rest ++ [z])) = if Scalar.lt z.2.2 0
        then sumExpr (y :: rest) - .literal (-z.2.2) * .name (z.1, z.2.1)
        else sumExpr (y :: rest) + .literal z.2.2 * .name (z.1, z.2.1) := foldl_append
    rw [hlast, ← cons_append]
    split
    · exact hsub _ z _ ih
    · exact hadd _ z _ ih

/-- The entries of the reference tensors for a primary tuple that pass a test, with the term and the
    secondary tuple they belong to. -/
def selected (test : α → Bool) (terms : List (TensorTerm α)) (i : List Nat) :
    List (Nat × List Nat × α) :=
  terms.zipIdx.flatMap fun x => x.1.reference.a.tuples.filterMap fun a =>
    if test (x.1.reference.entry i a) then some (x.2, a, x.1.reference.entry i a) else none

/-- Evaluating adds the entries that pass the test, times the values of the geometry. -/
theorem evaluate_eq_selected {tensor : ElementTensor α} {i : MultiIndex} {v : Symbol → α}
    {g : Nat × List Nat → α} (hprimary : primary tensor.terms = some i)
    (hdims : ∀ t ∈ tensor.terms, t.reference.a.dims = t.geometry.a.dims)
    (hvalue : ∀ j t, tensor.terms[j]? = some t → ∃ entries, t.geometry.entries = .ok entries ∧
      ∀ y ∈ entries, g (j, y.1) = y.2.value v) :
    tensor.evaluate v = .ok (i.tuples.map fun it => (selected isAdded tensor.terms it).foldl
      (fun acc y => acc + y.2.2 * g (y.1, y.2.1)) 0) := by
  have hvalues : tensor.terms.mapM (fun term => do
      return (term.reference, (← term.geometry.entries).map fun x => (x.1, x.2.value v))) =
        (.ok (tensor.terms.zipIdx.map fun x => (x.1.reference, x.1.reference.a.tuples.map fun a =>
          (a, g (x.2, a)))) : Checked _) := by
    rw [mapM_eq_ok, forall₂_map_right_iff]
    refine (forall₂_positions tensor.terms).imp fun t x hx => ?_
    rcases hx with ⟨rfl, ht⟩
    rcases hvalue x.2 x.1 ht with ⟨entries, hentries, hvalues⟩
    refine bind_eq_ok.2 ⟨entries, hentries, ?_⟩
    rw [pure_eq_ok, MultiIndex.tuples, hdims x.1 (mem_of_getElem? ht), ← MultiIndex.tuples,
      ← GeometryTensor.map_fst_entries hentries, map_map]
    refine congrArg (Prod.mk _) (map_congr_left fun y hy => ?_)
    rw [Function.comp_apply, hvalues y hy]
  unfold evaluate
  rw [hprimary]
  refine bind_eq_ok.2 ⟨_, hvalues, congrArg Except.ok (map_congr_left fun it _ => ?_)⟩
  -- Both loops go through the terms, and through the secondary tuples of each.
  rw [selected, foldl_flatMap, foldl_map]
  refine foldl_ext _ _ _ fun acc x _ => ?_
  dsimp only
  rw [foldl_filterMap, foldl_map]
  refine foldl_ext _ _ _ fun acc a _ => ?_
  split
  · rfl
  · rfl

end ElementTensor

end

section

variable {ν μ α : Type} [Scalar α]

theorem Expr.value_rename (g : ν → μ) (read : μ → Checked α) (e : Expr ν α) :
    (e.rename g).value read = e.value fun n => read (g n) := by
  induction e with
  | literal x => rfl
  | name n => rfl
  | neg a ih | sqrt a ih | abs a ih | group a ih => rw [rename, value, value, ih]
  | add a b iha ihb | sub a b iha ihb | mul a b iha ihb | div a b iha ihb =>
    rw [rename, value, value, iha, ihb]

end

section

variable {K : Type} [Field K] [LinearOrder K] [Root K]
variable {v : Symbol → K} {terms : List (TensorTerm K)}

/-- Code for some elements of a list, and none for those that add nothing. -/
theorem adds_filterMap {β : Type} {e : Env K} {dims : List Nat} {xs : List β}
    {code : β → Option (Code K)} (amount : β → List Nat → K)
    (h : ∀ x ∈ xs, (code x = none ∧ ∀ M, amount x M = 0) ∨
      ∃ c, code x = some c ∧ Adds v e dims c (amount x)) :
    Adds v e dims (.all (xs.filterMap code)) fun M => (xs.map fun x => amount x M).sum := by
  induction xs with
  | nil => exact adds_zero fun A => rfl
  | cons x xs ih =>
    rw [forall_mem_cons] at h
    have hrest := ih h.2
    rcases h.1 with ⟨hnone, hzero⟩ | ⟨c, hsome, hadds⟩
    · rw [filterMap_cons_none hnone]
      refine hrest.congr fun M _ => ?_
      rw [map_cons, sum_cons, hzero, zero_add]
    · rw [filterMap_cons_some hsome]
      refine (adds_seq hadds hrest).congr fun M _ => ?_
      rw [map_cons, sum_cons]

theorem ElementTensor.value_sumExpr {read : Nat × List Nat → Checked K} (value : Nat × List Nat → K)
    {entries : List (Nat × List Nat × K)}
    (h : ∀ y ∈ entries, read (y.1, y.2.1) = .ok (value (y.1, y.2.1))) :
    (sumExpr entries).value read = .ok (entries.map fun y => y.2.2 * value (y.1, y.2.1)).sum := by
  cases entries with
  | nil => rfl
  | cons y rest =>
    refine sumExpr_along (P := fun done e =>
      (∀ y ∈ done, read (y.1, y.2.1) = .ok (value (y.1, y.2.1))) →
        e.value read = .ok (done.map fun y => y.2.2 * value (y.1, y.2.1)).sum)
      (fun y h => ?_) (fun done y e he h => ?_) (fun done y e he h => ?_) y rest h
    · rw [forall_mem_singleton] at h
      rw [map_singleton, sum_singleton]
      exact bind_eq_ok.2 ⟨_, rfl, bind_eq_ok.2 ⟨_, h, rfl⟩⟩
    -- Negative numbers are subtracted with the opposite sign.
    · rw [forall_mem_append, forall_mem_singleton] at h
      refine bind_eq_ok.2 ⟨_, he h.1, bind_eq_ok.2 ⟨_, bind_eq_ok.2 ⟨_, rfl,
        bind_eq_ok.2 ⟨_, h.2, rfl⟩⟩, ?_⟩⟩
      rw [pure_eq_ok, neg_mul, sub_neg_eq_add, map_append, sum_append, map_singleton,
        sum_singleton]
    · rw [forall_mem_append, forall_mem_singleton] at h
      refine bind_eq_ok.2 ⟨_, he h.1, bind_eq_ok.2 ⟨_, bind_eq_ok.2 ⟨_, rfl,
        bind_eq_ok.2 ⟨_, h.2, rfl⟩⟩, ?_⟩⟩
      rw [pure_eq_ok, map_append, sum_append, map_singleton, sum_singleton]

namespace Contraction

/-- The values of the declared entries of geometry tensors. -/
def scope (v : Symbol → K) (entries : List (Nat × List Nat × GeometryMonomial K)) :
    Nat × List Nat → Option K :=
  declareAll (fun _ => none) (entries.map fun x => ((x.1, x.2.1), x.2.2.value v))

variable {entries : List (Nat × List Nat × GeometryMonomial K)} {primary : MultiIndex}

theorem nodup_geometryEntries (h : geometryEntries terms = .ok entries) :
    (entries.map fun x => (x.1, x.2.1)).Nodup := by
  rcases geometryEntries_eq_ok h with ⟨lists, rfl, hlists⟩
  have hnames : lists.flatten.map (fun x => (x.1, x.2.1)) =
      terms.zipIdx.flatMap fun x => x.1.geometry.a.tuples.map fun a => (x.2, a) := by
    rw [map_flatten, flatMap_def]
    refine congrArg List.flatten (map_eq_of_forall₂ hlists.flip fun list x hx => ?_)
    rcases hx with ⟨es, hes, rfl⟩
    rw [map_map, ← GeometryTensor.map_fst_entries hes, map_map]
    rfl
  -- The names that the entries are written with are different already.
  have hwritten := nodup_declaredGeometry (fun _ => "") terms
  rw [declaredGeometry, map_flatMap] at hwritten
  rw [hnames]
  refine Nodup.of_map (fun n => Cpp.geometryName n.1 n.2) ?_
  rw [map_flatMap]
  simpa only [map_map, Function.comp_def] using hwritten

theorem scope_of_mem (h : geometryEntries terms = .ok entries) {j : Nat} {t : TensorTerm K}
    (ht : terms[j]? = some t) : ∃ es, t.geometry.entries = .ok es ∧
      ∀ y ∈ es, scope v entries (j, y.1) = some (y.2.value v) := by
  have hnodup := nodup_geometryEntries h
  rcases geometryEntries_eq_ok h with ⟨lists, rfl, hlists⟩
  have hget : terms.zipIdx[j]? = some (t, j) := by
    rw [getElem?_zipIdx, ht, Option.map_some, Nat.zero_add]
  rcases forall₂_get hlists hget with ⟨list, hlist, es, hes, rfl⟩
  refine ⟨es, hes, fun y hy => declareAll_of_mem ?_ (mem_map.2 ⟨(j, y.1, y.2), ?_, rfl⟩)⟩
  · rwa [map_map]
  · exact mem_flatten.2 ⟨_, mem_of_getElem? hlist, mem_map_of_mem hy⟩

theorem scope_of_contributions (hranges : ∀ t ∈ terms, t.Ranges primary)
    (h : geometryEntries terms = .ok entries) {i : List Nat} {y : Nat × List Nat × K}
    (hy : y ∈ contributions terms i) : ∃ x, scope v entries (y.1, y.2.1) = some x := by
  rcases mem_contributions hy with ⟨t, ht, ha, _⟩
  rcases scope_of_mem (v := v) h ht with ⟨es, hes, hscope⟩
  rw [MultiIndex.tuples, (hranges t (mem_of_getElem? ht)).dims] at ha
  have hfst := GeometryTensor.map_fst_entries hes
  rw [MultiIndex.tuples] at hfst
  rw [← hfst] at ha
  rcases mem_map.1 ha with ⟨z, hz, hfst⟩
  exact ⟨_, hfst ▸ hscope z hz⟩

omit [Field K] [LinearOrder K] [Root K] in
theorem primary_eq {primary : MultiIndex} (hterms : terms ≠ [])
    (hranges : ∀ t ∈ terms, t.Ranges primary) : ElementTensor.primary terms = some primary := by
  rcases exists_cons_of_ne_nil hterms with ⟨t, rest, rfl⟩
  exact congrArg some (hranges t mem_cons_self).primary

theorem adds_statements (hterms : terms ≠ []) (hranges : ∀ t ∈ terms, t.Ranges primary)
    (h : geometryEntries terms = .ok entries) {e : Env K} (he : e.geometry = scope v entries) :
    Adds v e primary.dims (.all (statements terms)) fun M =>
      ((contributions terms M).map fun y => y.2.2 * (scope v entries (y.1, y.2.1)).getD 0).sum := by
  unfold statements
  rw [primary_eq hterms hranges]
  simp only
  rw [MultiIndex.tuples, Tuple.zipIdx_all, filterMap_map]
  -- Each statement adds to the entry of its own primary tuple.
  refine (adds_filterMap (fun i M => if M = i then ((contributions terms i).map fun y =>
    y.2.2 * (scope v entries (y.1, y.2.1)).getD 0).sum else 0) fun i hi => ?_).congr fun M hM => ?_
  · simp only [Function.comp_apply]
    cases hentries : contributions terms i with
    | nil =>
      refine Or.inl ⟨rfl, fun M => ?_⟩
      rw [map_nil, sum_nil, ite_self]
    | cons y rest =>
      refine Or.inr ⟨_, rfl, adds_accumulate hi rfl ?_⟩
      rw [Expr.value_rename]
      refine value_sumExpr (fun n => (scope v entries n).getD 0) fun z hz => ?_
      rcases scope_of_contributions (v := v) hranges h (hentries ▸ hz) with ⟨x, hx⟩
      rw [Env.operand, he, hx]
      rfl
  · rw [sum_eq_of_pick _ _ (Tuple.linear primary.dims M) fun n i hi hn => if_neg ?_,
      Tuple.get_linear hM, Option.map_some, Option.getD_some, if_pos rfl]
    rintro rfl
    exact hn (Tuple.linear_of_get hi).symm

theorem evaluate_eq_ok {tensor : ElementTensor K} (hterms : terms ≠ [])
    (hranges : ∀ t ∈ terms, t.Ranges primary) (hsame : tensor.terms = terms)
    (h : geometryEntries terms = .ok entries) :
    tensor.evaluate v = .ok ((Tuple.all primary.dims).map fun M =>
      ((contributions terms M).map fun y => y.2.2 * (scope v entries (y.1, y.2.1)).getD 0).sum) := by
  have hadded : (isAdded : K → Bool) = isWritten := by
    funext x
    rw [Bool.eq_iff_iff, isWritten, isAdded, Bool.not_eq_true', ← Bool.not_eq_true,
      Scalar.le_eq_true, Scalar.lt_eq_true, not_le]
  subst hsame
  rw [evaluate_eq_selected (primary_eq hterms hranges) (fun t ht => (hranges t ht).dims)
    (g := fun n => (scope v entries n).getD 0) fun j t ht => ?_]
  · refine congrArg Except.ok (map_congr_left fun M _ => ?_)
    rw [Scalar.foldl_add_eq_sum, zero_add, hadded]
    rfl
  · rcases scope_of_mem (v := v) h ht with ⟨es, hes, hscope⟩
    exact ⟨es, hes, fun y hy => congrArg (Option.getD · 0) (hscope y hy)⟩

variable [IsStrictOrderedRing K]

theorem exec_geometryCode (h : geometryEntries terms = .ok entries) (A : List K) :
    (Code.all (geometryCode entries)).exec v {} A = .ok ({ geometry := scope v entries }, A) := by
  have hnotes : (Code.all [.note "Compute geometry tensors",
      .note ("Number of operations to compute geometry tensors = " ++
        toString (entries.map fun x => x.2.2.operations).sum)] : Code K).exec v {} A = .ok ({}, A) := rfl
  refine (exec_all_append hnotes).trans (exec_declare .geometry
    (fun x : Nat × List Nat × GeometryMonomial K => .geometry x.1 x.2.1 x.2.2)
    (fun x => (x.1, x.2.1)) (fun x => x.2.2.value v) (fun x e A hfree => ?_)
    (nodup_geometryEntries h) (fun _ _ => rfl) A)
  -- A monomial is written like a sum of one term.
  have hvalue : x.2.2.toExpr.value (fun s => .ok (v s)) = .ok (x.2.2.value v) := by
    have hsum := GeometrySum.value_toExpr ⟨[x.2.2]⟩ v
    rwa [GeometrySum.value_eq_total, GeometrySum.total, map_cons, map_nil, sum_singleton] at hsum
  rw [Code.exec, hvalue]
  refine bind_eq_ok.2 ⟨_, rfl, ?_⟩
  rw [declare_of_none (show e.geometry _ = none from hfree)]
  rfl

end Contraction

end

end WeakForm
