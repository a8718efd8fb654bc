import Mathlib.Data.List.Induction
import Mathlib.Logic.Relation
import WeakForm.Code.Quadrature
import WeakForm.Proofs.Stores

/-!
# Storing terms

Monomials are stored one after the other, and the store that one of them finds is the
store that the others have left. What becomes of each is therefore said in terms of
what happened: the weights were handed to a store after some calls, and a table was
stored at some point with more tables behind it. Such facts stay true whatever is
stored next, so one pass over the monomials gives them all, and says nothing yet about
the numbers.

With lawful keys more can be said at once. The state of a store of weights is described
by the calls so far (`WeightStore.Groups`): one group for each weights that are not
equal as keys, holding the weights of the first call and the terms of all calls with
these weights, in order. Tables that were stored are kept.

## Main definitions

* `TableStore.Leads`, `TableStore.Took`: Stores that come one after the other.
* `Product.Made`, `PointTerm.Made`: What is made of a choice of tables, and of a term.

## Theorems

* `WeightStore.Groups.register`: What one call keeps.
* `storeTerms_made`: What is made of monomials.
* `TableStore.Took.keeps`: A table that was stored is kept.
-/

namespace WeakForm

open List Success

namespace WeightStore

section

variable {α : Type} [Scalar α] {groups : List (List α × List Nat)} {s : WeightStore α}

/-- The terms that were stored with given weights, in order. -/
def sharers (calls : List (Nat × List α)) (weights : List α) : List Nat :=
  (calls.filter fun c => sameRow weights c.2).map Prod.fst

/-- The groups of a store after some calls. A group has the weights of the first call with these
    weights, and the terms of all of them. -/
structure Groups (s : WeightStore α) (calls : List (Nat × List α)) : Prop where
  apart : Apart (fun g g' => sameRow g.1 g'.1) s.groups
  terms : ∀ g ∈ s.groups, g.2 = sharers calls g.1
  first : ∀ g ∈ s.groups, ∃ term, calls.find? (fun c => sameRow g.1 c.2) = some (term, g.1)
  cover : ∀ c ∈ calls, ∃ g ∈ s.groups, sameRow c.2 g.1 = true
  perm : (s.groups.flatMap Prod.snd).Perm (calls.map Prod.fst)

theorem groups_empty : ({} : WeightStore α).Groups [] :=
  ⟨.nil, nofun, nofun,
    nofun, .refl _⟩

omit [Scalar α] in
theorem arrays_declarations (s : WeightStore α) : s.declarations.arrays =
      s.groups.map fun g => (Cpp.weightName (g.2.head?.getD 0), .weights g.1) := by
  rw [declarations, Code.arrays, Code.arrays_all, flatMap_map, map_eq_flatMap]
  rfl

theorem sharers_concat (calls : List (Nat × List α)) (term : Nat) (weights ws : List α) :
    sharers (calls ++ [(term, weights)]) ws =
      sharers calls ws ++ if sameRow ws weights then [term] else [] := by
  rw [sharers, filter_append, map_append, filter_singleton]
  cases sameRow ws weights <;> rfl

/-- Every term that is stored is listed once more. -/
theorem perm_register (s : WeightStore α) (term : Nat) (weights : List α) :
    ((s.register term weights).2.groups.flatMap Prod.snd).Perm
      (s.groups.flatMap Prod.snd ++ [term]) := by
  -- The term is added to one of the lists, and it does not matter to which.
  have hjoin : ∀ (groups : List (List α × List Nat)) (k : Nat), k < groups.length →
      ((join term k groups).flatMap Prod.snd).Perm (groups.flatMap Prod.snd ++ [term]) := by
    intro groups
    induction groups with
    | nil => exact fun k hk => absurd hk (Nat.not_lt_zero k)
    | cons g groups ih =>
      intro k hk
      rw [flatMap_cons, append_assoc]
      cases k with
      | zero =>
        rw [join, flatMap_cons, append_assoc]
        exact perm_append_comm.append_left g.2
      | succ k =>
        rw [join, flatMap_cons]
        exact (ih k (Nat.lt_of_succ_lt_succ hk)).append_left g.2
  unfold register
  split
  · next k hk =>
    rcases get_of_findIdx? hk with ⟨g, hg, _⟩
    exact hjoin s.groups k (List.getElem?_eq_some_iff.1 hg).1
  · rw [flatMap_append]
    exact List.Perm.refl _

/-- A group after a call: the term joins it if it has the weights of the group. -/
def enrolled (term : Nat) (weights : List α) (g : List α × List Nat) : List α × List Nat :=
  (g.1, g.2 ++ if sameRow weights g.1 then [term] else [])

theorem map_enrolled_of_forall {weights : List α} (h : ∀ g ∈ groups, sameRow weights g.1 = false)
    (term : Nat) : groups.map (enrolled term weights) = groups := by
  conv_rhs => rw [← map_id groups]
  refine map_congr_left fun g hg => ?_
  rw [enrolled, h g hg, if_neg Bool.false_ne_true, append_nil]
  rfl

variable [LawfulKeys α] {weights : List α} {calls : List (Nat × List α)}

theorem join_eq_map {k : Nat} (happart : Apart (fun g g' => sameRow g.1 g'.1) groups)
    (hk : groups.findIdx? (fun g => sameRow weights g.1) = some k) (term : Nat) :
    join term k groups = groups.map (enrolled term weights) := by
  induction groups generalizing k with
  | nil => cases hk
  | cons g groups ih =>
    rw [Apart, pairwise_cons] at happart
    rw [findIdx?_cons] at hk
    cases hg : sameRow weights g.1 with
    | true =>
      rw [hg, if_pos rfl, Option.some.injEq] at hk
      -- No other group has these weights, since groups are apart.
      have hrest : ∀ g' ∈ groups, sameRow weights g'.1 = false := by
        intro g' hg'
        rw [← Bool.not_eq_true]
        intro hsame
        exact absurd (sameRow_equivalence.trans (sameRow_equivalence.symm hg) hsame)
          (Bool.not_eq_true _ ▸ happart.1 g' hg')
      rw [← hk, join, map_cons, map_enrolled_of_forall hrest, enrolled, hg, if_pos rfl]
    | false =>
      rw [hg, if_neg Bool.false_ne_true, Option.map_eq_some_iff] at hk
      rcases hk with ⟨k, hk, rfl⟩
      rw [join, map_cons, ih happart.2 hk, enrolled, hg, if_neg Bool.false_ne_true, append_nil]

theorem groups_register (happart : Apart (fun g g' => sameRow g.1 g'.1) s.groups) (term : Nat)
    (weights : List α) :
    (s.register term weights).2.groups = s.groups.map (enrolled term weights) ++
      if s.groups.any fun g => sameRow weights g.1 then [] else [(weights, [term])] := by
  unfold register
  split
  · next k hk =>
    rcases get_of_findIdx? hk with ⟨g, hg, hsame⟩
    rw [if_pos (any_eq_true.2 ⟨g, mem_of_getElem? hg, hsame⟩), append_nil]
    exact join_eq_map happart hk term
  · next hnone =>
    rw [findIdx?_eq_none_iff] at hnone
    rw [map_enrolled_of_forall hnone, if_neg]
    rw [Bool.not_eq_true, any_eq_false]
    exact fun g hg => Bool.not_eq_true _ ▸ hnone g hg

theorem find?_concat (term : Nat) (h : ∀ c ∈ calls, sameRow weights c.2 = false) :
    (calls ++ [(term, weights)]).find? (fun c => sameRow weights c.2) = some (term, weights) := by
  rw [find?_append, find?_eq_none.2 fun c hc => Bool.not_eq_true _ ▸ h c hc, Option.none_or]
  exact find?_cons_of_pos (sameRow_equivalence.refl weights)

namespace Groups

variable {s : WeightStore α} {calls : List (Nat × List α)} {g : List α × List Nat} {ws : List α}
  {first : Nat} (h : s.Groups calls)

include h

theorem not_same (hnew : (s.groups.any fun g => sameRow weights g.1) = false) :
    ∀ c ∈ calls, sameRow weights c.2 = false := by
  intro c hc
  rcases h.cover c hc with ⟨g, hg, hsame⟩
  rw [← Bool.not_eq_true]
  exact fun hc => any_eq_false.1 hnew g hg (sameRow_equivalence.trans hc hsame)

/-- The name of weights is the first term that was stored with them. -/
theorem head_eq (hg : g ∈ s.groups) (hsame : sameRow weights g.1 = true) :
    ∃ first, g.2.head? = some first ∧
      calls.find? (fun c => sameRow weights c.2) = some (first, g.1) := by
  rcases h.first g hg with ⟨first, hfind⟩
  refine ⟨first, ?_, sameRow_congr hsame ▸ hfind⟩
  rw [h.terms g hg, sharers, head?_map, head?_filter, hfind]
  rfl

/-- The groups that were there keep their weights, and list the new term if it has them. -/
theorem enrol (term : Nat) (weights : List α) (hg : g ∈ s.groups) :
    (enrolled term weights g).2 = sharers (calls ++ [(term, weights)]) g.1 ∧
      ∃ first, (calls ++ [(term, weights)]).find? (fun c => sameRow g.1 c.2) = some (first, g.1) := by
  rcases h.first g hg with ⟨first, hfind⟩
  refine ⟨?_, first, ?_⟩
  · rw [sharers_concat, enrolled, h.terms g hg, sameRow_comm]
  · rw [find?_append, hfind, Option.some_or]

theorem register (term : Nat) (weights : List α) :
    (s.register term weights).2.Groups (calls ++ [(term, weights)]) := by
  have hgroups := groups_register h.apart term weights
  -- What holds of the groups that were there is the same in both cases.
  have hapart : Apart (fun g g' => sameRow g.1 g'.1) (s.groups.map (enrolled term weights)) :=
    pairwise_map.2 h.apart
  have hterms : ∀ g ∈ s.groups.map (enrolled term weights),
      g.2 = sharers (calls ++ [(term, weights)]) g.1 :=
    forall_mem_map.2 fun g hg => (h.enrol term weights hg).1
  have hfirst : ∀ g ∈ s.groups.map (enrolled term weights), ∃ first,
      (calls ++ [(term, weights)]).find? (fun c => sameRow g.1 c.2) = some (first, g.1) :=
    forall_mem_map.2 fun g hg => (h.enrol term weights hg).2
  have hcover : ∀ c ∈ calls, ∃ g ∈ s.groups.map (enrolled term weights), sameRow c.2 g.1 = true := by
    intro c hc
    rcases h.cover c hc with ⟨g, hg, hsame⟩
    exact ⟨_, mem_map_of_mem hg, hsame⟩
  have hperm : ((s.register term weights).2.groups.flatMap Prod.snd).Perm
      ((calls ++ [(term, weights)]).map Prod.fst) := by
    rw [map_append]
    exact (perm_register s term weights).trans (h.perm.append_right _)
  cases hany : s.groups.any fun g => sameRow weights g.1 with
  | true =>
    rw [hany, if_pos rfl, append_nil] at hgroups
    rcases any_eq_true.1 hany with ⟨g, hg, hsame⟩
    refine ⟨hgroups ▸ hapart, hgroups ▸ hterms, hgroups ▸ hfirst, ?_, hperm⟩
    rw [hgroups]
    exact forall_mem_append.2 ⟨hcover, forall_mem_singleton.2
      ⟨_, mem_map_of_mem hg, hsame⟩⟩
  | false =>
    -- The new group has one term, since no earlier call had its weights.
    rw [hany, if_neg Bool.false_ne_true] at hgroups
    have hnew := h.not_same hany
    have hrefl : sameRow weights weights = true := sameRow_equivalence.refl weights
    refine ⟨hgroups ▸ ?_, hgroups ▸ forall_mem_append.2 ⟨hterms, ?_⟩,
      hgroups ▸ forall_mem_append.2 ⟨hfirst, ?_⟩, ?_, hperm⟩
    · refine pairwise_append.2 ⟨hapart, pairwise_singleton _ _, ?_⟩
      refine forall_mem_map.2 fun g hg => forall_mem_singleton.2 ?_
      rw [← Bool.not_eq_true]
      exact fun hsame => any_eq_false.1 hany g hg (sameRow_equivalence.symm hsame)
    · refine forall_mem_singleton.2 ?_
      rw [sharers_concat, hrefl, if_pos rfl, sharers, filter_eq_nil_iff.2 fun c hc =>
        Bool.not_eq_true _ ▸ hnew c hc]
      rfl
    · exact forall_mem_singleton.2 ⟨term, find?_concat term hnew⟩
    · rw [hgroups]
      refine forall_mem_append.2 ⟨fun c hc => ?_, forall_mem_singleton.2
        ⟨_, mem_append_right _ (mem_singleton_self _), hrefl⟩⟩
      rcases hcover c hc with ⟨g, hg, hsame⟩
      exact ⟨g, mem_append_left _ hg, hsame⟩

/-- A call hands out the first term with its weights. -/
theorem find?_register (term : Nat) (weights : List α) :
    ∃ ws, (calls ++ [(term, weights)]).find? (fun c => sameRow weights c.2) =
      some ((s.register term weights).1, ws) := by
  unfold WeightStore.register
  split
  · next k hk =>
    rcases get_of_findIdx? hk with ⟨g, hget, hsame⟩
    rcases h.head_eq (mem_of_getElem? hget) hsame with ⟨first, hhead, hfind⟩
    refine ⟨g.1, ?_⟩
    rw [find?_append, hfind, Option.some_or, hget, Option.map_some, Option.bind_some, hhead,
      Option.getD_some]
  · next hnone =>
    rw [findIdx?_eq_none_iff] at hnone
    have hany : (s.groups.any fun g => sameRow weights g.1) = false :=
      any_eq_false.2 fun g hg => Bool.not_eq_true _ ▸ hnone g hg
    exact ⟨weights, find?_concat term (h.not_same hany)⟩

omit [LawfulKeys α] h in
/-- A term belongs to one call, so weights with one first term are the same. -/
theorem eq_of_first (hterms : (calls.map Prod.fst).Nodup) {weights' ws' : List α}
    (h : calls.find? (fun c => sameRow weights c.2) = some (first, ws))
    (h' : calls.find? (fun c => sameRow weights' c.2) = some (first, ws')) : ws = ws' :=
  congrArg Prod.snd (inj_on_of_nodup_map hterms (mem_of_find?_eq_some h)
    (mem_of_find?_eq_some h') rfl)

theorem mem_declared (hfind : calls.find? (fun c => sameRow weights c.2) = some (first, ws)) :
    (first, ws) ∈ s.declared := by
  have hsame : sameRow weights ws = true := by simpa using find?_some hfind
  rcases h.cover _ (mem_of_find?_eq_some hfind) with ⟨g, hg, hws⟩
  rcases h.head_eq hg (sameRow_equivalence.trans hsame hws) with ⟨first', hhead, hfind'⟩
  rw [hfind, Option.some.injEq] at hfind'
  exact mem_map.2 ⟨g, hg, by rw [hfind', hhead, Option.getD_some]⟩

/-- Weights are named after different terms, if no two terms are equal. -/
theorem nodup_declared (hterms : (calls.map Prod.fst).Nodup) : (s.declared.map Prod.fst).Nodup := by
  rw [declared, map_map]
  refine pairwise_map.2 (h.apart.imp_of_mem fun {g g'} hg hg' happart => ?_)
  rcases h.head_eq hg (sameRow_equivalence.refl g.1) with ⟨first, hhead, hfind⟩
  rcases h.head_eq hg' (sameRow_equivalence.refl g'.1) with ⟨first', hhead', hfind'⟩
  intro hname
  rw [Function.comp_apply, Function.comp_apply, hhead, hhead', Option.getD_some,
    Option.getD_some] at hname
  subst hname
  have hsame : sameRow g.1 g'.1 = true :=
    eq_of_first hterms hfind hfind' ▸ sameRow_equivalence.refl g.1
  exact absurd hsame (Bool.not_eq_true _ ▸ happart)

theorem named {bound : Nat} (hterms : (calls.map Prod.fst).Nodup)
    (hbelow : ∀ c ∈ calls, c.1 < bound) : s.Named bound := by
  refine ⟨fun g hg hnil => ?_, forall_mem_map.2 fun g hg => ?_, h.nodup_declared hterms⟩
  · rcases h.head_eq hg (sameRow_equivalence.refl g.1) with ⟨first, hhead, _⟩
    rw [hnil] at hhead
    cases hhead
  · rcases h.head_eq hg (sameRow_equivalence.refl g.1) with ⟨first, hhead, hfind⟩
    rw [hhead, Option.getD_some]
    exact hbelow _ (mem_of_find?_eq_some hfind)

theorem mem_arrays (hfind : calls.find? (fun c => sameRow weights c.2) = some (first, ws)) :
    (Cpp.weightName first, .weights ws) ∈ s.declarations.arrays := by
  rw [arrays_declarations]
  rcases mem_map.1 (h.mem_declared hfind) with ⟨g, hg, heq⟩
  cases heq
  exact mem_map.2 ⟨g, hg, rfl⟩

theorem nodup_names (hterms : (calls.map Prod.fst).Nodup) :
    (s.declarations.arrays.map Prod.fst).Nodup := by
  have hnames := (h.nodup_declared hterms).map Cpp.weightName_injective
  rw [arrays_declarations, map_map]
  rwa [declared, map_map, map_map] at hnames

end Groups

/-- A store after some calls, if nothing was stored before. -/
def after (calls : List (Nat × List α)) : WeightStore α :=
  calls.foldl (fun s c => (s.register c.1 c.2).2) {}

theorem groups_after (calls : List (Nat × List α)) : (after calls).Groups calls := by
  induction calls using List.reverseRecOn with
  | nil => exact groups_empty
  | append_singleton calls c ih =>
    rw [after, foldl_append]
    exact ih.register c.1 c.2

end

end WeightStore

section

variable {α : Type} [Scalar α] {Q : List (List α) → Prop} {store store' : TableStore α}
  {scale : GeometryMonomial α} {coefficient : α} {stores stores' : Stores α}
  {calls calls' : List (Nat × List α)} {t : TermTables α} {x : Option (PointTerm α)} {y : Product α}

/-- A store from which another one comes by storing tables with a property. -/
abbrev TableStore.Leads (Q : List (List α) → Prop) : TableStore α → TableStore α → Prop :=
  Relation.ReflTransGen fun s s' => ∃ rows ref, Q rows ∧ s.register rows = .ok (ref, s')

/-- The name under which a table was stored, with whatever was stored behind it. -/
def TableStore.Took (Q : List (List α) → Prop) (s : TableStore α) (ref : TableRef)
    (rows : List (List α)) : Prop :=
  Q rows ∧ ∃ s₀ s₁ : TableStore α, s₀.register rows = .ok (ref, s₁) ∧ s₁.Leads Q s

/-- The tables of a factor with the offset of its entries, and the number of the chosen table. -/
abbrev Pick (α : Type) := (List (ScaledTable α) × Nat) × Nat

/-- A product of a choice of tables: the tables are stored with the offsets of their factors, and
    their geometry is multiplied with a scale from left to right. -/
structure Product.Made (Q : List (List α) → Prop) (store : TableStore α) (scale : GeometryMonomial α)
    (picks : List (Pick α)) (y : Product α) : Prop where
  tables : List.Forall₂ (fun t (z : Pick α) => ∃ s, z.1.1[z.2]? = some s ∧ t.offset = z.1.2 ∧
    store.Took Q t.table s.values) y.tables picks
  geometry : picks.foldlM (fun g z => do g.mul (← entryAt z.1.1 z.2).geometry) scale = .ok y.geometry

theorem Product.Made.mono {picks : List (Pick α)} (h : y.Made Q store scale picks)
    (hleads : store.Leads Q store') : y.Made Q store' scale picks := by
  refine ⟨h.tables.imp fun t z ht => ?_, h.geometry⟩
  rcases ht with ⟨s, hs, hoffset, hQ, s₀, s₁, hregister, hleads₁⟩
  exact ⟨s, hs, hoffset, hQ, s₀, s₁, hregister, hleads₁.trans hleads⟩

theorem storeProduct_made {factors : List (List (ScaledTable α) × Nat)} {choice : List Nat}
    (h : storeProduct scale factors store choice = .ok (y, store'))
    (hQ : ∀ x ∈ factors, ∀ s ∈ x.1, Q s.values) :
    y.Made Q store' scale (factors.zip choice) ∧ store.Leads Q store' := by
  rcases bind_eq_ok.1 h with ⟨result, hresult, hy⟩
  cases hy
  -- The product made so far is that of the picks in front.
  refine foldlM_along (P := fun picks (state : _ × _ × TableStore α) =>
    Product.Made Q state.2.2 scale picks ⟨state.1, state.2.1⟩ ∧ store.Leads Q state.2.2) hresult
      ⟨⟨.nil, rfl⟩, .refl⟩ ?_
  rintro picks z hz state _ ⟨hmade, hleads⟩ hstep
  rcases bind_eq_ok.1 hstep with ⟨s, hs, hstep⟩
  rcases bind_eq_ok.1 hstep with ⟨⟨table, store₁⟩, hregister, hstep⟩
  rcases bind_eq_ok.1 hstep with ⟨geometry, hmul, hstep⟩
  cases hstep
  have hget := entryAt_eq_ok.1 hs
  have htable := hQ z.1 (of_mem_zip (mem_of_getElem? hz)).1 s (mem_of_getElem? hget)
  have hone : state.2.2.Leads Q store₁ := .single ⟨_, _, htable, hregister⟩
  refine ⟨⟨rel_append (hmade.mono hone).tables
    (.cons ⟨s, hget, rfl, htable, _, _, hregister, .refl⟩ .nil), ?_⟩, hleads.trans hone⟩
  rw [foldlM_append]
  exact bind_eq_ok.2 ⟨_, hmade.geometry, foldlM_cons_eq_ok.2
    ⟨geometry, bind_eq_ok.2 ⟨s, hs, hmul⟩, rfl⟩⟩

/-- A term that was stored by one of the calls, with a product for every choice of a table for each
    factor. -/
structure PointTerm.Made (Q : List (List α) → Prop) (stores : Stores α)
    (calls : List (Nat × List α)) (coefficient : α) (t : TermTables α) (x : PointTerm α) : Prop where
  points : x.points = t.weights.length
  weights : ∃ before number, before ++ [(number, t.weights)] <+: calls ∧
    x.weights = ((WeightStore.after before).register number t.weights).1
  products : List.Forall₂ (fun choice (y : Product α) => y.Made Q stores.tables
    ((GeometryMonomial.ofSymbol .scale).scaled coefficient) (t.factors.zip choice))
    (Tuple.all (t.factors.map fun y => y.1.length)) x.products

/-- What is made of a term. A term with a factor that vanishes is left out. -/
def TermTables.MadeAs (Q : List (List α) → Prop) (stores : Stores α) (calls : List (Nat × List α))
    (coefficient : α) (t : TermTables α) : Option (PointTerm α) → Prop
  | none => ∃ y ∈ t.factors, y.1 = []
  | some x => x.Made Q stores calls coefficient t

theorem TermTables.MadeAs.mono (h : t.MadeAs Q stores calls coefficient x)
    (hcalls : calls <+: calls') (hleads : stores.tables.Leads Q stores'.tables) :
    t.MadeAs Q stores' calls' coefficient x := by
  cases x with
  | none => exact h
  | some x =>
    rcases h.weights with ⟨before, number, hbefore, hweights⟩
    exact ⟨h.points, ⟨before, number, hbefore.trans hcalls, hweights⟩,
      h.products.imp fun _ _ hy => hy.mono hleads⟩

/-- Storing a term makes a product for every choice of tables, unless a factor vanishes. -/
theorem storeTerm_made {number : Nat} (h : storeTerm stores number coefficient t = .ok (x, stores'))
    (hcalls : stores.weights = WeightStore.after calls)
    (hQ : ∀ y ∈ t.factors, ∀ s ∈ y.1, Q s.values) :
    ∃ calls', calls' = calls ++ x.toList.map (fun _ => (number, t.weights)) ∧
      stores'.weights = WeightStore.after calls' ∧ stores.tables.Leads Q stores'.tables ∧
      t.MadeAs Q stores' calls' coefficient x := by
  unfold storeTerm at h
  split at h
  · next hany =>
    cases h
    rcases any_eq_true.1 hany with ⟨y, hy, hempty⟩
    exact ⟨calls, (append_nil calls).symm, hcalls, .refl, y, hy, List.isEmpty_iff.1 hempty⟩
  · rcases bind_eq_ok.1 h with ⟨_, _, h⟩
    rcases bind_eq_ok.1 h with ⟨⟨products, tables⟩, hresult, h⟩
    cases h
    have hproducts := foldlM_along (P := fun choices (state : _ × TableStore α) =>
      stores.tables.Leads Q state.2 ∧ Forall₂ (fun choice (y : Product α) => y.Made Q state.2
        ((GeometryMonomial.ofSymbol .scale).scaled coefficient) (t.factors.zip choice)) choices
        state.1) hresult ⟨.refl, .nil⟩ fun choices choice _ state _ hstate hstep => ?_
    · refine ⟨_, rfl, ?_, hproducts.1, rfl, ⟨calls, number, List.prefix_refl _, ?_⟩, hproducts.2⟩
      · rw [WeightStore.after, foldl_append, hcalls]
        rfl
      · exact congrArg (fun s => (s.register number t.weights).1) hcalls
    · rcases bind_eq_ok.1 hstep with ⟨⟨y, store₁⟩, hy, hstep⟩
      cases hstep
      rcases storeProduct_made hy hQ with ⟨hmade, hleads⟩
      -- The products so far stay what they are in the store that the new one leaves.
      exact ⟨hstate.1.trans hleads, rel_append (hstate.2.imp fun _ _ h => h.mono hleads)
        (.cons hmade .nil)⟩

/-- What has been made of monomials, under increasing numbers: terms and stores. -/
def MadeTerms (Q : List (List α) → Prop) (s : Setting α) (f : Form α) (d : Dimensions)
    (facets : Facets) (ms : List (Monomial α)) (state : List (PointTerm α) × Stores α) : Prop :=
  ∃ (calls : List (Nat × List α)) (xs : List (TermTables α × Option (PointTerm α))),
    state.2.weights = WeightStore.after calls ∧
    (calls.map Prod.fst).Sublist (range ms.length) ∧
    TableStore.Leads Q ⟨1 ≤ s.options.optimisationLevel, [], []⟩ state.2.tables ∧
    List.Forall₂ (fun m x => quadratureTerm s f d m facets = .ok x.1 ∧
      x.1.MadeAs Q state.2 calls m.coefficient x.2) ms xs ∧
    state.1 = xs.flatMap fun x => x.2.toList

theorem storeTerms_made {s : Setting α} {f : Form α} {d : Dimensions} {facets : Facets}
    {ms : List (Monomial α)} {state : List (PointTerm α) × Stores α}
    (h : storeTerms s f d facets ms = .ok state)
    (hQ : ∀ m ∈ ms, ∀ t, quadratureTerm s f d m facets = .ok t →
      ∀ y ∈ t.factors, ∀ s ∈ y.1, Q s.values) : MadeTerms Q s f d facets ms state := by
  refine foldlM_zipIdx_along h ⟨[], [], rfl, .slnil, .refl, .nil, rfl⟩ ?_
  rintro ms m hm state _ ⟨calls, xs, hweights, hnumbers, hleads, hxs, hterms⟩ hstep
  rcases bind_eq_ok.1 hstep with ⟨t, ht, hstep⟩
  rcases bind_eq_ok.1 hstep with ⟨⟨x, stores₁⟩, hx, hstep⟩
  cases hstep
  rcases storeTerm_made (lift_fault_eq_ok.1 hx) hweights (hQ m hm t ht) with
    ⟨calls', hcalls, hweights', hone, hmade⟩
  refine ⟨calls', xs ++ [(t, x)], hweights', ?_, hleads.trans hone, rel_append
    (hxs.imp fun _ _ h => ⟨h.1, h.2.mono (hcalls ▸ List.prefix_append _ _) hone⟩)
    (.cons ⟨ht, hmade⟩ .nil), ?_⟩
  · rw [hcalls, map_append, length_append, length_singleton, range_succ]
    refine hnumbers.append ?_
    cases x with
    | none => exact nil_sublist _
    | some x => exact .refl _
  · rw [flatMap_append, flatMap_singleton, hterms]

theorem exists_made {s : Setting α} {f : Form α} {d : Dimensions} {facets : Facets}
    {ms : List (Monomial α)} {xs : List (TermTables α × Option (PointTerm α))}
    (hxs : Forall₂ (fun m x => quadratureTerm s f d m facets = .ok x.1 ∧
      x.1.MadeAs Q stores calls m.coefficient x.2) ms xs) :
    ∀ x ∈ xs.flatMap fun x => x.2.toList, ∃ m ∈ ms, ∃ t, quadratureTerm s f d m facets = .ok t ∧
      x.Made Q stores calls m.coefficient t := by
  intro x hx
  rcases mem_flatMap.1 hx with ⟨y, hy, hx⟩
  rcases forall₂_mem hxs.flip hy with ⟨m, hm, ht, hmade⟩
  rw [Option.mem_toList] at hx
  rw [hx] at hmade
  exact ⟨m, hm, y.1, ht, hmade⟩

end

section

variable {α : Type} [Scalar α] [LawfulKeys α] {s s' : TableStore α}

theorem TableStore.Leads.keeps (h : s.Leads TableStore.Rectangular s') :
    s.Grows s' ∧ s'.compress = s.compress ∧ (s.Sharp → s'.Sharp) := by
  induction h with
  | refl => exact ⟨.refl s, rfl, id⟩
  | tail _ hstep ih =>
    rcases hstep with ⟨rows, ref, hrows, hregister⟩
    rcases register_keeps hrows hregister with ⟨_, hgrows, hcompress, hsharp⟩
    exact ⟨ih.1.trans hgrows, hcompress.trans ih.2.1, hsharp ∘ ih.2.2⟩

theorem TableStore.Took.keeps {ref : TableRef} {rows : List (List α)}
    (h : s.Took TableStore.Rectangular ref rows) : s.Keeps ref rows := by
  rcases h with ⟨hrows, s₀, s₁, hregister, hleads⟩
  exact (register_keeps hrows hregister).1.mono hleads.keeps.1 hleads.keeps.2.1

/-- Weights that were stored are found under the first call with them. -/
theorem PointTerm.Made.find?_weights {Q : List (List α) → Prop} {stores : Stores α}
    {calls : List (Nat × List α)} {coefficient : α} {t : TermTables α} {x : PointTerm α}
    (h : x.Made Q stores calls coefficient t) :
    ∃ ws, calls.find? (fun c => sameRow t.weights c.2) = some (x.weights, ws) := by
  rcases h.weights with ⟨before, number, hbefore, hweights⟩
  rcases (WeightStore.groups_after before).find?_register number t.weights with ⟨ws, hfind⟩
  rw [← hweights] at hfind
  exact ⟨ws, hbefore.find?_eq_some hfind⟩

end

end WeakForm
