import WeakForm.Proofs.CaseSymbols

/-!
# Sharing of weights

Terms with equal weights are declared one array, which is named after the first of
them. A comment above the declaration says which terms these are. This module follows
a store of weights through all of its calls and says what its declarations and
comments hold then. A name is a term, so names tell weights apart only if no term is
stored twice.

## Main definitions

* `WeightStore.registerAll`: A store after each of many calls.

## Theorems

* `Text.numbers_comment`: The terms of a comment can be read back.
* `WeightStore.Groups.registerAll`: What all calls keep.
* `WeightStore.history_shares`: Terms share a name exactly if their weights are equal.
-/

namespace WeakForm

open List Success

namespace Text

def numberOf (word : String) : Option Nat :=
  if word.toList.all Char.isDigit then some (Nat.ofDigitChars 10 word.toList 0) else none

def numbers (s : String) : List Nat := (words s).filterMap numberOf

theorem numbers_intercalate (separator : String) (h : Expr.isSeparator separator = true)
    (ss : List String) : numbers (separator.intercalate ss) = ss.flatMap numbers := by
  induction ss with
  | nil => rfl
  | cons s ss ih =>
    cases ss with
    | nil => rw [String.intercalate_singleton, flatMap_singleton]
    | cons t ss =>
      rw [String.intercalate_cons_cons, numbers, Expr.words_between separator h,
        filterMap_append, flatMap_cons, ← ih]
      rfl

theorem numbers_append_of_opens {s t : String} (h : opens t = true) :
    numbers (s ++ t) = numbers s ++ numbers t := by
  rw [numbers, words_append_of_opens h, filterMap_append]
  rfl

theorem numbers_append_of_closes {s t : String} (h : closes s = true) :
    numbers (s ++ t) = numbers s ++ numbers t := by
  rw [numbers, words_append_of_closes h, filterMap_append]
  rfl

theorem numbers_toString (n : Nat) : numbers (toString n) = [n] := by
  have hdigits : (toString n).toList.all Char.isDigit = true := by
    rw [all_eq_true, Nat.toString_eq_repr, Nat.toList_repr]
    exact fun c hc => Nat.isDigit_of_mem_toDigits (by decide) (by decide) hc
  have hvalue : Nat.ofDigitChars 10 (toString n).toList 0 = n := by
    rw [Nat.toString_eq_repr, Nat.toList_repr, Nat.ofDigitChars_ten_toDigits]
  rw [numbers, words_of_oneWord (oneWord_toString n), filterMap_cons_some, filterMap_nil]
  rw [numberOf, if_pos hdigits, hvalue]

theorem numbers_termTuple (terms : List Nat) : numbers (termTuple terms) = terms := by
  unfold termTuple
  split
  · next n =>
    change numbers ("(" ++ toString n ++ ",)") = [n]
    rw [numbers_append_of_opens (by decide), numbers_append_of_closes (by decide), numbers_toString]
    rfl
  · have hnumbers : (terms.map toString).flatMap numbers = terms := by
      rw [flatMap_map, flatMap_congr fun n _ => numbers_toString n]
      exact flatMap_singleton' terms
    rw [numbers_append_of_opens (by decide), numbers_append_of_closes (by decide),
      numbers_intercalate ", " (by decide), hnumbers]
    exact append_nil terms

theorem numbers_comment (terms : List Nat) : numbers (WeightStore.comment terms) = terms := by
  unfold WeightStore.comment
  split
  · next n =>
    have hfront : numbers "Array of quadrature weights (tensor/monomial term " = [] := by decide +kernel
    change numbers ("Array of quadrature weights (tensor/monomial term " ++ toString n ++ ")") = [n]
    rw [numbers_append_of_opens (by decide), numbers_append_of_closes (by decide), numbers_toString,
      hfront]
    rfl
  · have hfront : numbers "Array of quadrature weights (tensor/monomial terms " = [] := by decide +kernel
    rw [numbers_append_of_opens (by decide), numbers_append_of_closes (by decide),
      numbers_termTuple, hfront]
    exact append_nil terms

end Text

namespace WeightStore

section

variable {α : Type} [Scalar α] {s : WeightStore α}

/-- Stores the weights of terms one after the other. Every result comes with the store as it is
    then. -/
def registerAll (s : WeightStore α) : List (Nat × List α) → List (Nat × WeightStore α)
  | [] => []
  | (term, weights) :: rest =>
    s.register term weights :: (s.register term weights).2.registerAll rest

/-- What each of many calls returns, with the store as it is then, if nothing was stored before. -/
def history (calls : List (Nat × List α)) : List (Nat × WeightStore α) :=
  ({} : WeightStore α).registerAll calls

omit [Scalar α] in
theorem notes_declarations (s : WeightStore α) :
    s.declarations.notes = s.groups.map fun g => comment g.2 := by
  rw [declarations, Code.notes, Code.notes_all, flatMap_map, map_eq_flatMap]
  rfl

variable [LawfulKeys α] {weights : List α} {calls : List (Nat × List α)}

theorem Groups.registerAll (h : s.Groups calls) {rest : List (Nat × List α)} {j : Nat}
    {y : Nat × WeightStore α} (hy : (s.registerAll rest)[j]? = some y) :
    y.2.Groups (calls ++ rest.take (j + 1)) ∧ ∃ c ws, rest[j]? = some c ∧
      (calls ++ rest.take (j + 1)).find? (fun c' => sameRow c.2 c'.2) = some (y.1, ws) := by
  -- The calls that were made are those in front, so each step moves one call over to them.
  induction rest generalizing s calls j with
  | nil => exact absurd hy (by simp [WeightStore.registerAll])
  | cons c rest ih =>
    rcases c with ⟨term, weights⟩
    rw [WeightStore.registerAll] at hy
    cases j with
    | zero =>
      rw [getElem?_cons_zero, Option.some.injEq] at hy
      rcases h.find?_register term weights with ⟨ws, hfind⟩
      rw [← hy]
      exact ⟨h.register term weights, _, ws, rfl, hfind⟩
    | succ j =>
      rw [getElem?_cons_succ] at hy
      have hrest := ih (h.register term weights) hy
      rwa [append_assoc, singleton_append, ← take_succ_cons] at hrest

omit [LawfulKeys α] in
theorem length_registerAll (s : WeightStore α) (calls : List (Nat × List α)) :
    (s.registerAll calls).length = calls.length := by
  induction calls generalizing s with
  | nil => rfl
  | cons c calls ih => exact congrArg (· + 1) (ih _)

/-- A call hands out the first term with its weights, also when all calls are made. -/
theorem find?_history {i term name : Nat} (hcall : calls[i]? = some (term, weights))
    (hstep : (history calls)[i]? = some (name, s)) :
    ∃ ws, (calls.take (i + 1)).find? (fun c => sameRow weights c.2) = some (name, ws) ∧
      calls.find? (fun c => sameRow weights c.2) = some (name, ws) := by
  rcases (Groups.registerAll groups_empty hstep).2 with ⟨c, ws, hc, hfind⟩
  rw [hcall, Option.some.injEq] at hc
  rw [← hc, nil_append] at hfind
  exact ⟨ws, hfind, (List.take_prefix _ _).find?_eq_some hfind⟩

theorem get_of_find?_take {β : Type} {p : β → Bool} {xs : List β} {n : Nat} {x : β}
    (h : (xs.take (n + 1)).find? p = some x) :
    ∃ k ≤ n, xs[k]? = some x ∧ ∀ l < k, ∀ y ∈ xs[l]?, p y = false := by
  rcases find?_eq_some_iff_getElem.1 h with ⟨_, k, hk, hget, hfirst⟩
  have hlt := hk
  rw [length_take] at hlt
  rw [getElem_take] at hget
  refine ⟨k, by omega, ?_, fun l hl y hy => ?_⟩
  · rw [← hget]
    exact getElem?_eq_getElem _
  · have hfalse := hfirst l hl
    rcases List.getElem?_eq_some_iff.1 hy with ⟨_, hy⟩
    rwa [getElem_take, hy, Bool.not_eq_true'] at hfalse

omit [Scalar α] [LawfulKeys α] in
theorem numbers_notes (s : WeightStore α) :
    s.declarations.notes.map Text.numbers = s.groups.map Prod.snd := by
  rw [notes_declarations, map_map]
  exact map_congr_left fun g _ => Text.numbers_comment g.2

/-- Weights that are stored one after the other are declared once, under the first term with equal
    weights, and the comments list all terms. -/
theorem history_shares {calls : List (Nat × List α)} (hterms : (calls.map Prod.fst).Nodup) :
    (history calls).length = calls.length ∧
    (∀ (i term : Nat) (weights : List α) (name : Nat) (s : WeightStore α),
      calls[i]? = some (term, weights) → (history calls)[i]? = some (name, s) →
      (∃ ws, (∃ k ≤ i, calls[k]? = some (name, ws) ∧ sameRow weights ws = true ∧
          ∀ l < k, ∀ c ∈ calls[l]?, sameRow weights c.2 = false) ∧
        ∀ (j name' : Nat) (s' : WeightStore α), i ≤ j → (history calls)[j]? = some (name', s') →
          (Cpp.weightName name, .weights ws) ∈ s'.declarations.arrays) ∧
      ∀ (j term' : Nat) (weights' : List α) (name' : Nat) (s' : WeightStore α),
        calls[j]? = some (term', weights') → (history calls)[j]? = some (name', s') →
        (Cpp.weightName name = Cpp.weightName name' ↔ sameRow weights weights' = true)) ∧
    ∀ (j name : Nat) (s : WeightStore α), (history calls)[j]? = some (name, s) →
      (s.declarations.arrays.map Prod.fst).Nodup ∧
      (s.declarations.notes.flatMap Text.numbers).Perm ((calls.take (j + 1)).map Prod.fst) ∧
      List.Forall₂ (fun note array => ∃ ws, array.2 = .weights ws ∧
        Text.numbers note = sharers (calls.take (j + 1)) ws) s.declarations.notes
        s.declarations.arrays := by
  refine ⟨length_registerAll _ calls, ?_, ?_⟩
  · intro i term weights name s hcall hstep
    rcases find?_history hcall hstep with ⟨ws, htake, hfind⟩
    have hsame : sameRow weights ws = true := by simpa using List.find?_some hfind
    refine ⟨⟨ws, ?_, fun j name' s' hle hstep' => ?_⟩, ?_⟩
    · rcases get_of_find?_take htake with ⟨k, hk, hget, hfirst⟩
      exact ⟨k, hk, hget, hsame, hfirst⟩
    · -- The first call with these weights is still the first one among more calls.
      have hgroups := (Groups.registerAll groups_empty hstep').1
      rw [List.nil_append] at hgroups
      refine hgroups.mem_arrays (List.IsPrefix.find?_eq_some ?_ htake)
      exact List.take_prefix_take_left (Nat.succ_le_succ hle)
    · intro j term' weights' name' s' hcall' hstep'
      rcases find?_history hcall' hstep' with ⟨ws', _, hfind'⟩
      have hsame' : sameRow weights' ws' = true := by simpa using List.find?_some hfind'
      rw [Cpp.weightName_injective.eq_iff]
      constructor
      · rintro rfl
        rw [Groups.eq_of_first hterms hfind hfind'] at hsame
        exact sameRow_equivalence.trans hsame (sameRow_equivalence.symm hsame')
      · intro hboth
        rw [sameRow_congr hboth, hfind', Option.some.injEq, Prod.mk.injEq] at hfind
        exact hfind.1.symm
  · intro j name s hstep
    have hgroups := (Groups.registerAll groups_empty hstep).1
    rw [List.nil_append] at hgroups
    have hsome : ((calls.take (j + 1)).map Prod.fst).Nodup :=
      hterms.sublist ((List.take_sublist _ _).map _)
    refine ⟨hgroups.nodup_names hsome, ?_, ?_⟩
    · rw [List.flatMap_def, numbers_notes, ← List.flatMap_def]
      exact hgroups.perm
    · rw [notes_declarations, arrays_declarations, List.forall₂_map_left_iff,
        List.forall₂_map_right_iff, List.forall₂_same]
      intro g hg
      exact ⟨g.1, rfl, by rw [Text.numbers_comment, hgroups.terms g hg]⟩

end

/-- Weights of three terms, of which the first and the last are equal up to the sign of a zero. -/
def signedZeroCalls : List (Nat × List Float) :=
  [(3, [0.0, 0.0 / 0.0]), (7, [1.0]), (5, [-0.0, 0.0 / 0.0])]

/-- The first and the last term share a name, and every term is listed in the end. -/
theorem history_shares_signedZeroCalls :
    (signedZeroCalls.map Prod.fst).Nodup ∧ ∃ x y z, history signedZeroCalls = [x, y, z] ∧
      Cpp.weightName x.1 = Cpp.weightName z.1 ∧ Cpp.weightName x.1 ≠ Cpp.weightName y.1 ∧
      (∃ ws, (Cpp.weightName z.1, .weights ws) ∈ z.2.declarations.arrays) ∧
      (z.2.declarations.arrays.map Prod.fst).Nodup ∧
      (z.2.declarations.notes.flatMap Text.numbers).Perm [3, 7, 5] := by
  have hterms : (signedZeroCalls.map Prod.fst).Nodup := by decide
  rcases history_shares hterms with ⟨hlength, hcalls, hstores⟩
  rcases List.length_eq_three.1 hlength with ⟨x, y, z, hsteps⟩
  rw [hsteps] at hcalls hstores
  have hx := (hcalls 0 _ _ x.1 x.2 rfl rfl).2
  rcases (hcalls 2 _ _ z.1 z.2 rfl rfl).1 with ⟨ws, _, hdeclared⟩
  have hz := hstores 2 z.1 z.2 rfl
  refine ⟨hterms, x, y, z, hsteps, (hx 2 _ _ z.1 z.2 rfl rfl).2 (by decide), ?_,
    ⟨ws, hdeclared 2 z.1 z.2 le_rfl rfl⟩, hz.1, hz.2.1⟩
  rw [Ne, hx 1 _ _ y.1 y.2 rfl rfl]
  decide

end WeightStore

end WeakForm
