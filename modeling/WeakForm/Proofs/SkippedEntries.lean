import WeakForm.Proofs.Doubles
import WeakForm.Proofs.OperationCounts

/-!
# Entries that are skipped

Small entries of reference tensors are skipped in three places: when the sums of the
element tensor are written, when an element tensor is evaluated, and when operations
are counted. The first place skips an entry whose magnitude is at most tiny, the others
take it if its magnitude exceeds the tiny ones. For doubles the two tests differ in one
case. A non-number is neither at most tiny nor above, so it is written, but it is not
added when evaluating and not counted either. Infinities and zeros of both signs are
treated alike everywhere.

## Theorems

* `ElementTensor.isAdded_eq`: An entry is added if it is written and a number.
* `ElementTensor.entries_skipped`: What is written, added and counted of an element tensor.
-/

namespace WeakForm

open List Success

section

open Float.Model

/-- Numbers are compared both ways alike. -/
theorem compare_then_swap (m m' : Nat) (e e' : Int) :
    (compare e' e).then (compare m' m) = ((compare e e').then (compare m m')).swap := by
  rw [Ordering.swap_then, ← Std.OrientedCmp.eq_swap, ← Std.OrientedCmp.eq_swap]

theorem not_le_eq (a : UnpackedFloat) {b : UnpackedFloat} (hb : b.isNaN = false) :
    (!a.le b) = (b.lt a || a.isNaN) := by
  rcases a with (_ | _) | _ | (_ | _) | ⟨_ | _, m, e, hm⟩ <;>
    rcases b with (_ | _) | _ | (_ | _) | ⟨_ | _, m', e', hm'⟩
  -- Only finite numbers of one sign need a comparison.
  case finite.negative.finite.negative =>
    change (!((compare e e').then (compare m m')).swap.isLE) =
      (some ((compare e' e).then (compare m' m)).swap == some .lt || false)
    rw [compare_then_swap m m' e e']
    cases (compare e e').then (compare m m') <;> rfl
  case finite.positive.finite.positive =>
    change (!((compare e e').then (compare m m')).isLE) =
      (some ((compare e' e).then (compare m' m)) == some .lt || false)
    rw [compare_then_swap m m' e e']
    cases (compare e e').then (compare m m') <;> rfl
  all_goals first
    | rfl
    | cases hb

end

namespace ElementTensor

theorem isAdded_eq (x : Float) : isAdded x = (isWritten x && !x.isNaN) := by
  have hle : Scalar.le (Scalar.abs x) Scalar.tiny =
      x.abs.toModel.unpack.le (Scalar.tiny : Float).toModel.unpack :=
    Bool.eq_iff_iff.2 (decide_eq_true_iff.trans decide_eq_true_iff)
  have hlt : Scalar.lt Scalar.tiny (Scalar.abs x) =
      (Scalar.tiny : Float).toModel.unpack.lt x.abs.toModel.unpack :=
    Bool.eq_iff_iff.2 (decide_eq_true_iff.trans decide_eq_true_iff)
  have htiny : (Scalar.tiny : Float).toModel.unpack.isNaN = false := by decide +kernel
  rw [isAdded, isWritten, hle, not_le_eq _ htiny, hlt, Decimal.unpack_abs]
  change _ = (_ && !x.toModel.unpack.isNaN)
  generalize x.toModel.unpack = u
  cases u with
  | notANumber => rfl
  | infinity s | zero s | finite s m e hm =>
    change _ = ((_ || false) && true)
    rw [Bool.or_false, Bool.and_true]

section

variable {α : Type} [Scalar α]

theorem names_sumExpr (entries : List (Nat × List Nat × α)) :
    (sumExpr entries).names = entries.map fun y => (y.1, y.2.1) := by
  cases entries with
  | nil => rfl
  | cons y rest =>
    refine sumExpr_along (P := fun done e => e.names = done.map fun y => (y.1, y.2.1))
      (fun _ => rfl) (fun done y e he => ?_) (fun done y e he => ?_) y rest
    · rw [map_append, ← he]
      rfl
    · rw [map_append, ← he]
      rfl

theorem selected_and (test test' : α → Bool) (terms : List (TensorTerm α)) (i : List Nat) :
    selected (fun x => test x && test' x) terms i =
      (selected test terms i).filter fun y => test' y.2.2 := by
  unfold selected
  rw [filter_flatMap]
  refine flatMap_congr fun x _ => ?_
  rw [filter_filterMap]
  refine filterMap_congr fun a _ => ?_
  cases htest : test (x.1.reference.entry i a) with
  | false => simp [htest]
  | true => simp [htest, Option.filter]

end

variable {terms : List (TensorTerm Float)} {kind : Integral} {domain : Nat} {style : Style Float}
  {tensor : ElementTensor Float}

/-- The declarations, the values and the operations of an element tensor of doubles. The sum that is
    declared for a primary tuple names the written entries. Evaluating adds, and the compiler counts,
    those of them that are numbers. -/
theorem entries_skipped (h : of terms kind domain style = .ok tensor)
    (hdims : ∀ t ∈ terms, t.reference.a.dims = t.geometry.a.dims) :
    (∀ i, selected isAdded terms i = (selected isWritten terms i).filter fun y => !y.2.2.isNaN) ∧
    ∀ primary, ElementTensor.primary terms = some primary →
      List.Forall₂ (fun i d => ∃ e : Expr (Nat × List Nat) Float, ∃ sum,
        e.names = (selected isWritten terms i.1).map (fun y => (y.1, y.2.1)) ∧
        (e.mapNames fun n => style.geometryName n.1 n.2) = .ok sum ∧
        d.value = sum.text style.operators id style.number) primary.tuples.zipIdx tensor.element ∧
      (∀ (v : Symbol → Float) (value : Nat × List Nat → Float),
        (∀ j t, terms[j]? = some t → ∀ a m, t.geometry.entry a = .ok m → value (j, a) = m.value v) →
        tensor.evaluate v = .ok (primary.tuples.map fun i => (selected isAdded terms i).foldl
          (fun acc y => acc + y.2.2 * value (y.1, y.2.1)) 0)) ∧
      ∀ s dims c, Contraction.code s dims terms = .ok c →
        ∃ entries, Contraction.geometryEntries terms = .ok entries ∧
          c.operations = (entries.map fun x => x.2.2.operations).sum +
            (primary.tuples.map fun i => 2 * (selected isAdded terms i).length).sum := by
  rcases of_iff.1 h with ⟨hprimaries, -, -, helement, rfl, -⟩
  have hadded : (isAdded : Float → Bool) = fun x => isWritten x && !x.isNaN := funext isAdded_eq
  refine ⟨fun i => hadded ▸ selected_and isWritten _ tensor.terms i, fun primary hprimary =>
    ⟨?_, fun v value hvalue => ?_, fun s dims c hc => ?_⟩⟩
  · rw [elementDeclarations, hprimary] at helement
    refine (mapM_eq_ok.1 helement).imp fun i d hd => ?_
    rcases bind_eq_ok.1 hd with ⟨sum, hsum, hd⟩
    rcases bind_eq_ok.1 hd with ⟨name, _, hd⟩
    rw [← pure_eq_ok.1 hd]
    exact ⟨_, sum, names_sumExpr _, hsum, rfl⟩
  · refine evaluate_eq_selected hprimary hdims fun j t ht => ?_
    rcases (of_eq_ok h).2 t (mem_of_getElem? ht) with ⟨entries, hentries⟩
    refine ⟨entries, hentries, fun y hy => ?_⟩
    rcases forall₂_mem (mapM_eq_ok.1 hentries).flip hy with ⟨a, _, hy⟩
    rcases bind_eq_ok.1 hy with ⟨m, hm, hy⟩
    cases hy
    exact hvalue j t ht a m hm
  · rcases Contraction.code_eq_ok hc with ⟨entries, hentries, _, hoperations, _⟩
    refine ⟨entries, hentries, ?_⟩
    rcases Option.map_eq_some_iff.1 hprimary with ⟨first, hfirst, rfl⟩
    rw [hoperations, Contraction.sum_addedCount fun t ht =>
      hprimaries t ht first (mem_of_mem_head? hfirst)]

/-- One term with one basis function, whose reference tensor holds a non-number. -/
def nonNumberTerms : List (TensorTerm Float) :=
  [⟨⟨⟨[.primary 0], [1]⟩, ⟨[], []⟩, #[0.0 / 0.0]⟩, ⟨⟨[], []⟩, 1.0, [.scale]⟩⟩]

/-- A non-number is written, but it is not added. -/
theorem entries_skipped_nonNumber : ∃ tensor,
    of nonNumberTerms .cell 0 (Cpp.style fun _ => "") = .ok tensor ∧
    (selected isWritten nonNumberTerms [0]).length = 1 ∧ selected isAdded nonNumberTerms [0] = [] ∧
    tensor.evaluate (fun _ => 1.0) = .ok [0] := by
  rcases exists_of_isOk (x := of nonNumberTerms .cell 0 (Cpp.style fun _ => "")) (by decide +kernel)
    with ⟨tensor, h⟩
  have hadded : selected isAdded nonNumberTerms [0] = [] :=
    List.isEmpty_iff.1 (by decide +kernel)
  rcases (entries_skipped h (by decide)).2 _ rfl with ⟨_, hevaluate, _⟩
  refine ⟨tensor, h, by decide +kernel, hadded, (hevaluate _ (fun n => match nonNumberTerms[n.1]? with
    | some t => match t.geometry.entry n.2 with
      | .ok m => m.value fun _ => 1.0
      | .error _ => 0
    | none => 0) fun j t ht a m hm => ?_).trans ?_⟩
  · simp only [ht, hm]
  · change Except.ok [(selected isAdded nonNumberTerms [0]).foldl _ 0] = _
    rw [hadded]
    rfl

end ElementTensor

end WeakForm
