import Mathlib.Algebra.Order.BigOperators.Group.List
import WeakForm.Proofs.Exponents
import WeakForm.Proofs.QuadratureCode

/-!
# The text of a contraction

The tensor representation writes two lists of declarations. The first one names the
entries of the geometry tensors and gives each of them a product of symbols; the
second one gives each entry of the element tensor a sum of numbers times such names.
Whoever reads the second list looks names up in the first one. That this computes the
contraction is the content of this module: names are declared once, what is read is
what `evaluate` computes, and that differs from the whole contraction by no more than
the entries that were left out can contribute.

A geometry entry is computed as a list of powers, in which symbols cancel. Its value is
compared with the product of the values of its factors, `GeometryTensor.valueAt`, in
which nothing cancels, so the values of the symbols may not be zero.

Only the first summand of an entry is written with the sign of its number. A negative
literal is no word of the language but a sign in front of a word, so the text of a sum
is also the text of another expression, whose literals are not negative.

## Main definitions

* `GeometryTensor.Writable`: Indices of one digit and exponents that fit their word.
* `ElementTensor.contraction`, `ElementTensor.dropped`: What is computed, and what is left out.

## Theorems

* `Cpp.geometryName_injective`: Different entries have different names.
* `ElementTensor.read_element`: The declarations of an element tensor compute the contraction.
-/

namespace WeakForm

open List Success GeometryMonomial Cpp GeometryFactor

variable {K : Type} [Field K]

variable {a : List Nat} {m : MultiIndex}

namespace Index

def valueIn (a : List Nat) (offset : Nat) : Index → Nat
  | fixed value => value
  | primary _ => 0
  | secondary id => a[id - offset]?.getD 0

/-- A fixed index below ten, or a secondary index of a multi-index with at most ten values. -/
def OneDigit (m : MultiIndex) : Index → Prop
  | fixed value => value < 10
  | primary _ => False
  | secondary id => ∃ k dim, id = m.offset + k ∧ m.dims[k]? = some dim ∧ dim ≤ 10

theorem resolve_eq_ok {i : Index} (h : i.OneDigit m) (ha : a ∈ m.tuples) :
    i.resolve [] a m.offset = .ok (i.valueIn a m.offset) ∧ i.valueIn a m.offset < 10 := by
  cases i with
  | fixed value => exact ⟨rfl, h⟩
  | primary id => exact h.elim
  | secondary id =>
    rcases h with ⟨k, dim, rfl, hk, hdim⟩
    rcases forall₂_get (Tuple.mem_all_iff.1 ha).flip hk with ⟨x, hx, hlt⟩
    have hsub : m.offset + k - m.offset = k := Nat.add_sub_cancel_left _ _
    have hvalue : valueIn a m.offset (secondary (m.offset + k)) = x := by
      rw [valueIn, hsub, hx, Option.getD_some]
    refine ⟨?_, by rw [hvalue]; omega⟩
    rw [hvalue, resolve, Size.sub, if_pos (Nat.le_add_right _ _), hsub]
    exact entryAt_eq_ok.2 hx

end Index

namespace GeometryFactor

/-- The power of a symbol that a factor stands for, for a secondary tuple. -/
def power (a : List Nat) (offset : Nat) : GeometryFactor → Symbol × Int
  | scale => (.scale, 1)
  | determinant exponent => (.determinant none, exponent)
  | jacobian row col => (.jacobian none (row.valueIn a offset) (col.valueIn a offset), 1)
  | inverse row col => (.inverse none (row.valueIn a offset) (col.valueIn a offset), 1)

def exponent (a : List Nat) (offset : Nat) (s : Symbol) (f : GeometryFactor) : Int :=
  if s = (f.power a offset).1 then (f.power a offset).2 else 0

def OneDigit (m : MultiIndex) : GeometryFactor → Prop
  | jacobian row col | inverse row col => row.OneDigit m ∧ col.OneDigit m
  | _ => True

theorem monomial_eq_ok {α : Type} [Scalar α] {f : GeometryFactor} (h : f.OneDigit m)
    (ha : a ∈ m.tuples) :
    (f.monomial a m.offset : Checked (GeometryMonomial α)) =
        .ok (.power (f.power a m.offset).1 (f.power a m.offset).2) ∧
      (f.power a m.offset).1.OneDigit := by
  cases f with
  | scale | determinant exponent => exact ⟨rfl, trivial⟩
  | jacobian row col | inverse row col =>
    rcases Index.resolve_eq_ok h.1 ha with ⟨hrow, hrow'⟩
    rcases Index.resolve_eq_ok h.2 ha with ⟨hcol, hcol'⟩
    refine ⟨?_, hrow', hcol'⟩
    rw [monomial, hrow, hcol]
    rfl

end GeometryFactor

namespace GeometryTensor

/-- A tensor whose factors have rows and columns of one digit, and whose exponents fit their word
    while the factors are multiplied from left to right. -/
structure Writable {α : Type} (t : GeometryTensor α) : Prop where
  indices : ∀ f ∈ t.factors, f.OneDigit t.a
  exponents : ∀ a ∈ t.a.tuples, ∀ s k,
    Powers.fits ((t.factors.take k).map (GeometryFactor.exponent a t.a.offset s)).sum = true

variable {fs : List GeometryFactor}

/-- Exponents fit their word if their magnitudes add up to less than its bound. -/
theorem fits_of_sum_natAbs_lt {offset : Nat}
    (h : (fs.map fun f => (f.power a offset).2.natAbs).sum < 2147483648) (s : Symbol) (k : Nat) :
    Powers.fits ((fs.take k).map (exponent a offset s)).sum = true := by
  have hbound : ∀ fs : List GeometryFactor, (fs.map (exponent a offset s)).sum.natAbs ≤
      (fs.map fun f => (f.power a offset).2.natAbs).sum := by
    intro fs
    induction fs with
    | nil => exact le_rfl
    | cons f fs ih =>
      have hfirst : (f.exponent a offset s).natAbs ≤ (f.power a offset).2.natAbs := by
        unfold exponent
        split
        · exact le_rfl
        · exact Nat.zero_le _
      simp only [map_cons, sum_cons]
      exact (Int.natAbs_add_le _ _).trans (Nat.add_le_add hfirst ih)
  have htake : ((fs.take k).map fun f => (f.power a offset).2.natAbs).sum ≤
      (fs.map fun f => (f.power a offset).2.natAbs).sum :=
    ((take_sublist k fs).map _).sum_le_sum fun _ _ => Nat.zero_le _
  have hsum := hbound (fs.take k)
  rw [Powers.fits, Bool.and_eq_true, decide_eq_true_iff, decide_eq_true_iff]
  omega

/-- The product of the coefficient and the values of the factors, for a secondary tuple. -/
def valueAt (v : Symbol → K) (t : GeometryTensor K) (a : List Nat) : K :=
  t.coefficient * (t.factors.map fun f =>
    v (f.power a t.a.offset).1 ^ (f.power a t.a.offset).2).prod

variable [LinearOrder K] [Root K]

theorem foldlM_factors (ha : a ∈ m.tuples) (hfs : ∀ f ∈ fs, f.OneDigit m) {p : GeometryMonomial K}
    (hp : p.powers.Canonical) (hover : p.powers.Over Symbol.OneDigit)
    (hfits : ∀ s k, Powers.fits (p.powers.exponent s +
      ((fs.take k).map (exponent a m.offset s)).sum) = true) :
    ∃ q, fs.foldlM (fun product factor => do product.mul (← factor.monomial a m.offset)) p = .ok q ∧
      q.coefficient = p.coefficient ∧ q.powers.Over Symbol.OneDigit ∧
      ∀ v : Symbol → K, (∀ s, v s ≠ 0) → q.value v = p.value v * (fs.map fun f =>
        v (f.power a m.offset).1 ^ (f.power a m.offset).2).prod := by
  induction fs generalizing p with
  | nil =>
    refine ⟨p, rfl, rfl, hover, fun v _ => ?_⟩
    rw [map_nil, prod_nil, mul_one]
  | cons f fs ih =>
    rw [forall_mem_cons] at hfs
    rcases monomial_eq_ok (α := K) hfs.1 ha with ⟨hmonomial, hdigit⟩
    -- The factor only touches the exponent of its own symbol.
    have hfirst : Powers.fits (p.powers.exponent (f.power a m.offset).1 +
        (f.power a m.offset).2) = true := by
      have hone := hfits (f.power a m.offset).1 1
      rwa [take_succ_cons, take_zero, map_cons, map_nil, sum_cons, sum_nil, add_zero, exponent,
        if_pos rfl] at hone
    rcases mul_power hp hfirst with ⟨q, hq, hcanonical, hcoefficient, hexponent⟩
    have hrest : ∀ s k, Powers.fits (q.powers.exponent s +
        ((fs.take k).map (exponent a m.offset s)).sum) = true := by
      intro s k
      have hsucc := hfits s (k + 1)
      rw [take_succ_cons, map_cons, sum_cons, ← add_assoc] at hsucc
      rw [hexponent]
      exact hsucc
    have hover' : q.powers.Over Symbol.OneDigit := by
      rcases bind_eq_ok.1 hq with ⟨powers, hpowers, hq'⟩
      cases hq'
      exact Powers.over_mul hpowers hover (over_power hdigit _)
    rcases ih hfs.2 hcanonical hover' hrest with ⟨r, hr, hr', hrover, hvalue⟩
    refine ⟨r, foldlM_cons_eq_ok.2 ⟨q, ?_, hr⟩, ?_, hrover, fun v hv => ?_⟩
    · exact bind_eq_ok.2 ⟨_, hmonomial, hq⟩
    · rw [hr', hcoefficient, mul_one]
    · rw [hvalue v hv, value_mul hq hv, value_power, map_cons, prod_cons, mul_assoc]

/-- The product of symbols for a secondary tuple, if it exists. -/
def product (t : GeometryTensor K) (a : List Nat) : GeometryMonomial K :=
  match t.entry a with
  | .ok m => m
  | .error _ => .constant 0

variable {t : GeometryTensor K}

/-- The entries of a writable tensor exist, with the coefficient of the tensor and symbols of one
    digit, and their values are the products of the values of the factors. -/
theorem entry_eq_ok (h : t.Writable) (ha : a ∈ t.a.tuples) :
    t.entry a = .ok (t.product a) ∧ (t.product a).coefficient = t.coefficient ∧
      (t.product a).powers.Over Symbol.OneDigit ∧
      ∀ v : Symbol → K, (∀ s, v s ≠ 0) → (t.product a).value v = t.valueAt v a := by
  have hfits : ∀ s k, Powers.fits ((GeometryMonomial.constant t.coefficient).powers.exponent s +
      ((t.factors.take k).map (exponent a t.a.offset s)).sum) = true := by
    intro s k
    change Powers.fits (0 + _) = true
    rw [zero_add]
    exact h.exponents a ha s k
  rcases foldlM_factors (p := GeometryMonomial.constant t.coefficient) ha h.indices
    Powers.canonical_nil nofun hfits with ⟨m, hm, hspec⟩
  have hentry : t.entry a = .ok m := hm
  have hproduct : t.product a = m := by rw [product, hentry]
  rw [hproduct]
  exact ⟨hentry, hspec⟩

theorem entries_eq_ok (h : t.Writable) :
    t.entries = .ok (t.a.tuples.map fun a => (a, t.product a)) :=
  mapM_eq_ok_map fun _ ha => bind_eq_ok.2 ⟨_, (entry_eq_ok h ha).1, rfl⟩

end GeometryTensor

namespace Cpp

theorem toList_geometryName (j : Nat) (a : List Nat) :
    (geometryName j a).toList = 'G' :: ['_'].intercalate ((j :: a).map (Nat.toDigits 10)) := by
  have hdigits : ∀ ns : List Nat, (ns.map toString).map String.toList = ns.map (Nat.toDigits 10) := by
    intro ns
    rw [map_map]
    exact map_congr_left fun n _ => Nat.toList_repr
  unfold geometryName
  cases a with
  | nil =>
    rw [if_pos (by rfl), map_cons, map_nil, intercalate_singleton, ← Nat.toList_repr]
    simp only [Nat.toString_eq_repr, String.toList_append]
    rfl
  | cons x a =>
    have hjoined : (joined (x :: a)).toList =
        ['_'].intercalate ((x :: a).map (Nat.toDigits 10)) := by
      rw [joined, String.toList_intercalate, hdigits]
      rfl
    have hsplit : ['_'].intercalate ((j :: x :: a).map (Nat.toDigits 10)) =
        Nat.toDigits 10 j ++ ['_'] ++ ['_'].intercalate ((x :: a).map (Nat.toDigits 10)) :=
      intercalate_cons_cons
    rw [if_neg (by simp), String.toList_append, hjoined, hsplit, ← Nat.toList_repr]
    simp only [Nat.toString_eq_repr, String.toList_append, append_assoc]
    rfl

theorem geometryName_injective {j j' : Nat} {a' : List Nat}
    (h : geometryName j a = geometryName j' a') : j = j' ∧ a = a' := by
  have hcharacters := congrArg String.toList h
  rw [toList_geometryName, toList_geometryName, cons_inj_right] at hcharacters
  exact cons.inj (intercalate_toDigits_injective rfl (cons_ne_nil _ _) (cons_ne_nil _ _) hcharacters)

theorem isWord_geometryName (j : Nat) (a : List Nat) : isWord (geometryName j a).toList = true := by
  rw [toList_geometryName]
  refine isWord_of_isPlain (cons_ne_nil _ _) (forall_mem_cons.2 ⟨by decide, ?_⟩)
  refine forall_mem_intercalate (all_eq_true.1 rfl) (forall_mem_map.2 fun n _ => ?_)
  exact fun c hc => isPlain_of_isDigit (Nat.isDigit_of_mem_toDigits (by decide) (by decide) hc)

end Cpp

namespace Expr

variable {ν μ α : Type}

theorem mapNames_ok (g : ν → μ) (e : Expr ν α) :
    e.mapNames (fun n => .ok (g n)) = .ok (e.rename g) := by
  induction e with
  | literal x => rfl
  | name n => rfl
  | neg a ih | sqrt a ih | abs a ih | group a ih =>
    rw [mapNames, ih]
    rfl
  | add a b iha ihb | sub a b iha ihb | mul a b iha ihb | div a b iha ihb =>
    rw [mapNames, iha, ihb]
    rfl

theorem text_rename (op : Operators) (g : ν → String) (number : α → String) (e : Expr ν α) :
    (e.rename g).text op id number = e.text op g number := by
  induction e with
  | literal x => rfl
  | name n => rfl
  | neg a ih | sqrt a ih | abs a ih | group a ih => rw [rename, text, text, ih]
  | add a b iha ihb | sub a b iha ihb | mul a b iha ihb | div a b iha ihb =>
    rw [rename, text, text, iha, ihb]

end Expr

section

variable [LinearOrder K] [Root K]

namespace ElementTensor

variable (terms : List (TensorTerm K)) (number : K → String)

def primaryTuples (terms : List (TensorTerm K)) : List (List Nat) :=
  ((primary terms).map MultiIndex.tuples).getD []

/-- The declarations of the geometry, with the products of symbols as values. -/
def declaredGeometry (number : K → String) (terms : List (TensorTerm K)) : List Declaration :=
  terms.zipIdx.flatMap fun x => x.1.geometry.a.tuples.map fun a => ⟨Cpp.geometryName x.2 a,
    (x.1.geometry.product a).toExpr.text Cpp.operators Cpp.symbol number⟩

theorem geometryDeclarations_eq_ok {terms : List (TensorTerm K)}
    (h : ∀ t ∈ terms, t.geometry.Writable) :
    geometryDeclarations terms (style number) = .ok (declaredGeometry number terms) := by
  unfold geometryDeclarations declaredGeometry
  refine bind_eq_ok.2 ⟨_, mapM_eq_ok_map fun x hx => ?_, congrArg Except.ok flatMap_def.symm⟩
  have hwritable := h x.1 (fst_mem_of_mem_zipIdx hx)
  refine bind_eq_ok.2 ⟨_, GeometryTensor.entries_eq_ok hwritable, ?_⟩
  rw [mapM_eq_ok, forall₂_map_left_iff, forall₂_map_right_iff]
  refine forall₂_same.2 fun a _ => ?_
  refine bind_eq_ok.2 ⟨_, rfl, bind_eq_ok.2 ⟨_, ?_, rfl⟩⟩
  refine bind_eq_ok.2 ⟨_, Expr.mapNames_ok symbol _, ?_⟩
  rw [pure_eq_ok, Expr.text_rename]
  rfl

theorem elementDeclarations_eq_ok : elementDeclarations terms (style number) =
      .ok ((primaryTuples terms).zipIdx.map fun x =>
        ⟨Cpp.element (toString x.2), (sumExpr (contributions terms x.1)).text operators
          (fun n => geometryName n.1 n.2) number⟩) := by
  unfold elementDeclarations primaryTuples
  cases primary terms with
  | none => rfl
  | some i =>
    refine mapM_eq_ok_map fun x _ => ?_
    refine bind_eq_ok.2 ⟨_, Expr.mapNames_ok
      (fun n : Nat × List Nat => geometryName n.1 n.2) _, ?_⟩
    refine bind_eq_ok.2 ⟨_, rfl, ?_⟩
    rw [pure_eq_ok, Expr.text_rename]
    rfl

theorem referenceDeclarations_eq_ok : referenceDeclarations terms (style number) =
      .ok (terms.zipIdx.map fun x => x.1.reference.i.tuples.map fun i =>
        x.1.reference.a.tuples.map fun a => Declaration.mk (referenceName x.2 i a)
          (number (x.1.reference.entry i a))).flatten.flatten := by
  refine bind_eq_ok.2 ⟨_, mapM_eq_ok_map fun x _ => ?_, rfl⟩
  exact mapM_eq_ok_map fun i _ => mapM_eq_ok_map fun a _ => bind_eq_ok.2 ⟨_, rfl, rfl⟩

end ElementTensor

end

theorem ElementTensor.of_declarations {α : Type} [Scalar α] {terms : List (TensorTerm α)}
    {style : Style α} {reference geometry element : List Declaration}
    (hdims : ∀ t ∈ terms, ∀ u ∈ terms, t.reference.i.dims = u.reference.i.dims)
    (hreference : referenceDeclarations terms style = .ok reference)
    (hgeometry : geometryDeclarations terms style = .ok geometry)
    (helement : elementDeclarations terms style = .ok element) (integral : Integral) (domain : Nat) :
    of terms integral domain style = .ok ⟨terms, integral, domain, reference, geometry, element⟩ :=
  of_iff.2 ⟨hdims, hreference, hgeometry, helement, rfl, rfl, rfl⟩

section

variable [LinearOrder K] [IsStrictOrderedRing K] [Root K]
variable {number : K → String} {numbers : AddSubgroup K} {literal : List Char → Option K}

theorem GeometryMonomial.read_toExpr (hnumber : Legible number numbers literal)
    {m : GeometryMonomial K} (hover : m.powers.Over Symbol.OneDigit)
    (hcoefficient : m.coefficient ∈ numbers) (v : Symbol → K) :
    read (Cpp.words v literal) (m.toExpr.text operators symbol number) = some (m.value v) := by
  have hread := GeometrySum.read_toExpr hnumber (s := ⟨[m]⟩)
    (fun t ht => mem_singleton.1 ht ▸ ⟨hover, hcoefficient⟩) v
  rwa [GeometrySum.value_eq_total, GeometrySum.total, map_cons, map_nil, sum_singleton] at hread

end

section

/-- Terms over one secondary range whose geometry can be written and whose numbers have
    literals. -/
structure TensorTerm.Writable (numbers : AddSubgroup K) (t : TensorTerm K) : Prop where
  dims : t.reference.a.dims = t.geometry.a.dims
  geometry : t.geometry.Writable
  coefficient : t.geometry.coefficient ∈ numbers
  values : ∀ x ∈ t.reference.values, x ∈ numbers

theorem TensorTerm.Writable.entry_mem [LinearOrder K] [Root K] {numbers : AddSubgroup K}
    {t : TensorTerm K} (h : t.Writable numbers) (i a : List Nat) :
    t.reference.entry i a ∈ numbers := by
  have hget : ∀ n : Nat, t.reference.values[n]?.getD 0 ∈ numbers := by
    intro n
    rcases hn : t.reference.values[n]? with _ | x
    · exact numbers.zero_mem
    · exact h.values x (Array.mem_of_getElem? hn)
  exact hget _

end

variable {v : Symbol → K} {w : List Char}

namespace Declaration

variable {literal : List Char → Option K}

/-- The values of words behind declarations: a declared name has the value of the text it is
    declared with, all else is a literal. -/
def words (v : Symbol → K) (literal : List Char → Option K) (ds : List Declaration)
    (w : List Char) : Option K :=
  match ds.find? fun d => d.name.toList = w with
  | some d => Cpp.read (Cpp.words v literal) d.value
  | none => literal w

variable {ds : List Declaration}

theorem words_of_mem (hnodup : (ds.map name).Nodup) {d : Declaration} (hd : d ∈ ds) :
    words v literal ds d.name.toList = read (Cpp.words v literal) d.value := by
  have hfind : ds.find? (fun e => e.name.toList = d.name.toList) = some d := by
    induction ds with
    | nil => cases hd
    | cons e ds ih =>
      rw [map_cons, nodup_cons] at hnodup
      rcases mem_cons.1 hd with rfl | hmem
      · exact find?_cons_of_pos (by simp)
      · have hne : e.name.toList ≠ d.name.toList := fun heq =>
          hnodup.1 (String.toList_inj.1 heq ▸ mem_map_of_mem hmem)
        rw [find?_cons_of_neg (by simpa using hne)]
        exact ih hnodup.2 hmem
  rw [words, hfind]

theorem words_of_not_mem (h : ∀ d ∈ ds, d.name.toList ≠ w) : words v literal ds w = literal w := by
  have hfind : ds.find? (fun d => d.name.toList = w) = none :=
    find?_eq_none.2 fun d hd => by simpa using h d hd
  rw [words, hfind]

end Declaration

section

theorem sum_filterMap {β γ : Type} (c : β → Bool) (f : β → γ) (g : γ → K) (xs : List β) :
    ((xs.filterMap fun x => if c x then some (f x) else none).map g).sum =
      (xs.map fun x => if c x then g (f x) else 0).sum := by
  rw [sum_map_filterMap]
  refine congrArg List.sum (map_congr_left fun x _ => ?_)
  split <;> rfl

end

theorem mapM_map_eq_some {β γ δ : Type} {d : β → γ} {f : γ → Option δ} {g : β → δ} {xs : List β}
    (h : ∀ x ∈ xs, f (d x) = some (g x)) : (xs.map d).mapM f = some (xs.map g) := by
  induction xs with
  | nil => rfl
  | cons x xs ih =>
    rw [forall_mem_cons] at h
    rw [map_cons, mapM_cons, h.1, ih h.2]
    rfl

namespace ElementTensor

variable {y : Nat × List Nat × K} {nameText : Nat × List Nat → String}

section

variable [LinearOrder K] [Root K] {terms : List (TensorTerm K)}

/-- Puts a summand behind a sum, with the sign of its number as operator. -/
def addSummand (e : Expr (Nat × List Nat) K) (y : Nat × List Nat × K) : Expr (Nat × List Nat) K :=
  if Scalar.lt y.2.2 0 then e - .literal (-y.2.2) * .name (y.1, y.2.1)
  else e + .literal y.2.2 * .name (y.1, y.2.1)

/-- A summand with the sign of its number in front. -/
def signedSummand (y : Nat × List Nat × K) : Expr (Nat × List Nat) K :=
  if y.2.2 < 0 then -(.literal (-y.2.2) * .name (y.1, y.2.1))
  else .literal y.2.2 * .name (y.1, y.2.1)

theorem sumExpr_cons (y : Nat × List Nat × K) (rest : List (Nat × List Nat × K)) :
    sumExpr (y :: rest) = rest.foldl addSummand (.literal y.2.2 * .name (y.1, y.2.1)) := rfl

variable {number : K → String}

theorem text_sumExpr {numbers : AddSubgroup K}
    (hsigned : ∀ x ∈ numbers, x < 0 → number x = "-" ++ number (-x)) (hy : y.2.2 ∈ numbers)
    (rest : List (Nat × List Nat × K)) :
    (sumExpr (y :: rest)).text operators nameText number =
      (rest.foldl addSummand (signedSummand y)).text operators nameText number := by
  have hfirst : (Expr.literal y.2.2 * .name (y.1, y.2.1)).text operators nameText number =
      (signedSummand y).text operators nameText number := by
    unfold signedSummand
    split
    · next hneg =>
      change number y.2.2 ++ _ ++ _ = "-" ++ (number (-y.2.2) ++ _ ++ _)
      rw [hsigned _ hy hneg, String.append_assoc, String.append_assoc, String.append_assoc]
    · rfl
  rw [sumExpr_cons]
  -- The texts of the further summands are put behind the text of the first one.
  revert hfirst
  generalize Expr.literal y.2.2 * Expr.name (y.1, y.2.1) = e
  generalize signedSummand y = e'
  intro htext
  induction rest generalizing e e' with
  | nil => exact htext
  | cons z rest ih =>
    refine ih _ _ ?_
    unfold addSummand
    split
    · change e.text _ _ _ ++ _ ++ _ = e'.text _ _ _ ++ _ ++ _
      rw [htext]
    · change e.text _ _ _ ++ _ ++ _ = e'.text _ _ _ ++ _ ++ _
      rw [htext]

def geometryValue (v : Symbol → K) (terms : List (TensorTerm K)) (n : Nat × List Nat) : K :=
  (terms[n.1]?.map fun t => t.geometry.valueAt v n.2).getD 0

/-- The contraction of reference and geometry tensors for a primary tuple. -/
def contraction (v : Symbol → K) (terms : List (TensorTerm K)) (i : List Nat) : K :=
  (terms.map fun t => (t.geometry.a.tuples.map fun a =>
    t.reference.entry i a * t.geometry.valueAt v a).sum).sum

/-- The part of the contraction that is written. -/
def kept (v : Symbol → K) (terms : List (TensorTerm K)) (i : List Nat) : K :=
  (terms.map fun t => (t.geometry.a.tuples.map fun a =>
    if Scalar.tiny < |t.reference.entry i a| then t.reference.entry i a * t.geometry.valueAt v a
    else 0).sum).sum

/-- The magnitudes of the geometry entries whose reference entries are left out. -/
def dropped (v : Symbol → K) (terms : List (TensorTerm K)) (i : List Nat) : K :=
  (terms.map fun t => ((t.geometry.a.tuples.filter fun a =>
    |t.reference.entry i a| ≤ Scalar.tiny).map fun a => |t.geometry.valueAt v a|).sum).sum

theorem evaluate_eq_ok {tensor : ElementTensor K} (h : ∀ t ∈ tensor.terms, t.geometry.Writable)
    (hv : ∀ s, v s ≠ 0) :
    tensor.evaluate v = .ok ((primaryTuples tensor.terms).map (kept v tensor.terms)) := by
  unfold evaluate primaryTuples
  cases primary tensor.terms with
  | none => rfl
  | some i =>
    have hgeometry : tensor.terms.mapM (fun term => do
        return (term.reference, (← term.geometry.entries).map fun x => (x.1, x.2.value v))) =
          (.ok (tensor.terms.map fun t => (t.reference, t.geometry.a.tuples.map fun a =>
            (a, t.geometry.valueAt v a))) : Checked _) := by
      refine mapM_eq_ok_map fun t ht => ?_
      refine bind_eq_ok.2 ⟨_, GeometryTensor.entries_eq_ok (h t ht), ?_⟩
      rw [pure_eq_ok, map_map]
      refine congrArg (Prod.mk t.reference) (map_congr_left fun a ha => ?_)
      exact congrArg (Prod.mk a) ((GeometryTensor.entry_eq_ok (h t ht) ha).2.2.2 v hv)
    refine bind_eq_ok.2 ⟨_, hgeometry, congrArg Except.ok (map_congr_left fun it _ => ?_)⟩
    unfold kept
    rw [foldl_map, ← zero_add (List.sum _), ← Scalar.foldl_add_eq_sum]
    refine foldl_ext _ _ _ fun acc t _ => ?_
    dsimp only
    rw [foldl_map, ← Scalar.foldl_add_eq_sum]
    refine foldl_ext _ _ _ fun acc a _ => ?_
    simp only [isAdded, Scalar.lt_eq_true, Scalar.abs_eq_abs]
    split
    · rfl
    · rw [add_zero]

theorem mem_contributions {i : List Nat} (h : y ∈ contributions terms i) :
    ∃ t, terms[y.1]? = some t ∧ y.2.1 ∈ t.reference.a.tuples ∧
      y.2.2 = t.reference.entry i y.2.1 := by
  rcases mem_flatMap.1 h with ⟨⟨t, j⟩, hx, hy⟩
  rcases mem_filterMap.1 hy with ⟨a, ha, hsome⟩
  have ht : terms[j]? = some t := mk_mem_zipIdx_iff_getElem?.1 hx
  simp only at hsome
  split at hsome
  · cases hsome
    exact ⟨t, ht, ha, rfl⟩
  · cases hsome

/-- The summands that are written add up to the part of the contraction that is written. -/
theorem sum_contributions (hdims : ∀ t ∈ terms, t.reference.a.dims = t.geometry.a.dims)
    (v : Symbol → K) (i : List Nat) :
    ((contributions terms i).map fun y => y.2.2 * geometryValue v terms (y.1, y.2.1)).sum =
      kept v terms i := by
  have hterm : ∀ x ∈ terms.zipIdx,
      ((x.1.reference.a.tuples.filterMap fun a => if isWritten (x.1.reference.entry i a) then
        some (x.2, a, x.1.reference.entry i a) else none).map fun y : Nat × List Nat × K =>
          y.2.2 * geometryValue v terms (y.1, y.2.1)).sum =
      (x.1.geometry.a.tuples.map fun a => if Scalar.tiny < |x.1.reference.entry i a| then
        x.1.reference.entry i a * x.1.geometry.valueAt v a else 0).sum := by
    intro x hx
    have ht : terms[x.2]? = some x.1 := mem_zipIdx_iff_getElem?.1 hx
    have htuples : x.1.reference.a.tuples = x.1.geometry.a.tuples :=
      congrArg Tuple.all (hdims x.1 (mem_of_getElem? ht))
    rw [sum_filterMap, htuples]
    refine congrArg List.sum (map_congr_left fun a _ => ?_)
    have hwritten : isWritten (x.1.reference.entry i a) = true ↔
        Scalar.tiny < |x.1.reference.entry i a| := by
      rw [isWritten, Bool.not_eq_true', ← Bool.not_eq_true, Scalar.le_eq_true, Scalar.abs_eq_abs,
        not_le]
    simp only [hwritten, geometryValue, ht, Option.map_some, Option.getD_some]
  calc ((contributions terms i).map fun y => y.2.2 * geometryValue v terms (y.1, y.2.1)).sum
      = (terms.zipIdx.map fun x => (x.1.geometry.a.tuples.map fun a =>
          if Scalar.tiny < |x.1.reference.entry i a| then
            x.1.reference.entry i a * x.1.geometry.valueAt v a else 0).sum).sum := by
        rw [contributions, Tuple.sum_flatMap, map_congr_left hterm]
    _ = kept v terms i := by
        unfold kept
        conv_rhs => rw [← zipIdx_map_fst 0 terms, map_map]
        rfl

theorem nodup_declaredGeometry (number : K → String) (terms : List (TensorTerm K)) :
    ((declaredGeometry number terms).map Declaration.name).Nodup := by
  have hnames : (declaredGeometry number terms).map Declaration.name =
      (numbered terms fun t => t.geometry.a.tuples).map fun n => geometryName n.1 n.2 := by
    rw [declaredGeometry, numbered, map_flatMap, map_flatMap]
    simp only [map_map, Function.comp_def]
  rw [hnames]
  refine (nodup_numbered fun t => Tuple.nodup_all _).map ?_
  rintro ⟨j, a⟩ ⟨j', a'⟩ h
  rcases geometryName_injective h with ⟨rfl, rfl⟩
  rfl

theorem words_literal {literal : List Char → Option K} (v : Symbol → K)
    (terms : List (TensorTerm K)) (hw : startsWithDigit w = true) :
    Declaration.words v literal (declaredGeometry number terms) w = literal w := by
  refine Declaration.words_of_not_mem fun d hd heq => ?_
  rcases mem_flatMap.1 hd with ⟨x, _, hx⟩
  rcases mem_map.1 hx with ⟨a, _, rfl⟩
  rw [← heq, toList_geometryName] at hw
  exact absurd hw (by simp [startsWithDigit])

end

section

variable [LinearOrder K] [IsStrictOrderedRing K] [Root K]
variable {number : K → String} {numbers : AddSubgroup K} {literal : List Char → Option K}
  {V : Nat × List Nat → K} {terms : List (TensorTerm K)}

variable {P : Nat × List Nat → Prop}

omit [IsStrictOrderedRing K] in
theorem denotes_summand {n : Nat × List Nat} {x : K} (hx : x ∈ numbers ∧ 0 ≤ x) (hn : P n) :
    Expr.Denotes id V P (fun x => x ∈ numbers ∧ 0 ≤ x) (.literal x * .name n) 1 (x * V n) :=
  ((Expr.Denotes.literal (f := id) (y := x) hx).mono (Nat.zero_le 1)).mul (Expr.Denotes.name hn)

/-- A sum of numbers times names denotes the sum of the numbers times the values of the names. -/
theorem denotes_foldl_addSummand {rest : List (Nat × List Nat × K)}
    (hnames : ∀ y ∈ rest, P (y.1, y.2.1)) (hnumbers : ∀ y ∈ rest, y.2.2 ∈ numbers)
    {e : Expr (Nat × List Nat) K} {x : K}
    (he : Expr.Denotes id V P (fun x => x ∈ numbers ∧ 0 ≤ x) e 2 x) :
    Expr.Denotes id V P (fun x => x ∈ numbers ∧ 0 ≤ x) (rest.foldl addSummand e) 2
      (x + (rest.map fun y => y.2.2 * V (y.1, y.2.1)).sum) := by
  induction rest generalizing e x with
  | nil =>
    rw [map_nil, sum_nil, add_zero]
    exact he
  | cons y rest ih =>
    rw [forall_mem_cons] at hnames hnumbers
    rw [map_cons, sum_cons, ← add_assoc, foldl_cons]
    refine ih hnames.2 hnumbers.2 ?_
    unfold addSummand
    split
    · next hneg =>
      rw [Scalar.lt_eq_true] at hneg
      have hsummand := he.sub (denotes_summand
        ⟨numbers.neg_mem hnumbers.1, neg_nonneg.2 hneg.le⟩ hnames.1)
      rwa [neg_mul, sub_neg_eq_add] at hsummand
    · next hneg =>
      rw [Scalar.lt_eq_true, not_lt] at hneg
      exact he.add (denotes_summand ⟨hnumbers.1, hneg⟩ hnames.1)

theorem denotes_signedSummand (hname : P (y.1, y.2.1)) (hnumber : y.2.2 ∈ numbers) :
    Expr.Denotes id V P (fun x => x ∈ numbers ∧ 0 ≤ x) (signedSummand y) 2
      (y.2.2 * V (y.1, y.2.1)) := by
  unfold signedSummand
  split
  · next hneg =>
    have hsummand := (denotes_summand (V := V)
      ⟨numbers.neg_mem hnumber, neg_nonneg.2 hneg.le⟩ hname).neg
    rwa [neg_mul, neg_neg] at hsummand
  · next hneg =>
    exact (denotes_summand ⟨hnumber, not_lt.1 hneg⟩ hname).mono (Nat.le_succ 1)

/-- Reading the text of a sum of numbers times names gives the value of the sum. -/
theorem read_sumExpr (hnumber : Legible number numbers literal)
    (hsigned : ∀ x ∈ numbers, x < 0 → number x = "-" ++ number (-x))
    {entries : List (Nat × List Nat × K)} (hentries : ∀ y ∈ entries, y.2.2 ∈ numbers)
    {valueOf : List Char → Option K}
    (hnames : ∀ y ∈ entries, isWord (nameText (y.1, y.2.1)).toList = true ∧
      valueOf (nameText (y.1, y.2.1)).toList = some (V (y.1, y.2.1)))
    (hliterals : ∀ w, startsWithDigit w = true → valueOf w = literal w) :
    read valueOf ((sumExpr entries).text operators nameText number) =
      some (entries.map fun y => y.2.2 * V (y.1, y.2.1)).sum := by
  have hread : ∀ {e : Expr (Nat × List Nat) K} {x : K}, Expr.Denotes id V
      (fun n => isWord (nameText n).toList = true ∧ valueOf (nameText n).toList = some (V n))
      (fun x => x ∈ numbers ∧ 0 ≤ x) e 2 x →
      read valueOf (e.text operators nameText number) = some x := by
    intro e x he
    refine he.read (fun n hn => hn) fun y hy => ?_
    rcases he.literals y hy with ⟨hmem, hnonneg⟩
    refine ⟨hnumber.isWord y hmem hnonneg, ?_⟩
    rw [hliterals _ (hnumber.startsWithDigit y hmem hnonneg), hnumber.reads y hmem hnonneg, id]
  cases entries with
  | nil => exact hread ((Expr.Denotes.literal ⟨numbers.zero_mem, le_rfl⟩).mono (Nat.zero_le 2))
  | cons y rest =>
    rw [forall_mem_cons] at hentries hnames
    rw [text_sumExpr hsigned hentries.1 rest, map_cons, sum_cons]
    exact hread (denotes_foldl_addSummand hnames.2 hentries.2
      (denotes_signedSummand hnames.1 hentries.1))

theorem abs_sum_sub_sum_le {β : Type} {xs : List β} {f g h : β → K}
    (hle : ∀ x ∈ xs, |f x - g x| ≤ h x) : |(xs.map f).sum - (xs.map g).sum| ≤ (xs.map h).sum := by
  induction xs with
  | nil => simp
  | cons x xs ih =>
    rw [forall_mem_cons] at hle
    simp only [map_cons, sum_cons]
    rw [add_sub_add_comm]
    exact (abs_add_le _ _).trans (add_le_add hle.1 (ih hle.2))

/-- What is left out is at most the tiny number times the magnitudes of the geometry entries. -/
theorem abs_kept_sub_contraction_le (v : Symbol → K) (terms : List (TensorTerm K)) (i : List Nat) :
    |kept v terms i - contraction v terms i| ≤ Scalar.tiny * dropped v terms i := by
  unfold kept contraction dropped
  rw [← sum_map_mul_left]
  refine abs_sum_sub_sum_le fun t _ => ?_
  rw [← sum_map_mul_left]
  have hfilter : ((t.geometry.a.tuples.filter fun a => |t.reference.entry i a| ≤ Scalar.tiny).map
      fun a => Scalar.tiny * |t.geometry.valueAt v a|).sum =
        (t.geometry.a.tuples.map fun a => if |t.reference.entry i a| ≤ Scalar.tiny then
          Scalar.tiny * |t.geometry.valueAt v a| else 0).sum := sum_filter _ _ _
  rw [hfilter]
  refine abs_sum_sub_sum_le fun a _ => ?_
  by_cases htiny : |t.reference.entry i a| ≤ Scalar.tiny
  · rw [if_neg (not_lt.2 htiny), if_pos htiny, zero_sub, abs_neg, abs_mul]
    exact mul_le_mul_of_nonneg_right htiny (abs_nonneg _)
  · rw [if_pos (not_le.1 htiny), if_neg htiny, sub_self, abs_zero]

theorem words_geometryName (hnumber : Legible number numbers literal)
    (hterms : ∀ t ∈ terms, t.Writable numbers) (hv : ∀ s, v s ≠ 0) {j : Nat} {t : TensorTerm K}
    (ht : terms[j]? = some t) (ha : a ∈ t.geometry.a.tuples) :
    Declaration.words v literal (declaredGeometry number terms) (geometryName j a).toList =
      some (t.geometry.valueAt v a) := by
  have hwritable := hterms t (mem_of_getElem? ht)
  rcases GeometryTensor.entry_eq_ok hwritable.geometry ha with ⟨_, hcoefficient, hover, hvalue⟩
  have hmem : (⟨geometryName j a, (t.geometry.product a).toExpr.text operators symbol
      number⟩ : Declaration) ∈ declaredGeometry number terms :=
    mem_flatMap.2 ⟨(t, j), mk_mem_zipIdx_iff_getElem?.2 ht, mem_map_of_mem ha⟩
  have hread : Declaration.words v literal (declaredGeometry number terms)
      (geometryName j a).toList = read (Cpp.words v literal) _ :=
    Declaration.words_of_mem (nodup_declaredGeometry number terms) hmem
  rw [← hvalue v hv]
  exact hread.trans
    (read_toExpr hnumber hover (hcoefficient ▸ hwritable.coefficient) v)

/-- An entry of the element tensor, read with the geometry that is declared, is the part of the
    contraction that is written. -/
theorem read_entry (hnumber : Legible number numbers literal)
    (hsigned : ∀ x ∈ numbers, x < 0 → number x = "-" ++ number (-x))
    (hterms : ∀ t ∈ terms, t.Writable numbers) (hv : ∀ s, v s ≠ 0) (i : List Nat) :
    read (Declaration.words v literal (declaredGeometry number terms))
      ((sumExpr (contributions terms i)).text operators (fun n => geometryName n.1 n.2)
        number) = some (kept v terms i) := by
  rw [← sum_contributions (fun t ht => (hterms t ht).dims) v i]
  refine read_sumExpr hnumber hsigned (fun y hy => ?_) (fun y hy => ?_)
    fun w hw => words_literal v terms hw
  · rcases mem_contributions hy with ⟨t, ht, _, hentry⟩
    rw [hentry]
    exact (hterms t (mem_of_getElem? ht)).entry_mem i y.2.1
  · rcases mem_contributions hy with ⟨t, ht, ha, _⟩
    have hrange : y.2.1 ∈ t.geometry.a.tuples := by
      have hdims := (hterms t (mem_of_getElem? ht)).dims
      rwa [MultiIndex.tuples, hdims] at ha
    refine ⟨isWord_geometryName y.1 y.2.1, ?_⟩
    rw [words_geometryName hnumber hterms hv ht hrange, geometryValue, ht]
    rfl

/-- The declarations of terms compute their contraction. The element tensor exists, its entries are
    declared in order and those of the geometry tensors under different names. Reading the entries,
    with the geometry looked up in its declarations, gives what is evaluated, and that differs from
    the contraction by at most the tiny number times the geometry that was left out. -/
theorem read_element (hnumber : Legible number numbers literal)
    (hsigned : ∀ x ∈ numbers, x < 0 → number x = "-" ++ number (-x))
    {terms : List (TensorTerm K)}
    (hdims : ∀ t ∈ terms, ∀ u ∈ terms, t.reference.i.dims = u.reference.i.dims)
    (hterms : ∀ t ∈ terms, t.Writable numbers) (integral : Integral) (domain : Nat)
    {v : Symbol → K} (hv : ∀ s, v s ≠ 0) :
    ∃ tensor values, of terms integral domain (Cpp.style number) = .ok tensor ∧
      tensor.evaluate v = .ok values ∧
      (tensor.geometry.map Declaration.name).Nodup ∧
      tensor.element.map Declaration.name =
        (List.range (primaryTuples terms).length).map (fun k => "A[" ++ toString k ++ "]") ∧
      tensor.element.mapM (fun d =>
        Cpp.read (Declaration.words v literal tensor.geometry) d.value) = some values ∧
      ∀ (k : Nat) (i : List Nat), (primaryTuples terms)[k]? = some i → ∃ x, values[k]? = some x ∧
        |x - contraction v terms i| ≤ Scalar.tiny * dropped v terms i := by
  have hwritable : ∀ t ∈ terms, t.geometry.Writable := fun t ht => (hterms t ht).geometry
  have hgeometry := geometryDeclarations_eq_ok number hwritable
  have helement := elementDeclarations_eq_ok terms number
  have hof := of_declarations hdims (referenceDeclarations_eq_ok terms number) hgeometry helement
    integral domain
  refine ⟨_, _, hof, evaluate_eq_ok hwritable hv, nodup_declaredGeometry number terms, ?_, ?_, ?_⟩
  · rw [List.map_map, List.range_eq_range', ← List.zipIdx_map_snd, List.map_map]
    rfl
  · have hvalues : (primaryTuples terms).map (kept v terms) =
        (primaryTuples terms).zipIdx.map fun x => kept v terms x.1 := by
      conv_lhs => rw [← List.zipIdx_map_fst 0 (primaryTuples terms), List.map_map]
      rfl
    rw [hvalues]
    exact mapM_map_eq_some fun x _ => read_entry hnumber hsigned hterms hv x.1
  · intro k i hi
    refine ⟨kept v terms i, ?_, abs_kept_sub_contraction_le v terms i⟩
    rw [List.getElem?_map, hi, Option.map_some]

end

end ElementTensor

/-- Whole numbers with a sign in front of negative ones. -/
def signedText (x : ℚ) : String := if x < 0 then "-" ++ wholeText (-x) else wholeText x

theorem legible_signedText : Legible signedText (AddSubgroup.zmultiples 1) wholeLiteral := by
  have htext : ∀ x : ℚ, 0 ≤ x → signedText x = wholeText x := fun x hx => if_neg (not_lt.2 hx)
  refine ⟨legible_wholeText.one_mem, fun x hx hnonneg => ?_, fun x hx hnonneg => ?_,
    fun x hx hnonneg => ?_⟩
  · rw [htext x hnonneg]
    exact legible_wholeText.isWord x hx hnonneg
  · rw [htext x hnonneg]
    exact legible_wholeText.startsWithDigit x hx hnonneg
  · rw [htext x hnonneg]
    exact legible_wholeText.reads x hx hnonneg

/-- Two terms over two basis functions: a derivative with a determinant that cancels, and a product
    without derivatives. -/
def driftTerms : List (TensorTerm ℚ) :=
  [⟨⟨⟨[.primary 0], [2]⟩, ⟨[.secondary 0], [2]⟩, #[1, -2, 0, 3]⟩,
      ⟨⟨[.secondary 0], [2]⟩, 1,
        [.scale, .determinant 1, .inverse (.secondary 0) (.fixed 1), .determinant (-1)]⟩⟩,
    ⟨⟨⟨[.primary 0], [2]⟩, .empty, #[-1, 5]⟩, ⟨.empty, -3, [.scale]⟩⟩]

theorem writable_driftTerms : ∀ t ∈ driftTerms, t.Writable (AddSubgroup.zmultiples (1 : ℚ)) := by
  have hwhole : ∀ x : ℚ, (x.num : ℚ) = x → x ∈ AddSubgroup.zmultiples (1 : ℚ) := fun x hx =>
    AddSubgroup.mem_zmultiples_iff.2 ⟨x.num, (zsmul_one _).trans hx⟩
  refine forall_mem_cons.2 ⟨⟨rfl, ⟨?_, ?_⟩, hwhole _ (by decide), ?_⟩,
    forall_mem_singleton.2 ⟨rfl, ⟨?_, ?_⟩, hwhole _ (by decide), ?_⟩⟩
  · refine forall_mem_cons.2 ⟨trivial, forall_mem_cons.2 ⟨trivial,
      forall_mem_cons.2 ⟨⟨⟨0, 2, rfl, rfl, by decide⟩, ?_⟩, forall_mem_singleton.2 trivial⟩⟩⟩
    exact (by decide : 1 < 10)
  · exact fun a _ => GeometryTensor.fits_of_sum_natAbs_lt (by simp [GeometryFactor.power])
  · have hvalues : ∀ x ∈ (#[1, -2, 0, 3] : Array ℚ), (x.num : ℚ) = x := by decide
    exact fun x hx => hwhole x (hvalues x hx)
  · exact forall_mem_singleton.2 trivial
  · exact fun a _ => GeometryTensor.fits_of_sum_natAbs_lt (by simp [GeometryFactor.power])
  · have hvalues : ∀ x ∈ (#[-1, 5] : Array ℚ), (x.num : ℚ) = x := by decide
    exact fun x hx => hwhole x (hvalues x hx)

/-- Values of the symbols, none of them zero. -/
def driftValue : Symbol → ℚ
  | .scale => 5 / 2
  | .determinant _ => -2
  | .inverse _ row _ => if row = 0 then 3 else 7
  | _ => 1

/-- Numbers of both signs, entries that are left out and determinants that cancel. -/
theorem read_element_drift : ∃ tensor values,
    ElementTensor.of driftTerms .cell 0 (Cpp.style signedText) = .ok tensor ∧
      tensor.evaluate driftValue = .ok values ∧
      (tensor.geometry.map Declaration.name).Nodup ∧
      tensor.element.map Declaration.name = ["A[0]", "A[1]"] ∧
      tensor.element.mapM (fun d =>
        Cpp.read (Declaration.words driftValue wholeLiteral tensor.geometry) d.value) =
          some values ∧
      ∀ (k : Nat) (i : List Nat), (ElementTensor.primaryTuples driftTerms)[k]? = some i →
        ∃ x, values[k]? = some x ∧ |x - ElementTensor.contraction driftValue driftTerms i| ≤
          Scalar.tiny * ElementTensor.dropped driftValue driftTerms i := by
  have hv : ∀ s, driftValue s ≠ 0 := by
    intro s
    cases s with
    | inverse side row col =>
      change (if row = 0 then (3 : ℚ) else 7) ≠ 0
      split
      · decide
      · decide
    | jacobian side row col => exact one_ne_zero
    | determinant side => exact (by decide : (-2 : ℚ) ≠ 0)
    | scale => exact (by decide +kernel : (5 / 2 : ℚ) ≠ 0)
  have hsigned : ∀ x ∈ AddSubgroup.zmultiples (1 : ℚ), x < 0 →
      signedText x = "-" ++ signedText (-x) := by
    intro x _ hx
    rw [signedText, if_pos hx, signedText, if_neg (not_lt.2 (neg_nonneg.2 hx.le))]
  exact ElementTensor.read_element legible_signedText hsigned (by decide +kernel)
    writable_driftTerms .cell 0 hv

end WeakForm
