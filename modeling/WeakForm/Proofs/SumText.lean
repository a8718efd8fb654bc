import WeakForm.Proofs.Doubles
import WeakForm.Proofs.PassageRuns

/-!
# The text of geometry sums

The text of a sum is put together from parts: the magnitudes of the coefficients without
those that are one, the numerators, the denominators in a group of their own, and signs
that have become operators between the terms. Reading it with the precedence of the
operators gives the value of the sum back. For numbers of a field this is known from
reading; here the coefficients are doubles, and what is written are the shortest decimals
that stand for them.

The text of a double is chosen by looking at the double, the value of the text is one of
exact numbers. The two meet in `GeometrySum.read_map`: the text is read with each literal
taken for its exact value. It holds because the form of the text depends on little, on which
coefficients are negative and which have the magnitude one, and exact values agree with
doubles on these (`agrees_exactValue`).

Sums are stored by their text. A store holds no text twice, and a sum is given the number
of its own text, so that two sums have the same number if and only if they have the same
text. Having been read from one text, their values are the same.

## Theorems

* `GeometrySum.Writable.read_text`: Reading the text of a sum gives its exact value.
* `ConstantStore.registerAll_text`: What storing sums keeps.
* `GeometrySum.text_denotes`: The text of a sum denotes its value.
-/

namespace WeakForm

open List Success Cpp WeakForm.Expr Decimal

variable {α : Type}

/-! ## Reading the text of a sum -/

theorem Cpp.sum_eq_ok [Scalar α] (number : α → String) (s : GeometrySum α) :
    (style number).sum s = .ok (s.toExpr.text operators symbol number) := by
  refine bind_eq_ok.2 ⟨_, mapNames_ok symbol _, ?_⟩
  rw [pure_eq_ok, text_rename]
  rfl

section

variable {K : Type} [Field K] [LinearOrder K] [IsStrictOrderedRing K] [Root K]

theorem agrees_exactValue {x : Float} (h : x.isFinite = true) :
    Agrees (Decimal.exactValue : Float → K) x where
  lt_zero := by
    rw [Bool.eq_iff_iff, Scalar.lt_eq_true]
    exact (lt_zero_iff h).symm
  abs := by
    rw [Scalar.abs_eq_abs, ← exactValue_abs h]
    rfl
  eq_one := by
    rw [Bool.eq_iff_iff, Scalar.eq_eq_true]
    exact (eq_one_iff (isFinite_abs h)).symm

/-- Finite coefficients give literals: what is written is a magnitude, without a sign. -/
theorem GeometrySum.literal_number {s : GeometrySum Float}
    (h : ∀ t ∈ s.terms, t.coefficient.isFinite = true) : ∀ x ∈ s.toExpr.literals,
      isWord (number x).toList = true ∧ startsWithDigit (number x).toList = true := by
  refine (denotes_toExpr (f := (Decimal.exactValue : Float → ℚ)) (v := fun _ => 1)
    (P := fun _ => True) exactValue_zero ((eq_one_iff rfl).1 rfl)
    (fun t ht => agrees_exactValue (h t ht)) (fun _ _ _ _ => trivial)
    (Decimal.literal_number (m := 0) (e := -1074) rfl)
    (Decimal.literal_number (m := 2 ^ 52) (e := -52) rfl) fun t ht => ?_).literals
  rcases ofFloat_abs (h t ht) with ⟨m, e, hparts⟩
  exact Decimal.literal_number hparts

/-- Sums of doubles that can be written: over the symbols of a cell, with finite coefficients, and
    with literals that read back as the numbers they were written for. -/
structure GeometrySum.Writable (d : Dimensions) (literal : List Char → Option K)
    (s : GeometrySum Float) : Prop where
  within : ∀ t ∈ s.terms, t.powers.Over (Symbol.Within d)
  finite : ∀ t ∈ s.terms, t.coefficient.isFinite = true
  reads : ∀ x ∈ s.toExpr.literals,
    literal (Cpp.number x).toList = some (Decimal.exactValue x)

def GeometrySum.exactValue (s : GeometrySum Float) (v : Symbol → K) : K :=
  (s.map Decimal.exactValue).value v

namespace GeometrySum.Writable

variable {d : Dimensions} {literal : List Char → Option K} {s t : GeometrySum Float}

theorem read_text (h : s.Writable d literal) (v : Symbol → K) :
    read (Cpp.words v literal) (s.toExpr.text operators symbol number) = some (s.exactValue v) := by
  refine read_map exactValue_zero ((eq_one_iff rfl).1 rfl)
    (fun t ht => agrees_exactValue (h.finite t ht))
    (fun t ht x hx => (h.within t ht x hx).oneDigit) (fun x hx => ?_) v
  rcases literal_number h.finite x hx with ⟨hword, hdigit⟩
  exact ⟨hword, hdigit, h.reads x hx⟩

theorem exactValue_eq_of_text_eq (hs : s.Writable d literal) (ht : t.Writable d literal)
    (h : s.toExpr.text operators symbol number =
      t.toExpr.text operators symbol number) (v : Symbol → K) :
    s.exactValue v = t.exactValue v := by
  -- One text cannot be read in two ways.
  have hread := hs.read_text v
  rw [h, ht.read_text v, Option.some.injEq] at hread
  exact hread.symm

end GeometrySum.Writable

end

/-! ## Constants -/

namespace ConstantStore

def text? (store : ConstantStore α) (n : Nat) : Option String :=
  store.constants[n]?.map Prod.fst

/-- No two constants have the same text. -/
def Distinct (store : ConstantStore α) : Prop := (store.constants.map Prod.fst).Nodup

theorem text?_mono {store store' : ConstantStore α}
    (h : store.constants <+: store'.constants) {n : Nat} {text : String}
    (hn : store.text? n = some text) : store'.text? n = some text := by
  rcases Option.map_eq_some_iff.1 hn with ⟨c, hc, rfl⟩
  exact congrArg (Option.map Prod.fst) (prefix_get h hc)

theorem Distinct.text?_inj {store : ConstantStore α} (h : store.Distinct) {m n : Nat}
    {text : String} (hm : store.text? m = some text) (hn : store.text? n = some text) : m = n := by
  rw [text?, ← getElem?_map] at hm hn
  exact (getElem?_inj (List.getElem?_eq_some_iff.1 hm).1 h).1 (hm.trans hn.symm)

section

variable [Scalar α] (number : α → String) {store : ConstantStore α}

/-- Registers sums one after another, with the numbers of their constants. -/
def registerAll : ConstantStore α → List (GeometrySum α) → List Nat × ConstantStore α
  | store, [] => ([], store)
  | store, s :: ss =>
    let (n, store) := store.register number s
    let (ns, store) := registerAll store ss
    (n :: ns, store)

/-- A registered sum is given a constant with its text, and the store grows. -/
theorem register_text (h : store.Distinct) (s : GeometrySum α) :
    (store.register number s).2.Distinct ∧
      store.constants <+: (store.register number s).2.constants ∧
      (store.register number s).2.text? (store.register number s).1 =
        some (s.toExpr.text operators symbol number) := by
  unfold register
  simp only
  split
  -- A text that is there already is found, a new one is put at the end.
  · next k hk =>
    rcases get_of_findIdx? hk with ⟨c, hc, htext⟩
    refine ⟨h, List.prefix_refl _, ?_⟩
    rw [text?, hc, ← beq_iff_eq.1 htext]
    rfl
  · next hnone =>
    refine ⟨?_, List.prefix_append _ _, ?_⟩
    · rw [findIdx?_eq_none_iff] at hnone
      rw [Distinct, map_append, map_singleton]
      refine nodup_append.2 ⟨h, nodup_singleton _, fun a ha b hb => ?_⟩
      rcases mem_map.1 ha with ⟨c, hc, rfl⟩
      rw [mem_singleton.1 hb]
      exact beq_eq_false_iff_ne.1 (hnone c hc)
    · rw [text?, getElem?_concat_length]
      rfl

theorem registerAll_text (h : store.Distinct) (ss : List (GeometrySum α)) :
    (registerAll number store ss).2.Distinct ∧
      store.constants <+: (registerAll number store ss).2.constants ∧
      Forall₂ (fun s n => (registerAll number store ss).2.text? n =
        some (s.toExpr.text operators symbol number)) ss (registerAll number store ss).1 := by
  induction ss generalizing store with
  | nil => exact ⟨h, List.prefix_refl _, .nil⟩
  | cons s ss ih =>
    rcases register_text number h s with ⟨hdistinct, hgrows, htext⟩
    rcases ih hdistinct with ⟨hdistinct', hgrows', htexts⟩
    exact ⟨hdistinct', hgrows.trans hgrows', .cons (text?_mono hgrows' htext) htexts⟩

/-- Sums are given the same constant exactly if they have the same text. -/
theorem number_eq_iff_text_eq {ss : List (GeometrySum α)} {p q : GeometrySum α × Nat}
    (hp : p ∈ ss.zip (registerAll number {} ss).1) (hq : q ∈ ss.zip (registerAll number {} ss).1) :
    p.2 = q.2 ↔ p.1.toExpr.text operators symbol number =
      q.1.toExpr.text operators symbol number := by
  have hempty : ({} : ConstantStore α).Distinct := nodup_nil
  rcases registerAll_text number hempty ss with ⟨hdistinct, _, htexts⟩
  have hpt := List.forall₂_zip htexts hp
  have hqt := List.forall₂_zip htexts hq
  constructor
  · intro h
    rw [h, hqt] at hpt
    exact (Option.some.inj hpt).symm
  · intro h
    rw [h] at hpt
    exact hdistinct.text?_inj hpt hqt

end

end ConstantStore

section

variable {K : Type} [Field K] [LinearOrder K] [IsStrictOrderedRing K] [Root K]

/-- The text of a sum of doubles denotes its value. Sums with the same text have the same value,
    and these are the sums that share a constant. -/
theorem GeometrySum.text_denotes {d : Dimensions} {literal : List Char → Option K}
    {ss : List (GeometrySum Float)} (h : ∀ s ∈ ss, s.Writable d literal) :
    (∀ s ∈ ss, ∃ text, (Cpp.style Cpp.number).sum s = .ok text ∧
      ∀ v, Cpp.read (Cpp.words v literal) text = some (s.exactValue v)) ∧
    (∀ s ∈ ss, ∀ t ∈ ss, (Cpp.style Cpp.number).sum s = (Cpp.style Cpp.number).sum t →
      ∀ v : Symbol → K, s.exactValue v = t.exactValue v) ∧
    ∀ p ∈ ss.zip (ConstantStore.registerAll Cpp.number {} ss).1,
      ∀ q ∈ ss.zip (ConstantStore.registerAll Cpp.number {} ss).1,
        (p.2 = q.2 ↔ (Cpp.style Cpp.number).sum p.1 = (Cpp.style Cpp.number).sum q.1) ∧
        (p.2 = q.2 → ∀ v : Symbol → K, p.1.exactValue v = q.1.exactValue v) := by
  simp only [Cpp.sum_eq_ok, Except.ok.injEq]
  have hshared : ∀ s ∈ ss, ∀ t ∈ ss, s.toExpr.text Cpp.operators Cpp.symbol Cpp.number =
      t.toExpr.text Cpp.operators Cpp.symbol Cpp.number →
      ∀ v : Symbol → K, s.exactValue v = t.exactValue v :=
    fun s hs t ht => (h s hs).exactValue_eq_of_text_eq (h t ht)
  refine ⟨fun s hs => ⟨_, rfl, (h s hs).read_text⟩, hshared, fun p hp q hq => ?_⟩
  have hnumber := ConstantStore.number_eq_iff_text_eq Cpp.number hp hq
  exact ⟨hnumber, fun heq => hshared p.1 (List.of_mem_zip hp).1 q.1 (List.of_mem_zip hq).1
    (hnumber.1 heq)⟩

end

/-- A sum with a negative first term, powers of both signs, and a term without a numerator. -/
def signedSum : GeometrySum Float :=
  ⟨[⟨-0.5, [(.inverse (some .plus) 0 1, 2), (.determinant (some .minus), -3)]⟩,
    ⟨1.0, [(.scale, -1)]⟩]⟩

def fewLiterals (w : List Char) : Option ℚ :=
  ["0.0", "0.5", "1.0"].zip [0, 1 / 2, 1] |>.lookup (String.ofList w)

theorem writable_signedSum : signedSum.Writable .plane fewLiterals where
  within := by
    refine forall_mem_cons.2 ⟨?_, forall_mem_singleton.2 ?_⟩
    · exact forall_mem_cons.2 ⟨⟨by decide, by decide⟩, forall_mem_singleton.2 trivial⟩
    · exact forall_mem_singleton.2 trivial
  finite := by decide
  reads := by decide +kernel

theorem GeometrySum.text_denotes_signed :
    (∀ s ∈ [signedSum, ⟨[]⟩, signedSum], s.Writable .plane fewLiterals) ∧
    (ConstantStore.registerAll Cpp.number {} [signedSum, ⟨[]⟩, signedSum]).1 = [0, 1, 0] ∧
    (Cpp.style Cpp.number).sum signedSum =
      .ok "-0.5*K0_01*K0_01/(detJ1*detJ1*detJ1) + 1.0/det" ∧
    ∀ v : Symbol → ℚ, Cpp.read (Cpp.words v fewLiterals)
      "-0.5*K0_01*K0_01/(detJ1*detJ1*detJ1) + 1.0/det" = some (signedSum.exactValue v) := by
  have hzero : (⟨[]⟩ : GeometrySum Float).Writable .plane fewLiterals := by
    refine ⟨fun t ht => absurd ht List.not_mem_nil, fun t ht => absurd ht List.not_mem_nil, ?_⟩
    decide +kernel
  have hall : ∀ s ∈ [signedSum, ⟨[]⟩, signedSum], s.Writable .plane fewLiterals := by
    simp only [List.forall_mem_cons]
    exact ⟨writable_signedSum, hzero, writable_signedSum, by simp⟩
  have htext : (Cpp.style Cpp.number).sum signedSum =
      .ok "-0.5*K0_01*K0_01/(detJ1*detJ1*detJ1) + 1.0/det" := by decide +kernel
  refine ⟨hall, by decide +kernel, htext, ?_⟩
  rcases (GeometrySum.text_denotes hall).1 signedSum List.mem_cons_self with ⟨text, hsum, hread⟩
  rw [htext] at hsum
  cases hsum
  exact hread

end WeakForm
