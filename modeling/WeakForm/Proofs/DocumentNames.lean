import Mathlib.Data.List.ProdSigma
import WeakForm.Latex
import WeakForm.Proofs.Drawing
import WeakForm.Proofs.Numbering

/-!
# Names of tensor entries in documents

In a document the entries of a tensor are called by their indices, counted from one. Those of
geometry tensors are separated by commas, those of reference and element tensors are not separated
at all. Whether a name tells its entry is then a question of decoding: `111` is the pair `(1, 11)`
as well as `(11, 1)`.

Numerals up to ten can be told apart from either end, since a zero always belongs to the one in
front of it. So with a single dimension above ten the numerals in front of it are read from the
left and those behind it from the right, and what remains is its own. With two such dimensions
there are always two entries of one name.

## Theorems

* `Latex.names_nodup_iff`: Which declarations of an element tensor have distinct names.
-/

namespace WeakForm

open List Success

namespace Latex

variable {m n : Nat} {cs ds : List Char} {dims xs ys : List Nat}

/-- Numbers counted from one, written side by side. -/
def numerals (ns : List Nat) : List Char := ns.flatMap fun n => Nat.toDigits 10 (n + 1)

/-- At most one dimension exceeds ten. -/
def OneLong (dims : List Nat) : Prop := dims.Pairwise fun m n => m ≤ 10 ∨ n ≤ 10

instance (dims : List Nat) : Decidable (OneLong dims) :=
  inferInstanceAs (Decidable (dims.Pairwise _))

/-! ## Numerals side by side -/

theorem head?_toDigits (n : Nat) : (Nat.toDigits 10 (n + 1)).head? ≠ some '0' := by
  induction n using Nat.strongRecOn with
  | ind n ih =>
    by_cases hn : n + 1 < 10
    · rw [Nat.toDigits_of_lt_base hn]
      simp
    · -- The first digit is that of a tenth of the number.
      obtain ⟨k, hk⟩ : ∃ k, (n + 1) / 10 = k + 1 := ⟨(n + 1) / 10 - 1, by omega⟩
      rw [Nat.toDigits_of_base_le (by omega) (by omega), hk,
        head?_append_of_ne_nil _ Nat.toDigits_ne_nil]
      exact ih k (by omega)

theorem head?_numerals (ns : List Nat) : (numerals ns).head? ≠ some '0' := by
  cases ns with
  | nil => simp [numerals]
  | cons n ns =>
    rw [numerals, flatMap_cons, head?_append_of_ne_nil _ Nat.toDigits_ne_nil]
    exact head?_toDigits n

/-- Numerals up to ten can be read from the left. -/
theorem cancel_front (hm : m < 10) (hn : n < 10) (hcs : cs.head? ≠ some '0')
    (hds : ds.head? ≠ some '0')
    (h : Nat.toDigits 10 (m + 1) ++ cs = Nat.toDigits 10 (n + 1) ++ ds) : m = n ∧ cs = ds := by
  have hshort : ∀ m < 10, ∀ n < 10, Nat.toDigits 10 (m + 1) <+: Nat.toDigits 10 (n + 1) →
      m = n ∨ m = 0 ∧ n = 9 := by decide
  rcases prefix_or_prefix_of_prefix ⟨cs, rfl⟩ ⟨ds, h.symm⟩ with hmn | hmn
  · rcases hshort m hm n hn hmn with rfl | ⟨rfl, rfl⟩
    · exact ⟨rfl, append_cancel_left h⟩
    · exact absurd (congrArg head? (cons.inj h).2) hcs
  · rcases hshort n hn m hm hmn with rfl | ⟨rfl, rfl⟩
    · exact ⟨rfl, append_cancel_left h⟩
    · exact absurd (congrArg head? (cons.inj h).2.symm) hds

/-- Numerals up to ten can be read from the right. -/
theorem cancel_back (hm : m < 10) (hn : n < 10)
    (h : cs ++ Nat.toDigits 10 (m + 1) = ds ++ Nat.toDigits 10 (n + 1)) : cs = ds ∧ m = n := by
  have hshort : ∀ m < 10, ∀ n < 10,
      Nat.toDigits 10 (m + 1) <:+ Nat.toDigits 10 (n + 1) → m = n := by decide
  obtain rfl : m = n := by
    rcases suffix_or_suffix_of_suffix ⟨cs, rfl⟩ ⟨ds, h.symm⟩ with hmn | hmn
    · exact hshort m hm n hn hmn
    · exact (hshort n hn m hm hmn).symm
  exact ⟨append_cancel_right h, rfl⟩

theorem numerals_cancel_back (hxs : ∀ n ∈ xs, n < 10) (hys : ∀ n ∈ ys, n < 10)
    (hlength : xs.length = ys.length) (h : cs ++ numerals xs = ds ++ numerals ys) :
    cs = ds ∧ xs = ys := by
  induction xs generalizing ys cs ds with
  | nil =>
    obtain rfl := length_eq_zero_iff.1 hlength.symm
    exact ⟨append_cancel_right h, rfl⟩
  | cons m xs ih =>
    cases ys with
    | nil => cases hlength
    | cons n ys =>
      rw [forall_mem_cons] at hxs hys
      rw [numerals, numerals, flatMap_cons, flatMap_cons, ← append_assoc, ← append_assoc] at h
      rcases ih hxs.2 hys.2 (Nat.succ.inj hlength) h with ⟨hfront, rfl⟩
      rcases cancel_back hxs.1 hys.1 hfront with ⟨rfl, rfl⟩
      exact ⟨rfl, rfl⟩

theorem eq_of_numerals_eq (hdims : OneLong dims) (hxs : Forall₂ (· < ·) xs dims)
    (hys : Forall₂ (· < ·) ys dims) (h : numerals xs = numerals ys) : xs = ys := by
  induction dims generalizing xs ys with
  | nil => rw [forall₂_nil_right_iff.1 hxs, forall₂_nil_right_iff.1 hys]
  | cons dim dims ih =>
    rcases forall₂_cons_right_iff.1 hxs with ⟨x, xs', hx, hxs', rfl⟩
    rcases forall₂_cons_right_iff.1 hys with ⟨y, ys', hy, hys', rfl⟩
    rcases pairwise_cons.1 hdims with ⟨hdim, hdims⟩
    rw [numerals, numerals, flatMap_cons, flatMap_cons] at h
    by_cases hshort : dim ≤ 10
    · rcases cancel_front (by omega) (by omega) (head?_numerals xs') (head?_numerals ys') h with
        ⟨rfl, hrest⟩
      rw [ih hdims hxs' hys' hrest]
    · -- Behind the long dimension all others are short.
      have hbelow : ∀ {zs}, Forall₂ (· < ·) zs dims → ∀ z ∈ zs, z < 10 := by
        intro zs hzs z hz
        rcases forall₂_mem hzs hz with ⟨d, hd, hlt⟩
        have := hdim d hd
        omega
      rcases numerals_cancel_back (hbelow hxs') (hbelow hys')
        (hxs'.length_eq.trans hys'.length_eq.symm) h with ⟨hfront, rfl⟩
      rw [Nat.succ.inj (toDigits_injective hfront)]

/-- One eleven among ones is as good as any other. -/
theorem numerals_set {k : Nat} (hk : k < n) :
    numerals ((replicate n 0).set k 10) = replicate (n + 1) '1' := by
  have hones : ∀ k, numerals (replicate k 0) = replicate k '1' := by
    intro k
    induction k with
    | zero => rfl
    | succ k ih => rw [replicate_succ, numerals, flatMap_cons, ← numerals, ih]; rfl
  rw [set_eq_take_cons_drop 10 (by rwa [length_replicate]), take_replicate, drop_replicate, numerals,
    flatMap_append, flatMap_cons, ← numerals, ← numerals, hones, hones]
  change _ ++ (replicate 2 '1' ++ _) = _
  rw [replicate_append_replicate, replicate_append_replicate]
  congr 1
  omega

theorem exists_mem_all_iff : (∃ x, x ∈ Tuple.all dims) ↔ 0 ∉ dims := by
  rw [← length_pos_iff_exists_mem, Tuple.length_all, Nat.pos_iff_ne_zero, Ne, prod_eq_zero_iff]

/-- Numerals side by side tell the tuples below some dimensions, of which there are any, if and only
    if at most one of the dimensions exceeds ten. -/
theorem numerals_injOn_iff (hzero : 0 ∉ dims) :
    (∀ x ∈ Tuple.all dims, ∀ y ∈ Tuple.all dims, numerals x = numerals y → x = y) ↔
      OneLong dims := by
  simp only [Tuple.mem_all_iff]
  constructor
  · intro h
    by_contra hlong
    rw [OneLong, pairwise_iff_getElem] at hlong
    push Not at hlong
    rcases hlong with ⟨i, j, hi, hj, hij, hlong⟩
    have hmem : ∀ k (hk : k < dims.length), 10 < dims[k] →
        Forall₂ (· < ·) ((replicate dims.length 0).set k 10) dims := by
      intro k hk hlong
      refine forall₂_iff_get.2 ⟨by simp, fun l _ hl => ?_⟩
      simp only [get_eq_getElem, getElem_set, getElem_replicate]
      split
      · next hkl => exact hkl ▸ hlong
      · exact Nat.pos_of_ne_zero fun h0 => hzero (h0 ▸ getElem_mem hl)
    have heq := h _ (hmem i hi hlong.1) _ (hmem j hj hlong.2)
      (by rw [numerals_set hi, numerals_set hj])
    have hentry := congrArg (·[i]?) heq
    simp [hi, Nat.ne_of_gt hij] at hentry
  · exact fun hlong x hx y hy => eq_of_numerals_eq hlong hx hy

/-! ## The characters of names -/

variable {s : String} {i a : List Nat} {j j' : Nat}

theorem toList_oneBased (h : oneBased n = .ok s) : s.toList = Nat.toDigits 10 (n + 1) := by
  rcases bind_eq_ok.1 h with ⟨k, hk, h⟩
  rw [← pure_eq_ok.1 h, Size.add_eq_ok hk, Nat.toString_eq_repr, Nat.toList_repr]

theorem toList_oneBasedList {separator : String} (h : oneBasedList separator xs = .ok s) :
    s.toList = separator.toList.intercalate ((xs.map (· + 1)).map (Nat.toDigits 10)) := by
  rcases bind_eq_ok.1 h with ⟨texts, htexts, h⟩
  rw [← pure_eq_ok.1 h, String.toList_intercalate, map_map]
  exact congrArg _ (map_eq_of_forall₂ (mapM_eq_ok.1 htexts) fun _ _ ht => (toList_oneBased ht).symm).symm

theorem toList_numerals (h : oneBasedList "" xs = .ok s) : s.toList = numerals xs := by
  have hjoin : ∀ ls : List (List Char), [].intercalate ls = ls.flatten := by
    intro ls
    induction ls with
    | nil => rfl
    | cons l ls ih => cases ls <;> simp_all
  rw [toList_oneBasedList h, numerals, flatMap, map_map]
  exact hjoin _

theorem toList_elementName {position : Nat} (h : style.elementName i position = .ok s) :
    s.toList = "A^K_\x7b".toList ++ (numerals i ++ ['\x7d']) := by
  rcases bind_eq_ok.1 h with ⟨text, htext, h⟩
  rw [← pure_eq_ok.1 h, braced]
  simp only [String.toList_append, toList_numerals htext]
  rfl

theorem toList_geometryName (h : style.geometryName j a = .ok s) :
    s.toList = "G_\x7bK,".toList ++ (Nat.toDigits 10 (j + 1) ++ '\x7d' :: ("^\x7b".toList ++
      ([','].intercalate ((a.map (· + 1)).map (Nat.toDigits 10)) ++ ['\x7d']))) := by
  rcases bind_eq_ok.1 h with ⟨term, hterm, h⟩
  rcases bind_eq_ok.1 h with ⟨text, htext, h⟩
  rw [← pure_eq_ok.1 h, braced, braced]
  simp only [String.toList_append, toList_oneBased hterm, toList_oneBasedList htext, append_assoc]
  rfl

theorem toList_referenceName (h : style.referenceName j i a = .ok s) :
    s.toList = "A^\x7b0,".toList ++ (Nat.toDigits 10 (j + 1) ++ '\x7d' :: ("_\x7b".toList ++
      (numerals i ++ ';' :: (numerals a ++ ['\x7d'])))) := by
  rcases bind_eq_ok.1 h with ⟨term, hterm, h⟩
  rcases bind_eq_ok.1 h with ⟨itext, hitext, h⟩
  rcases bind_eq_ok.1 h with ⟨atext, hatext, h⟩
  rw [← pure_eq_ok.1 h, braced, braced]
  simp only [String.toList_append, toList_oneBased hterm, toList_numerals hitext,
    toList_numerals hatext, append_assoc]
  rfl

/-- Digits end at the first other character. -/
theorem digits_cancel {cs' ds' : List Char} {c : Char} (hc : c.isDigit = false)
    (hcs : ∀ d ∈ cs, d.isDigit = true) (hcs' : ∀ d ∈ cs', d.isDigit = true)
    (h : cs ++ c :: ds = cs' ++ c :: ds') : cs = cs' ∧ ds = ds' := by
  have hfront := congrArg (takeWhile Char.isDigit) h
  have hstop : ¬ c.isDigit = true := by simp [hc]
  rw [takeWhile_append_of_pos hcs, takeWhile_append_of_pos hcs', takeWhile_cons_of_neg hstop,
    takeWhile_cons_of_neg hstop, append_nil, append_nil] at hfront
  subst hfront
  exact ⟨rfl, (cons.inj (append_cancel_left h)).2⟩

theorem term_cancel (h : Nat.toDigits 10 (j + 1) ++ '\x7d' :: cs =
    Nat.toDigits 10 (j' + 1) ++ '\x7d' :: ds) : j = j' ∧ cs = ds := by
  have hdigits := fun n c (hc : c ∈ Nat.toDigits 10 n) =>
    Nat.isDigit_of_mem_toDigits (by decide) (by decide) hc
  rcases digits_cancel (by decide) (hdigits _) (hdigits _) h with ⟨hj, hrest⟩
  exact ⟨Nat.succ.inj (toDigits_injective hj), hrest⟩

/-! ## Distinct names -/

variable {terms : List (TensorTerm Float)} {declarations : List Declaration}

theorem nodup_names_iff {β : Type} {keys : List β} {nameOf : β → Checked String}
    {text : β → List Char} (hkeys : keys.Nodup) (htext : ∀ k s, nameOf k = .ok s → s.toList = text k)
    (h : Forall₂ (fun k d => nameOf k = .ok d.name) keys declarations) :
    (declarations.map Declaration.name).Nodup ↔
      ∀ k ∈ keys, ∀ l ∈ keys, text k = text l → k = l := by
  have hmap := map_eq_of_forall₂ h fun k d hk => (htext k _ hk).symm
  rw [← nodup_map_iff_inj_on hkeys, hmap, ← nodup_map_iff fun _ _ => String.toList_injective, map_map]
  rfl

theorem element_names {i : MultiIndex} (hprimary : ElementTensor.primary terms = some i)
    (h : ElementTensor.elementDeclarations terms style = .ok declarations) :
    (declarations.map Declaration.name).Nodup ↔ 0 ∈ i.dims ∨ OneLong i.dims := by
  unfold ElementTensor.elementDeclarations at h
  rw [hprimary] at h
  -- The position of an entry does not occur in its name.
  have hnames : Forall₂ (fun k d => style.elementName k 0 = .ok d.name) i.tuples declarations := by
    rw [← zipIdx_map_fst 0 i.tuples, forall₂_map_left_iff]
    refine (mapM_eq_ok.1 h).imp fun x d hd => ?_
    rcases bind_eq_ok.1 hd with ⟨_, _, hd⟩
    rcases bind_eq_ok.1 hd with ⟨name, hname, hd⟩
    rw [← pure_eq_ok.1 hd]
    exact hname
  rw [nodup_names_iff (Tuple.nodup_all i.dims) (fun _ _ => toList_elementName) hnames]
  simp only [append_right_inj, append_left_inj]
  by_cases hzero : 0 ∈ i.dims
  · exact ⟨fun _ => .inl hzero, fun _ x hx => absurd hzero (exists_mem_all_iff.1 ⟨x, hx⟩)⟩
  · exact (numerals_injOn_iff hzero).trans (or_iff_right hzero).symm

theorem geometry_names (h : ElementTensor.geometryDeclarations terms style = .ok declarations) :
    (declarations.map Declaration.name).Nodup := by
  rcases bind_eq_ok.1 h with ⟨lists, hlists, h⟩
  have hnames : Forall₂ (fun k d => style.geometryName k.1 k.2 = .ok d.name)
      (numbered terms fun t => t.geometry.a.tuples) declarations := by
    rw [← pure_eq_ok.1 h]
    refine rel_flatten (forall₂_map_left_iff.2 ((mapM_eq_ok.1 hlists).imp fun x l hl => ?_))
    rcases bind_eq_ok.1 hl with ⟨entries, hentries, hl⟩
    simp only [← GeometryTensor.map_fst_entries hentries, map_map, forall₂_map_left_iff]
    refine (mapM_eq_ok.1 hl).imp fun y d hd => ?_
    rcases bind_eq_ok.1 hd with ⟨name, hname, hd⟩
    rcases bind_eq_ok.1 hd with ⟨_, _, hd⟩
    rw [← pure_eq_ok.1 hd]
    exact hname
  refine (nodup_names_iff (nodup_numbered fun t => Tuple.nodup_all _)
    (fun _ _ => toList_geometryName) hnames).2 ?_
  rintro ⟨j, a⟩ hja ⟨j', a'⟩ hja' heq
  rw [append_right_inj] at heq
  rcases term_cancel heq with ⟨hj, heq⟩
  rw [append_right_inj, append_left_inj] at heq
  rcases mem_numbered.1 hja with ⟨t, ht, ha⟩
  rcases mem_numbered.1 hja' with ⟨t', ht', ha'⟩
  obtain rfl : t = t' := Option.some.inj (ht.symm.trans (hj ▸ ht'))
  have hlength := (Tuple.length_of_mem_all ha).trans (Tuple.length_of_mem_all ha').symm
  refine Prod.ext hj ?_
  -- Without indices there are no separators to tell them apart by.
  by_cases hnil : a = []
  · subst hnil
    exact (length_eq_zero_iff.1 hlength.symm).symm
  · have hnil' : a' ≠ [] := fun h0 => hnil (length_eq_zero_iff.1 (hlength.trans (by rw [h0]; rfl)))
    exact map_injective_iff.2 (add_left_injective 1) (intercalate_toDigits_injective (by decide)
      (mt map_eq_nil_iff.1 hnil) (mt map_eq_nil_iff.1 hnil') heq)

theorem reference_names (h : ElementTensor.referenceDeclarations terms style = .ok declarations) :
    (declarations.map Declaration.name).Nodup ↔ ∀ t ∈ terms, 0 ∈ t.reference.i.dims ∨
      0 ∈ t.reference.a.dims ∨ OneLong t.reference.i.dims ∧ OneLong t.reference.a.dims := by
  rcases bind_eq_ok.1 h with ⟨lists, hlists, h⟩
  have hnames : Forall₂ (fun k d => style.referenceName k.1 k.2.1 k.2.2 = .ok d.name)
      (numbered terms fun t => t.reference.i.tuples ×ˢ t.reference.a.tuples) declarations := by
    rw [← pure_eq_ok.1 h, flatten_flatten]
    refine rel_flatten (forall₂_map_left_iff.2 (forall₂_map_right_iff.2
      ((mapM_eq_ok.1 hlists).imp fun x l hl => ?_)))
    simp only [SProd.sprod, product, map_flatMap]
    refine rel_flatten (forall₂_map_left_iff.2 ((mapM_eq_ok.1 hl).imp fun i l hl => ?_))
    rw [map_map, forall₂_map_left_iff]
    refine (mapM_eq_ok.1 hl).imp fun a d hd => ?_
    rcases bind_eq_ok.1 hd with ⟨name, hname, hd⟩
    rw [← pure_eq_ok.1 hd]
    exact hname
  rw [nodup_names_iff (nodup_numbered fun t => (Tuple.nodup_all _).product (Tuple.nodup_all _))
    (fun _ _ => toList_referenceName) hnames]
  constructor
  · intro h t ht
    rcases mem_iff_getElem?.1 ht with ⟨j, hj⟩
    rw [or_iff_not_imp_left, or_iff_not_imp_left]
    intro hi ha
    rcases exists_mem_all_iff.2 hi with ⟨i, hi'⟩
    rcases exists_mem_all_iff.2 ha with ⟨a, ha'⟩
    -- One of the two tuples is kept while the other one is told from its numerals.
    have htell : ∀ x ∈ Tuple.all t.reference.i.dims, ∀ y ∈ Tuple.all t.reference.i.dims,
        ∀ b ∈ Tuple.all t.reference.a.dims, ∀ c ∈ Tuple.all t.reference.a.dims,
        numerals x = numerals y → numerals b = numerals c → (j, x, b) = (j, y, c) := by
      intro x hx y hy b hb c hc hxy hbc
      exact h _ (mem_numbered.2 ⟨t, hj, mem_product.2 ⟨hx, hb⟩⟩) _
        (mem_numbered.2 ⟨t, hj, mem_product.2 ⟨hy, hc⟩⟩) (by rw [hxy, hbc])
    constructor
    · refine (numerals_injOn_iff hi).1 fun x hx y hy hxy => ?_
      exact congrArg (·.2.1) (htell x hx y hy a ha' a ha' hxy rfl)
    · refine (numerals_injOn_iff ha).1 fun x hx y hy hxy => ?_
      exact congrArg (·.2.2) (htell i hi' i hi' x hx y hy rfl hxy)
  · rintro h ⟨j, i, a⟩ hk ⟨j', i', a'⟩ hl heq
    have hdigits : ∀ ns, ∀ c ∈ numerals ns, c.isDigit = true := by
      intro ns c hc
      rcases mem_flatMap.1 hc with ⟨n, _, hc⟩
      exact Nat.isDigit_of_mem_toDigits (by decide) (by decide) hc
    rw [append_right_inj] at heq
    rcases term_cancel heq with ⟨rfl, heq⟩
    rw [append_right_inj] at heq
    rcases digits_cancel (by decide) (hdigits i) (hdigits i') heq with ⟨hi, heq⟩
    rw [append_left_inj] at heq
    rcases mem_numbered.1 hk with ⟨t, ht, hk⟩
    rcases mem_numbered.1 hl with ⟨t', ht', hl⟩
    obtain rfl : t = t' := Option.some.inj (ht.symm.trans ht')
    rcases mem_product.1 hk with ⟨hki, hka⟩
    rcases mem_product.1 hl with ⟨hli, hla⟩
    rcases h t (mem_of_getElem? ht) with h0 | h0 | ⟨hlong, hlong'⟩
    · exact absurd h0 (exists_mem_all_iff.1 ⟨i, hki⟩)
    · exact absurd h0 (exists_mem_all_iff.1 ⟨a, hka⟩)
    · rw [Tuple.mem_all_iff] at hki hka hli hla
      rw [eq_of_numerals_eq hlong hki hli hi, eq_of_numerals_eq hlong' hka hla heq]

/-- The names of the entries of geometry tensors are always distinct. Those of the element tensor
    are if and only if it has no entries or at most one dimension above ten, and those of the
    reference tensors if and only if the same holds for the primary and the secondary dimensions of
    each. -/
theorem names_nodup_iff {kind : Integral} {domain : Nat} {tensor : ElementTensor Float}
    (h : ElementTensor.of terms kind domain style = .ok tensor) :
    (tensor.geometry.map Declaration.name).Nodup ∧
    ((tensor.element.map Declaration.name).Nodup ↔
      ∀ t ∈ terms, 0 ∈ t.reference.i.dims ∨ OneLong t.reference.i.dims) ∧
    ((tensor.reference.map Declaration.name).Nodup ↔ ∀ t ∈ terms, 0 ∈ t.reference.i.dims ∨
      0 ∈ t.reference.a.dims ∨ OneLong t.reference.i.dims ∧ OneLong t.reference.a.dims) := by
  rcases ElementTensor.of_iff.1 h with ⟨hdims, hreference, hgeometry, helement, _⟩
  refine ⟨geometry_names hgeometry, ?_, reference_names hreference⟩
  cases terms with
  | nil =>
    rw [← Except.ok.inj helement]
    simp
  | cons t terms =>
    rw [element_names rfl helement]
    constructor
    · intro hfirst u hu
      rwa [hdims u hu t mem_cons_self]
    · exact fun hall => hall t mem_cons_self

/-- A term without secondary indices and with zeros for values. -/
def blankTerm (dims : List Nat) : TensorTerm Float :=
  ⟨⟨⟨(range dims.length).map .primary, dims⟩, .empty, .replicate dims.prod 0⟩, ⟨.empty, 1, []⟩⟩

theorem names_nodup_iff_long : ∃ tensor,
    ElementTensor.of [blankTerm [2, 11], blankTerm [2, 11]] .cell 0 style = .ok tensor ∧
      (tensor.geometry.map Declaration.name).Nodup ∧
      (tensor.element.map Declaration.name).Nodup ∧
      (tensor.reference.map Declaration.name).Nodup := by
  rcases exists_of_isOk (x := ElementTensor.of [blankTerm [2, 11], blankTerm [2, 11]] .cell 0 style)
    (by decide +kernel) with ⟨tensor, h⟩
  rcases names_nodup_iff h with ⟨hgeometry, helement, hreference⟩
  exact ⟨tensor, h, hgeometry, helement.2 (by decide), hreference.2 (by decide)⟩

/-- With eleven by eleven entries some names are given twice. -/
theorem names_collide : ∃ tensor, ElementTensor.of [blankTerm [11, 11]] .cell 0 style = .ok tensor ∧
    ¬ (tensor.element.map Declaration.name).Nodup ∧
    ¬ (tensor.reference.map Declaration.name).Nodup := by
  rcases exists_of_isOk (x := ElementTensor.of [blankTerm [11, 11]] .cell 0 style)
    (by decide +kernel) with ⟨tensor, h⟩
  rcases ElementTensor.of_iff.1 h with ⟨_, hreference, _, helement, _⟩
  refine ⟨tensor, h, fun hnodup => ?_, fun hnodup => ?_⟩
  · exact absurd ((element_names rfl helement).1 hnodup) (by decide)
  · exact absurd ((reference_names hreference).1 hnodup) (by decide)

end Latex

end WeakForm
