import Mathlib.Tactic.Ring
import WeakForm.Proofs.MonomialLaws
import WeakForm.Proofs.PhysicalBasis
import WeakForm.Proofs.PhysicalGradients
import WeakForm.Proofs.PiolaMaps
import WeakForm.Proofs.SoundTables

/-!
# Derivative transforms as Kronecker powers

The transform of derivatives has a row for each tuple of physical axes and a column for each
tuple of reference axes. Tuples of `k + l` axes are pairs of tuples, and the entry of a pair is
the product of the entries of its parts. So the transform of order `k + l` consists of blocks,
the entries of order `k` times all of order `l`, and a power of the inverse `K` of the Jacobian
`J` is built up from nothing but `K` itself. The products have to be free of brackets for this.
Those of a field are, and those of monomials are as far as their exponents fit.

Where `K * J` is the identity, so are all its Kronecker powers. This is seen one axis at a time.

## Theorems

* `MapEntries.Lawful.kroneckerPowers`: Lawful products make Kronecker powers.
* `contracts_chainFactor`: Products of entries of a left inverse undo those of the Jacobian.
* `derivativeTransform_kronecker`: The transforms of cells, in numbers and in symbols.
-/

namespace WeakForm

open List Success

def matrixEntry {σ : Type} (A : List (List σ)) (r s : Nat) : Option σ := A[r]?.bind (·[s]?)

namespace Tuple

theorem linear_append {dims dims' xs : List Nat} (h : xs.length = dims.length) (ys : List Nat) :
    linear (dims ++ dims') (xs ++ ys) = linear dims xs * dims'.prod + linear dims' ys := by
  induction dims generalizing xs with
  | nil =>
    rw [length_eq_zero_iff.1 h]
    simp [linear]
  | cons dim dims ih =>
    cases xs with
    | nil => cases h
    | cons x xs =>
      rw [cons_append, cons_append, linear, linear, ih (Nat.succ.inj h), prod_append]
      ring

theorem get_axes_append {dim k l r r' : Nat} {g g' : List Nat} (hg : (axes dim k)[r]? = some g)
    (hg' : (axes dim l)[r']? = some g') :
    (axes dim (k + l))[r * dim ^ l + r']? = some (g ++ g') := by
  rcases mem_axes_iff.1 (mem_of_getElem? hg) with ⟨hlength, hbelow⟩
  rcases mem_axes_iff.1 (mem_of_getElem? hg') with ⟨hlength', hbelow'⟩
  have hmem : g ++ g' ∈ axes dim (k + l) :=
    mem_axes_iff.2 ⟨by rw [length_append, hlength, hlength'], forall_mem_append.2 ⟨hbelow, hbelow'⟩⟩
  have hlinear : linear (replicate k dim ++ replicate l dim) (g ++ g') = _ :=
    linear_append (hlength.trans length_replicate.symm) g'
  rw [linear_of_get hg, linear_of_get hg', prod_replicate, replicate_append_replicate] at hlinear
  rw [← hlinear]
  exact get_linear hmem

theorem exists_get_axes {dim k r : Nat} (h : r < dim ^ k) : ∃ g, (axes dim k)[r]? = some g :=
  ⟨_, getElem?_eq_getElem (by rwa [length_axes])⟩

end Tuple

namespace MapEntries

variable {σ : Type}

/-- Products that do not depend on brackets, as far as they exist. -/
structure Lawful (m : MapEntries σ) (S : σ → Prop) : Prop where
  one : S m.one
  inverse : ∀ {t g x}, m.inverse t g = .ok x → S x
  mul : ∀ {a b c}, S a → S b → m.mul a b = .ok c → S c
  one_mul : ∀ {a}, S a → m.mul m.one a = .ok a
  mul_one : ∀ a, m.mul a m.one = .ok a
  brackets : ∀ {a b c ab bc}, S a → S b → S c → m.mul a b = .ok ab → m.mul b c = .ok bc →
    m.mul ab c = m.mul a bc

/-- The transforms of derivatives are the Kronecker powers of the inverse Jacobian, for all orders
    that have one. -/
structure KroneckerPowers (m : MapEntries σ) (orders : Nat → Prop) : Prop where
  defined : ∀ k, orders k → ∃ A, derivativeTransform k m = .ok A
  shape : ∀ {k A}, derivativeTransform k m = .ok A →
    A.length = m.dims.gdim ^ k ∧ ∀ row ∈ A, row.length = m.dims.tdim ^ k
  zero : derivativeTransform 0 m = .ok [[m.one]]
  one : ∀ {A}, derivativeTransform 1 m = .ok A → ∀ g < m.dims.gdim, ∀ t < m.dims.tdim,
    ∃ x, m.inverse t g = .ok x ∧ matrixEntry A g t = some x
  blocks : ∀ {k l A B C}, derivativeTransform k m = .ok A → derivativeTransform l m = .ok B →
    derivativeTransform (k + l) m = .ok C →
    ∀ r < m.dims.gdim ^ k, ∀ r' < m.dims.gdim ^ l, ∀ s < m.dims.tdim ^ k, ∀ s' < m.dims.tdim ^ l,
      ∃ x y z, matrixEntry A r s = some x ∧ matrixEntry B r' s' = some y ∧ m.mul x y = .ok z ∧
        matrixEntry C (r * m.dims.gdim ^ l + r') (s * m.dims.tdim ^ l + s') = some z

variable {m : MapEntries σ} {S : σ → Prop} {g g' t t' : List Nat} {x y z : σ}

theorem Lawful.derivativeEntry_append (hm : m.Lawful S) (hlength : t.length = g.length)
    (hx : derivativeEntry m g t = .ok x) (hy : derivativeEntry m g' t' = .ok y)
    (hz : derivativeEntry m (g ++ g') (t ++ t') = .ok z) : m.mul x y = .ok z := by
  -- A product can be started at any entry instead of one; the induction takes the last factor off.
  have hfold : ∀ (xs : List (Nat × Nat)) y,
      xs.foldlM (fun entry x => do m.mul entry (← m.inverse x.1 x.2)) m.one = .ok y → S y ∧
        ∀ a z, S a → xs.foldlM (fun entry x => do m.mul entry (← m.inverse x.1 x.2)) a = .ok z →
          m.mul a y = .ok z := by
    intro xs
    induction xs using reverseRecOn with
    | nil =>
      intro y hy
      obtain rfl := foldlM_nil_eq_ok.1 hy
      refine ⟨hm.one, fun a z _ hz => ?_⟩
      rw [← foldlM_nil_eq_ok.1 hz, hm.mul_one]
    | append_singleton xs x ih =>
      intro y hy
      simp only [foldlM_append, foldlM_cons, foldlM_nil, bind_pure] at hy
      rcases bind_eq_ok.1 hy with ⟨y', hy', hy⟩
      rcases bind_eq_ok.1 hy with ⟨k, hk, hy⟩
      rcases ih y' hy' with ⟨hS, hmul⟩
      refine ⟨hm.mul hS (hm.inverse hk) hy, fun a z ha hz => ?_⟩
      simp only [foldlM_append, foldlM_cons, foldlM_nil, bind_pure] at hz
      rcases bind_eq_ok.1 hz with ⟨z', hz', hz⟩
      rcases bind_eq_ok.1 hz with ⟨k', hk', hz⟩
      obtain rfl : k = k' := Except.ok.inj (hk.symm.trans hk')
      rw [← hm.brackets ha hS (hm.inverse hk) (hmul a z' ha hz') hy, hz]
  unfold derivativeEntry at hx hy hz
  rw [zip_append hlength, foldlM_append] at hz
  rcases bind_eq_ok.1 hz with ⟨x', hx', hz⟩
  obtain rfl : x = x' := Except.ok.inj (hx.symm.trans hx')
  exact (hfold _ y hy).2 x z (hfold _ x hx).1 hz

theorem derivativeTransform_get {k r s : Nat} {A : List (List σ)}
    (h : derivativeTransform k m = .ok A) (hg : (Tuple.axes m.dims.gdim k)[r]? = some g)
    (ht : (Tuple.axes m.dims.tdim k)[s]? = some t) :
    ∃ x, matrixEntry A r s = some x ∧ derivativeEntry m g t = .ok x := by
  rcases forall₂_get (mapM_eq_ok.1 h) hg with ⟨row, hrow, hg⟩
  rcases forall₂_get (mapM_eq_ok.1 hg) ht with ⟨x, hx, ht⟩
  exact ⟨x, by rw [matrixEntry, hrow, Option.bind_some, hx], ht⟩

theorem Lawful.kroneckerPowers (hm : m.Lawful S) {orders : Nat → Prop}
    (hdefined : ∀ k, orders k → ∃ A, derivativeTransform k m = .ok A) :
    m.KroneckerPowers orders where
  defined := hdefined
  shape := by
    intro k A h
    have hrows := mapM_eq_ok.1 h
    refine ⟨by rw [← hrows.length_eq, Tuple.length_axes], fun row hrow => ?_⟩
    rcases forall₂_mem hrows.flip hrow with ⟨g, _, hg⟩
    rw [← (mapM_eq_ok.1 hg).length_eq, Tuple.length_axes]
  zero := rfl
  one := by
    intro A h g hg t ht
    rcases derivativeTransform_get h (Tuple.get_axes_one hg) (Tuple.get_axes_one ht) with ⟨x, hx, hentry⟩
    rcases foldlM_cons_eq_ok.1 hentry with ⟨y, hy, hentry⟩
    rcases bind_eq_ok.1 hy with ⟨k, hk, hy⟩
    rw [hm.one_mul (hm.inverse hk), foldlM_nil_eq_ok.1 hentry] at hy
    exact ⟨x, Except.ok.inj hy ▸ hk, hx⟩
  blocks := by
    intro k l A B C hA hB hC r hr r' hr' s hs s' hs'
    rcases Tuple.exists_get_axes hr with ⟨g, hg⟩
    rcases Tuple.exists_get_axes hr' with ⟨g', hg'⟩
    rcases Tuple.exists_get_axes hs with ⟨t, ht⟩
    rcases Tuple.exists_get_axes hs' with ⟨t', ht'⟩
    rcases derivativeTransform_get hA hg ht with ⟨x, hx, hxentry⟩
    rcases derivativeTransform_get hB hg' ht' with ⟨y, hy, hyentry⟩
    rcases derivativeTransform_get hC (Tuple.get_axes_append hg hg') (Tuple.get_axes_append ht ht')
      with ⟨z, hz, hzentry⟩
    have hlength : t.length = g.length := by
      rw [(Tuple.mem_axes_iff.1 (mem_of_getElem? ht)).1, (Tuple.mem_axes_iff.1 (mem_of_getElem? hg)).1]
    exact ⟨x, y, z, hx, hy, hm.derivativeEntry_append hlength hxentry hyentry hzentry, hz⟩

variable {K : Type} [Field K] [LinearOrder K] [Root K]

theorem lawful_ofMap (m : AffineMap K) : (ofMap m).Lawful fun _ => True where
  one := trivial
  inverse _ := trivial
  mul _ _ _ := trivial
  one_mul {a} _ := congrArg Except.ok (one_mul a)
  mul_one a := congrArg Except.ok (mul_one a)
  brackets {a b c} _ _ _ _ _ hab hbc := by
    rw [← Except.ok.inj hab, ← Except.ok.inj hbc]
    exact congrArg Except.ok (mul_assoc a b c)

theorem lawful_symbolic (d : Dimensions) (side : Option Side) :
    (symbolic d side).Lawful (GeometryMonomial.Reachable (α := K)) where
  one := .constant 1
  inverse h := Except.ok.inj h ▸ .ofSymbol _
  mul := .mul
  one_mul h := by
    rw [← GeometryMonomial.mul_one_right, h.mul_swap (.constant 1)]
    rfl
  mul_one := GeometryMonomial.mul_one_right
  brackets := GeometryMonomial.Reachable.mul_brackets

/-- Symbols have transforms as long as exponents fit their words. -/
theorem exists_symbolic (d : Dimensions) (side : Option Side) {k : Nat} (hk : k < 2 ^ 31) :
    ∃ A, derivativeTransform k (symbolic d side : MapEntries (GeometryMonomial K)) = .ok A := by
  refine mapM_exists _ _ fun g _ => ?_
  rcases (Expand.sure_derivativeRow (α := K) hk).exists_ok with ⟨row, hrow, _⟩
  exact ⟨row, hrow⟩

end MapEntries

/-! ## Contraction with the Jacobian -/

section

variable {K : Type} [Field K]

/-- One matrix times another is the identity on the reference axes. -/
def LeftInverse (d : Dimensions) (inverse jacobian : Nat → Nat → K) : Prop :=
  ∀ a < d.tdim, ∀ b < d.tdim,
    ((range d.gdim).map fun g => inverse a g * jacobian g b).sum = if a = b then 1 else 0

/-- The rows of a matrix from reference to physical derivatives, contracted with products of
    entries of the Jacobian, give the identity on tuples of reference axes. -/
def ContractsToIdentity (d : Dimensions) (jacobian : Nat → Nat → K) (k : Nat) (A : List (List K)) :
    Prop :=
  ∀ (s : Nat) (t : List Nat), (Tuple.axes d.tdim k)[s]? = some t → ∀ t' ∈ Tuple.axes d.tdim k,
    (zipWith (fun g row => row[s]?.getD 0 * (zipWith jacobian g t').prod)
      (Tuple.axes d.gdim k) A).sum = if t = t' then 1 else 0

variable {d : Dimensions} {side : Option Side} {v : Symbol → K}

theorem sum_chainFactor
    (h : LeftInverse d (fun a g => v (.inverse side a g)) fun g b => v (.jacobian side g b))
    {k : Nat} {t t' : List Nat} (ht : t ∈ Tuple.axes d.tdim k) (ht' : t' ∈ Tuple.axes d.tdim k) :
    ((Tuple.axes d.gdim k).map fun g => chainFactor side v g t *
      (zipWith (fun g b => v (.jacobian side g b)) g t').prod).sum = if t = t' then 1 else 0 := by
  induction k generalizing t t' with
  | zero =>
    rw [Tuple.mem_axes_iff, length_eq_zero_iff] at ht ht'
    rw [ht.1, ht'.1]
    exact (add_zero _).trans (mul_one 1)
  | succ k ih =>
    unfold Tuple.axes at ht ht' ih ⊢
    rw [replicate_succ] at ht ht' ⊢
    rcases Tuple.mem_all_cons.1 ht with ⟨a, ha, u, hu, rfl⟩
    rcases Tuple.mem_all_cons.1 ht' with ⟨b, hb, u', hu', rfl⟩
    -- The first axis of the row is summed over on its own.
    have hsplit : ∀ i g, chainFactor side v (i :: g) (a :: u) *
        (zipWith (fun g b => v (.jacobian side g b)) (i :: g) (b :: u')).prod =
        v (.inverse side a i) * v (.jacobian side i b) *
          (chainFactor side v g u * (zipWith (fun g b => v (.jacobian side g b)) g u').prod) := by
      intro i g
      simp only [chainFactor, zipWith_cons_cons, prod_cons]
      ring
    rw [Tuple.all_cons, Tuple.sum_flatMap]
    simp only [map_map, Function.comp_def, hsplit, sum_map_mul_left, ih hu hu', sum_map_mul_right]
    rw [h a ha b hb]
    simp only [cons.injEq, ite_and, ite_mul, one_mul, zero_mul]

theorem contracts_chainFactor
    (h : LeftInverse d (fun a g => v (.inverse side a g)) fun g b => v (.jacobian side g b))
    {k : Nat} {A : List (List K)} (hA : Forall₂ (fun g row =>
      (Tuple.axes d.tdim k).map (chainFactor side v g) = row) (Tuple.axes d.gdim k) A) :
    ContractsToIdentity d (fun g b => v (.jacobian side g b)) k A := by
  intro s t ht t' ht'
  have hrows := forall₂_map_left_iff.2 hA
  rw [forall₂_eq_eq_eq] at hrows
  rw [← sum_chainFactor h (mem_of_getElem? ht) ht', ← hrows, zipWith_map_right, zipWith_self]
  simp only [getElem?_map, ht, Option.map_some, Option.getD_some]

end

variable {K : Type} [Field K] [LinearOrder K] [Root K]

/-- Derivative transforms are Kronecker powers of the inverse Jacobian, for the numbers of any cell
    and for its symbols. Where the inverse Jacobian is a left inverse, their contraction with
    products of entries of the Jacobian is the identity. -/
theorem derivativeTransform_kronecker :
    (∀ (x : Grid K) (d : Dimensions) (m : AffineMap K),
      (AffineMap.of x d = .ok m ∨ ∃ orientation, AffineMap.oriented x d orientation = .ok m) →
      (MapEntries.ofMap m).KroneckerPowers (fun _ => True) ∧
        (LeftInverse m.dims m.inverse.entry m.jacobian.entry → ∀ k A,
          derivativeTransform k (MapEntries.ofMap m) = .ok A →
            ContractsToIdentity m.dims m.jacobian.entry k A)) ∧
    ∀ (d : Dimensions) (side : Option Side),
      (MapEntries.symbolic d side : MapEntries (GeometryMonomial K)).KroneckerPowers (· < 2 ^ 31) ∧
        ∀ v : Symbol → K,
          LeftInverse d (fun a g => v (.inverse side a g)) (fun g b => v (.jacobian side g b)) →
          ∀ k A, derivativeTransform k (MapEntries.symbolic d side) = .ok A →
            ContractsToIdentity d (fun g b => v (.jacobian side g b)) k
              (A.map fun row => row.map fun x => x.value v) := by
  constructor
  · intro x d m hm
    rcases AffineMap.parts hm with ⟨rfl, _, hinverse⟩
    rcases Geometry.inverseJacobian_size (Geometry.jacobian x m.dims) m.dims with ⟨hrows, hcols⟩
    rw [← hinverse] at hrows hcols
    refine ⟨(MapEntries.lawful_ofMap m).kroneckerPowers fun k _ => ?_, fun h k A hA => ?_⟩
    · rcases (sure_derivativeTransform hrows hcols k).exists_ok with ⟨A, hA, _⟩
      exact ⟨A, hA⟩
    · refine @contracts_chainFactor _ _ m.dims none m.symbolValue h k A ?_
      refine (Forall₂.imp ?_ ((forall₂_and_left _ _).2 ⟨fun g hg => hg, mapM_eq_ok.1 hA⟩))
      rintro g row ⟨hg, hrow⟩
      rw [← forall₂_eq_eq_eq]
      exact derivativeRow_related (MapEntries.valued_related_ofMap m none)
        (Tuple.mem_axes_iff.1 hg).2 (derivativeRow_valued k _ _ _ g) hrow
  · intro d side
    refine ⟨(MapEntries.lawful_symbolic d side).kroneckerPowers fun k =>
      MapEntries.exists_symbolic d side, fun v h k A hA => contracts_chainFactor h ?_⟩
    rw [forall₂_map_right_iff]
    refine (Forall₂.imp ?_ ((forall₂_and_left _ _).2 ⟨fun g hg => hg, mapM_eq_ok.1 hA⟩))
    rintro g row ⟨hg, hrow⟩
    have hrelated := derivativeRow_related (MapEntries.symbolic_related_valued d side v)
      (Tuple.mem_axes_iff.1 hg).2 hrow (derivativeRow_valued k _ _ _ g)
    rw [← forall₂_eq_eq_eq, forall₂_map_right_iff]
    exact hrelated.flip.imp fun _ _ hx => hx.value.symm

/-- The transform of second derivatives on a sheared triangle, with its numbers and its symbols. -/
theorem derivativeTransform_kronecker_sheared :
    ∃ A B, derivativeTransform 2 (MapEntries.ofMap shearedTriangle) = .ok A ∧
      derivativeTransform 2 (MapEntries.symbolic .plane none) = .ok B ∧
      ContractsToIdentity .plane shearedTriangle.jacobian.entry 2 A ∧
      ContractsToIdentity .plane (fun g b => shearedTriangle.symbolValue (.jacobian none g b)) 2
        (B.map fun row => row.map fun x => x.value shearedTriangle.symbolValue) := by
  rcases derivativeTransform_kronecker (K := ℚ) with ⟨hnumbers, hsymbols⟩
  have hinverse : LeftInverse .plane shearedTriangle.inverse.entry shearedTriangle.jacobian.entry := by
    unfold LeftInverse
    decide +kernel
  have hof : AffineMap.of shearedTriangle.vertices .plane = .ok shearedTriangle := rfl
  rcases hnumbers _ _ _ (.inl hof) with ⟨hpowers, hcontracts⟩
  rcases hsymbols .plane none with ⟨hpowers', hcontracts'⟩
  rcases hpowers.defined 2 trivial with ⟨A, hA⟩
  rcases hpowers'.defined 2 (by decide) with ⟨B, hB⟩
  exact ⟨A, B, hA, hB, hcontracts hinverse 2 A hA, hcontracts' _ hinverse 2 B hB⟩

end WeakForm
