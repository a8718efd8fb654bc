import WeakForm.Proofs.Transforms
import WeakForm.Code.Quadrature

/-!
# The meaning of expanded factors

A factor of a monomial is expanded into tables of reference values, each with its
product of symbols. The expansion sorts contributions by their symbols, adds up those
that agree, and drops what vanishes. None of this changes the sum: the tables times
the values of their symbols add up to the factor on the physical cell.

The argument follows the expansion backwards. A table is a sum of contributions, so
the sum over the tables is the sum over all contributions (`sumOf_collect` is the one
step that inserts a contribution). The contributions of a degree of freedom are all
products of a chain of derivatives with an entry of its value transform, so they add up
to the product of two sums, and these are what `MapEntries.valued` gives.

## Main definitions

* `ScaledTable.entry`: An entry of the values of a table.
* `TermTables.entry`: What the tables of a monomial contribute to an entry.

## Theorems

* `expandFactor_tables`: What the tables of a factor look like.
-/

namespace WeakForm

open List Success MapEntries

variable {α : Type} {K : Type} [Field K] {β : Type} {e : Element} {t : Table K} {factor : Factor}
  {d : Dimensions} {tables : List (ScaledTable K)} {γ M : Type} {p k : Nat} {data : Dof}

theorem sum_eq_of_forall₂ [AddMonoid M] {R : β → γ → Prop} {xs : List β} {ys : List γ}
    (h : Forall₂ R xs ys) {f : β → M} {g : γ → M} (hfg : ∀ x ∈ xs, ∀ y, R x y → f x = g y) :
    (xs.map f).sum = (ys.map g).sum := by
  have hmem := (forall₂_and_left xs ys).2 ⟨fun x hx => hx, h⟩
  rw [map_eq_of_forall₂ hmem fun x y hxy => hfg x hxy.1 y hxy.2]

theorem sum_comm [AddCommMonoid M] (xs : List β) (ys : List γ) (f : β → γ → M) :
    (xs.map fun x => (ys.map (f x)).sum).sum = (ys.map fun y => (xs.map fun x => f x y).sum).sum := by
  induction xs with
  | nil => simp
  | cons x xs ih => simp only [map_cons, sum_cons, ih, sum_map_add]

theorem sum_map_filterMap [AddMonoid M] (f : β → Option γ) (g : γ → M) (xs : List β) :
    ((xs.filterMap f).map g).sum = (xs.map fun x => ((f x).map g).getD 0).sum := by
  induction xs with
  | nil => rfl
  | cons x xs ih =>
    rw [filterMap_cons, map_cons, sum_cons, ← ih]
    cases f x with
    | none => exact (zero_add _).symm
    | some y => rfl

theorem sum_filter (p : β → Prop) [DecidablePred p] (xs : List β) (f : β → K) :
    ((xs.filter p).map f).sum = (xs.map fun x => if p x then f x else 0).sum := by
  rw [sum_map_ite, map_const', sum_replicate, nsmul_zero, add_zero]

theorem sum_eq_of_pick (g : β → K) (xs : List β) (k : Nat)
    (h : ∀ n x, xs[n]? = some x → n ≠ k → g x = 0) : (xs.map g).sum = (xs[k]?.map g).getD 0 := by
  induction xs generalizing k with
  | nil => rfl
  | cons x xs ih =>
    rw [map_cons, sum_cons]
    cases k with
    | zero =>
      rw [getElem?_cons_zero, Option.map_some, Option.getD_some, sum_eq_zero, add_zero]
      intro y hy
      rcases mem_map.1 hy with ⟨z, hz, rfl⟩
      rcases mem_iff_getElem?.1 hz with ⟨n, hn⟩
      exact h (n + 1) z hn (by omega)
    | succ k =>
      rw [h 0 x rfl (by omega), zero_add, getElem?_cons_succ]
      exact ih k fun n y hy hn => h (n + 1) y hy (by omega)

theorem sum_zipIdx_eq_range (xs : List K) (f : Nat → K) : (xs.zipIdx.map fun x => x.1 * f x.2).sum =
      ((range xs.length).map fun s => xs[s]?.getD 0 * f s).sum := by
  congr 1
  apply ext_getElem
  · rw [length_map, length_zipIdx, length_map, length_range]
  · intro s hs hs'
    rw [length_map, length_zipIdx] at hs
    simp [hs]

namespace Table

variable {points dofs derivatives components : Nat}
  {f : Nat → Nat → Nat → Nat → α} {t : Table α}

theorem dims_ofFn (h : ofFn points dofs derivatives components f = .ok t) :
    t.points = points ∧ t.dofs = dofs ∧ t.derivatives = derivatives ∧ t.components = components := by
  rcases bind_eq_ok.1 h with ⟨size, _, h⟩
  rcases bind_eq_ok.1 h with ⟨_, _, h⟩
  cases h
  exact ⟨rfl, rfl, rfl, rfl⟩

theorem get_ofFn [Scalar α] (h : ofFn points dofs derivatives components f = .ok t) {p d s c : Nat}
    (hp : p < points) (hd : d < dofs) (hs : s < derivatives) (hc : c < components) :
    t.get p d s c = .ok (f p d s c) := by
  rcases dims_ofFn h with ⟨hpoints, hdofs, hderivatives, hcomponents⟩
  have hcontains : t.contains p d s c = true := by
    simp only [contains, hpoints, hdofs, hderivatives, hcomponents, Bool.and_eq_true,
      decide_eq_true_iff]
    exact ⟨⟨⟨hp, hd⟩, hs⟩, hc⟩
  rw [get, if_pos hcontains, entry_ofFn h hp hd hs hc]

end Table

/-- What a table of a Lagrange element is made of. A basis function vanishes in all components but
    its own. -/
theorem Tabulator.lagrange_values [LinearOrder K] [Root K] {points : List (List K)} {order : Nat}
    (h : Tabulator.lagrange e points order = .ok t) :
    isLagrange e = true ∧ (∀ point ∈ points, point.length = e.cell.dimension) ∧
      ∃ size derivatives values, e.referenceSize = .ok size ∧ (e.cell.dimension = 1 ∨ order < 64) ∧
        Tuple.axesCount e.cell.dimension order = .ok derivatives ∧
        Table.ofFn points.length e.spaceDimension derivatives (max size 1) values = .ok t ∧
        (∀ p k s c, (e.dofs.map fun dof => dof.referenceOffset)[k]? ≠ some c → values p k s c = 0) ∧
        ∀ p k s c point axes, points[p]? = some point →
          (Tuple.axes e.cell.dimension order)[s]? = some axes →
          values p k s c = if (e.dofs.map fun dof => dof.referenceOffset)[k]? = some c then
            let basis := scalarBasis e.degree e.cell.dimension point axes
            basis[k % basis.length]?.getD 0
          else 0 := by
  unfold Tabulator.lagrange at h
  simp only at h
  -- Only the last branch fills a table: the element is known, the points have as many
  -- coordinates as the cell, and all components exist.
  split at h
  · next hknown =>
    split at h
    · rcases bind_eq_ok.1 h with ⟨_, hthrow, _⟩
      cases hthrow
    · next hpoints =>
      rcases bind_eq_ok.1 h with ⟨size, hsize, h⟩
      rcases bind_eq_ok.1 h with ⟨_, hreserve, h⟩
      rcases bind_eq_ok.1 h with ⟨derivatives, hderivatives, h⟩
      split at h
      · refine ⟨hknown, fun point hpoint => ?_, size, derivatives, _, lift_fault_eq_ok.1 hsize, ?_,
          lift_fault_eq_ok.1 hderivatives, lift_fault_eq_ok.1 h, fun p k s c hne => ?_, ?_⟩
        · have hnone := Option.eq_none_iff_forall_ne_some.2 hpoints
          have hright := find?_eq_none.1 hnone point hpoint
          exact Decidable.not_not.1 fun hwrong => hright (decide_eq_true hwrong)
        · rcases bind_eq_ok.1 (lift_fault_eq_ok.1 hreserve) with ⟨count, hcount, _⟩
          have hpos := e.cell.dimension_pos
          have hbound := Size.pow_bound hcount
          omega
        · rw [getElem?_toArray, if_neg hne]
        · intro p k s c point axes hp hs
          simp [hp, hs]
      · rcases bind_eq_ok.1 h with ⟨_, hthrow, _⟩
        cases hthrow
  · rcases bind_eq_ok.1 h with ⟨_, hthrow, _⟩
    cases hthrow

def ScaledTable.entry (s : ScaledTable K) (p k : Nat) : K := ((s.values[p]?.getD [])[k]?).getD 0

/-- The sum of tables times the values of their geometry, at a point and a degree of freedom. -/
def ScaledTable.total [LinearOrder K] [Root K] (v : Symbol → K) (tables : List (ScaledTable K))
    (p k : Nat) : K :=
  (tables.map fun s => s.geometry.value v * s.entry p k).sum

/-- What the tables of a monomial contribute to the entry of an element tensor that a tuple of
    basis functions selects, with the given coefficient and values of the symbols. -/
def TermTables.entry [LinearOrder K] [Root K] (t : TermTables K) (v : Symbol → K) (coefficient : K)
    (dofs : List Nat) : K :=
  coefficient * v .scale * (t.weights.zipIdx.map fun w =>
    w.1 * (List.zipWith (fun x k => ScaledTable.total v x.1 w.2 k) t.factors dofs).prod).sum

variable {row : List K}

namespace Expand

variable (w : Powers → Contribution K → K)

/-- The sum of a function over collected contributions. -/
def sumOf (w : Powers → Contribution K → K) (acc : Collected K) : K :=
  (acc.map fun x => (x.2.map (w x.1)).sum).sum

theorem sumOf_collect (powers : Powers) (c : Contribution K) (acc : Collected K) :
    sumOf w (collect powers c acc) = sumOf w acc + w powers c := by
  unfold sumOf
  -- The contribution joins its own powers, is put in front of larger ones, or goes on.
  induction acc with
  | nil => simp [collect]
  | cons x acc ih =>
    rcases x with ⟨p, cs⟩
    rw [collect]
    split
    · next heq =>
      subst heq
      rw [map_cons, sum_cons, map_cons, sum_cons, map_append, sum_append, map_singleton,
        sum_singleton, add_right_comm]
    · split
      · rw [map_cons, sum_cons, map_singleton, sum_singleton, add_comm]
      · rw [map_cons, sum_cons, ih, map_cons, sum_cons, add_assoc]

theorem sumOf_foldl (xs : List (Powers × Contribution K)) (acc : Collected K) :
    sumOf w (xs.foldl (fun acc x => collect x.1 x.2 acc) acc) =
      sumOf w acc + (xs.map fun x => w x.1 x.2).sum := by
  induction xs generalizing acc with
  | nil => exact (add_zero _).symm
  | cons x xs ih => rw [foldl_cons, ih, sumOf_collect, map_cons, sum_cons, add_assoc]

section

variable {acc : Collected α} {powers : Powers} {c : Contribution α}

/-- Collected contributions are strictly increasing in their powers. -/
def Increasing (acc : Collected α) : Prop :=
  acc.Pairwise fun x y => x.1.orderKey < y.1.orderKey

variable {P : Powers → Prop}

theorem forall_mem_collect (h : P powers) (hacc : ∀ x ∈ acc, P x.1) :
    ∀ x ∈ collect powers c acc, P x.1 := by
  induction acc with
  | nil => exact forall_mem_singleton.2 h
  | cons y acc ih =>
    rw [forall_mem_cons] at hacc
    rw [collect]
    split
    · exact forall_mem_cons.2 hacc
    · split
      · exact forall_mem_cons.2 ⟨h, forall_mem_cons.2 hacc⟩
      · exact forall_mem_cons.2 ⟨hacc.1, ih hacc.2⟩

theorem forall_mem_foldl {xs : List (Powers × Contribution α)} (hxs : ∀ x ∈ xs, P x.1)
    (hacc : ∀ x ∈ acc, P x.1) :
    ∀ x ∈ xs.foldl (fun acc x => collect x.1 x.2 acc) acc, P x.1 := by
  induction xs generalizing acc with
  | nil => exact hacc
  | cons x xs ih =>
    rw [forall_mem_cons] at hxs
    exact ih hxs.2 (forall_mem_collect hxs.1 hacc)

theorem increasing_collect (h : Increasing acc) : Increasing (collect powers c acc) := by
  unfold Increasing at h ⊢
  induction acc with
  | nil => exact pairwise_singleton _ _
  | cons x acc ih =>
    rcases x with ⟨p, cs⟩
    rw [pairwise_cons] at h
    rw [collect]
    split
    · exact pairwise_cons.2 ⟨h.1, h.2⟩
    · next hne =>
      split
      · next hbefore =>
        rw [Powers.before_iff] at hbefore
        refine pairwise_cons.2 ⟨?_, pairwise_cons.2 h⟩
        intro y hy
        rcases mem_cons.1 hy with rfl | hy
        · exact hbefore
        · exact lt_trans hbefore (h.1 y hy)
      · next hafter =>
        -- Neither equal nor in front, so behind: the order is linear.
        rw [Powers.before_iff, not_lt] at hafter
        have hlt : p.orderKey < powers.orderKey :=
          lt_of_le_of_ne hafter fun heq => hne (Powers.orderKey_injective heq).symm
        exact pairwise_cons.2 ⟨forall_mem_collect (P := (p.orderKey < ·.orderKey)) hlt h.1, ih h.2⟩

theorem increasing_foldl (xs : List (Powers × Contribution α)) (h : Increasing acc) :
    Increasing (xs.foldl (fun acc x => collect x.1 x.2 acc) acc) := by
  induction xs generalizing acc with
  | nil => exact h
  | cons x xs ih => exact ih (increasing_collect h)

end

variable [LinearOrder K] [Root K] {p k : Nat} {axes : Checked (List Nat)} {data : Dof}
  {xs : List (Powers × Contribution α)}

/-- The sum of the contributions to an entry of a table. -/
def entrySum (t : Table K) (p k : Nat) (cs : List (Contribution K)) : K :=
  ((cs.filter fun c => c.dof = k).map fun c =>
    c.coefficient * t.entry p k c.derivative c.component).sum

theorem values_get [IsStrictOrderedRing K] {cs : List (Contribution K)} (hp : p < t.points)
    (hk : k < t.dofs) : (((values t 0 cs)[p]?.getD [])[k]?).getD 0 = entrySum t p k cs := by
  unfold values entrySum
  -- No magnitude is below zero, so a threshold of zero drops nothing.
  have hzero : ∀ x : K, (if Scalar.lt (Scalar.abs x) 0 = true then (0 : K) else x) = x := by
    intro x
    rw [if_neg]
    rw [Scalar.lt_eq_true, Scalar.abs_eq_abs]
    exact not_lt.2 (abs_nonneg x)
  simp only [getElem?_map, getElem?_range hp, getElem?_range hk, Option.map_some, Option.getD_some]
  rw [hzero, Scalar.foldl_add_eq_sum]
  exact zero_add _

/-- The physical components of a degree of freedom include a given one. -/
def Covers (d : Dimensions) (component : Nat) (data : Dof) : Prop :=
  data.physicalOffset ≤ component ∧
    component < data.physicalOffset + data.mapping.components d.gdim

/-- The contribution of a chain and an entry of the row, which both come with their position. -/
def IsProduct [Scalar α] (k offset : Nat) (scale : GeometryMonomial α)
    (x y : GeometryMonomial α × Nat) (z : Powers × Contribution α) : Prop :=
  ∃ b c : GeometryMonomial α, x.1.mul scale = .ok b ∧ b.mul y.1 = .ok c ∧
    z = (c.powers, ⟨k, c.coefficient, x.2, offset + y.2⟩)

/-- The contributions of a degree of freedom that covers the component are the products of a chain
    with the scale and an entry of the row, in the places of their derivative and component. -/
theorem dofContributions_eq_ok [Scalar α] {t : Table α}
    (h : dofContributions factor t (symbolic d factor.side) axes k data = .ok xs) :
    (¬ Covers d factor.component data ∧ xs = []) ∨
      (Covers d factor.component data ∧ ∃ g mapped chains lists, axes = .ok g ∧
        valueTransform data.mapping (factor.component - data.physicalOffset) data.components
          (symbolic d factor.side : MapEntries (GeometryMonomial α)) = .ok mapped ∧
        derivativeRow factor.order (symbolic d factor.side) g = .ok chains ∧ xs = lists.flatten ∧
        Forall₂ (fun x ys =>
          Forall₂ (IsProduct k data.referenceOffset mapped.scale x) mapped.row.zipIdx ys)
          chains.zipIdx lists) := by
  unfold dofContributions at h
  rcases bind_eq_ok.1 h with ⟨stop, hstop, h⟩
  rw [lift_fault_eq_ok] at hstop
  have hstop := Size.add_eq_ok hstop
  subst hstop
  split at h
  · next hcovers =>
    refine Or.inr ⟨hcovers, ?_⟩
    rcases bind_eq_ok.1 h with ⟨mapped, hmapped, h⟩
    rcases bind_eq_ok.1 h with ⟨g, hg, h⟩
    rcases bind_eq_ok.1 h with ⟨chains, hchains, h⟩
    rcases bind_eq_ok.1 h with ⟨_, _, h⟩
    rcases bind_eq_ok.1 h with ⟨lists, hlists, h⟩
    refine ⟨g, mapped, chains, lists, lift_fault_eq_ok.1 hg, hmapped, lift_fault_eq_ok.1 hchains,
      (pure_eq_ok.1 h).symm, ?_⟩
    -- There is a list for every chain, with a contribution for every entry of the row.
    rw [mapM_eq_ok] at hlists
    refine hlists.imp fun x ys hys => ?_
    rw [mapM_eq_ok] at hys
    refine hys.imp fun y z hz => ?_
    rcases bind_eq_ok.1 hz with ⟨b, hb, hz⟩
    rcases bind_eq_ok.1 hz with ⟨c, hc, hz⟩
    exact ⟨b, c, lift_fault_eq_ok.1 hb, lift_fault_eq_ok.1 hc, (pure_eq_ok.1 hz).symm⟩
  · next hcovers =>
    exact Or.inl ⟨hcovers, (pure_eq_ok.1 h).symm⟩

/-- The value of a degree of freedom on the cell: the sum over all chains of derivatives of the
    mapped reference values, which are read by derivative and component. -/
def physicalSum (chains : List K) (scale : K) (row : List K) (offset : Nat) (f : Nat → Nat → K) :
    K :=
  (chains.zipIdx.map fun x =>
    x.1 * (scale * (row.zipIdx.map fun y => y.1 * f x.2 (offset + y.2)).sum)).sum

/-- The contributions of a degree of freedom add up to its value on the cell. -/
theorem dofContributions_sum {g : List Nat} {xs : List (Powers × Contribution K)}
    (h : dofContributions factor t (symbolic d factor.side) (.ok g) k data = .ok xs)
    (hcovers : Covers d factor.component data) (hg : ∀ axis ∈ g, axis < d.gdim) (v : Symbol → K)
    (f : Nat → Nat → K) {scale : K}
    (hvalued : valueEntries data.mapping (factor.component - data.physicalOffset)
      (valued d factor.side v) = .ok (scale, row)) :
    (xs.map fun x => x.1.value v * (x.2.coefficient * f x.2.derivative x.2.component)).sum =
      physicalSum ((Tuple.axes d.tdim factor.order).map (chainFactor factor.side v g)) scale row
        data.referenceOffset f := by
  rcases dofContributions_eq_ok h with ⟨hnot, _⟩ | ⟨_, g', mapped, chains, lists, hg', hmapped,
    hchains, rfl, hlists⟩
  · exact absurd hcovers hnot
  cases hg'
  have hrelated := symbolic_related_valued d factor.side v
  have hentries := (valueTransform_eq_ok.1 hmapped).2.1
  have hcomponent : factor.component - data.physicalOffset < data.mapping.components d.gdim := by
    unfold Covers at hcovers
    omega
  rcases valueEntries_related hrelated hcomponent hentries hvalued with ⟨hscale, hrow⟩
  -- Chains and entries of the row are paired with their values, position by position.
  have hrows := derivativeRow_related hrelated hg hchains (derivativeRow_valued _ d _ v g)
  have hchain := forall₂_zipIdx hrows 0
  have hentry := forall₂_zipIdx hrow 0
  have hsigned := forall₂_left hchain fun _ _ h => h.1.signed
  have hsigned' := forall₂_left hentry fun _ _ h => h.1.signed
  -- The value of a product is the product of three values.
  have hproduct : ∀ x y z, x.1.powers.Signed → y.1.powers.Signed →
      IsProduct k data.referenceOffset mapped.scale x y z →
        x.1.value v * scale * (y.1.value v * f x.2 (data.referenceOffset + y.2)) =
          z.1.value v * (z.2.coefficient * f z.2.derivative z.2.component) := by
    rintro x y z hx hy ⟨b, c, hb, hc, rfl⟩
    rcases GeometryMonomial.mul_spec hb hx hscale.signed v with ⟨hb', hbvalue, _⟩
    rcases GeometryMonomial.mul_spec hc hb' hy v with ⟨_, hcvalue, _⟩
    rw [GeometryMonomial.value_eq, hbvalue, hscale.value] at hcvalue
    change _ = c.powers.value v * (c.coefficient * f x.2 (data.referenceOffset + y.2))
    rw [← mul_assoc (c.powers.value v), mul_comm (c.powers.value v), hcvalue]
    exact (mul_assoc _ _ _).symm
  unfold physicalSum
  -- The outer sum runs over the chains, the inner one over the entries of the row.
  rw [map_flatten, sum_flatten, map_map, ← sum_eq_of_forall₂ hchain
    (f := fun x => x.1.value v * (scale *
      (row.zipIdx.map fun y => y.1 * f x.2 (data.referenceOffset + y.2)).sum))
    (fun x _ x' h => by rw [h.1.value, h.2])]
  refine (sum_eq_of_forall₂ hlists fun x hx ys hys => ?_).symm
  rw [← mul_assoc, ← sum_map_mul_left, ← sum_eq_of_forall₂ hentry
    (f := fun y => x.1.value v * scale * (y.1.value v * f x.2 (data.referenceOffset + y.2)))
    (fun y _ y' h => by rw [h.1.value, h.2])]
  exact sum_eq_of_forall₂ hys fun y hy z hz => hproduct x y z (hsigned x hx) (hsigned' y hy) hz

theorem dof_of_mem_dofContributions {xs : List (Powers × Contribution K)}
    (h : dofContributions factor t (symbolic d factor.side) axes k data = .ok xs) :
    ∀ x ∈ xs, x.2.dof = k := by
  intro z hz
  rcases dofContributions_eq_ok h with ⟨_, rfl⟩ | ⟨_, g, mapped, chains, lists, _, _, _, rfl, hlists⟩
  · cases hz
  rcases mem_flatten.1 hz with ⟨ys, hys, hzys⟩
  rcases forall₂_mem hlists.flip hys with ⟨x, _, hx⟩
  rcases forall₂_mem hx.flip hzys with ⟨y, _, _, _, _, _, rfl⟩
  rfl

variable {R : GeometryMonomial α → K → Prop} {v : Symbol → K}

omit [LinearOrder K] [Root K] in
/-- What holds of the entries of a cell and of their products holds of all contributions. Any
    values of the symbols will do: only the relation to them is of interest. -/
theorem related_of_mem_dofContributions [Scalar α] {t : Table α}
    (hrelated : (symbolic d factor.side).Related R (valued d factor.side v))
    (h : dofContributions factor t (symbolic d factor.side) axes k data = .ok xs)
    (haxes : ∀ g, axes = .ok g → ∀ axis ∈ g, axis < d.gdim) :
    ∀ x ∈ xs, ∃ c y, x.1 = c.powers ∧ R c y := by
  intro z hz
  rcases dofContributions_eq_ok h with ⟨_, rfl⟩ | ⟨hcovers, g, mapped, chains, lists, hg, hmapped,
    hchains, rfl, hlists⟩
  · cases hz
  have hcomponent : factor.component - data.physicalOffset < data.mapping.components d.gdim := by
    unfold Covers at hcovers
    omega
  rcases valueEntries_valued data.mapping (factor.component - data.physicalOffset) d factor.side v
    with ⟨scale, row, hvalued⟩
  rcases valueEntries_related hrelated hcomponent (valueTransform_eq_ok.1 hmapped).2.1 hvalued
    with ⟨hscale, hrow⟩
  have hrows := derivativeRow_related hrelated (haxes g hg) hchains (derivativeRow_valued _ d _ v g)
  have hchain := forall₂_left (forall₂_zipIdx hrows 0) fun x y h => (⟨y.1, h.1⟩ : ∃ y, R x.1 y)
  have hentry := forall₂_left (forall₂_zipIdx hrow 0) fun x y h => (⟨y.1, h.1⟩ : ∃ y, R x.1 y)
  rcases mem_flatten.1 hz with ⟨ys, hys, hzys⟩
  rcases forall₂_mem hlists.flip hys with ⟨x, hx, hxys⟩
  rcases forall₂_mem hxys.flip hzys with ⟨y, hy, b, c, hb, hc, rfl⟩
  rcases hchain x hx with ⟨x', hx'⟩
  rcases hentry y hy with ⟨y', hy'⟩
  exact ⟨c, _, rfl, hrelated.mul (hrelated.mul hx' hscale hb rfl) hy' hc rfl⟩

theorem shape_values [Scalar α] (t : Table α) (epsilon : α) (cs : List (Contribution α)) :
    (values t epsilon cs).length = t.points ∧ ∀ row ∈ values t epsilon cs, row.length = t.dofs := by
  unfold values
  refine ⟨by rw [length_map, length_range], fun row hrow => ?_⟩
  rcases mem_map.1 hrow with ⟨p, _, rfl⟩
  rw [length_map, length_map, length_range]

/-- The table of collected contributions, unless it vanishes. -/
def scaledTable [Scalar α] (t : Table α) (epsilon : α)
    (x : Powers × List (Contribution α)) : Option (ScaledTable α) :=
  if (values t epsilon x.2).any fun row => row.any Scalar.nonzero then
    some ⟨⟨1, x.1⟩, values t epsilon x.2⟩
  else none

variable {epsilon : α}

theorem expandFactor_eq_ok [Scalar α] {t : Table α} {tables : List (ScaledTable α)}
    (h : expandFactor e factor t d epsilon = .ok tables) :
    ∃ number lists, Tuple.axesNumber d.gdim factor.derivatives = .ok number ∧
      Forall₂ (fun x xs => dofContributions factor t (symbolic d factor.side)
        (entryAt (Tuple.axes d.gdim factor.order) number) x.2 x.1 = .ok xs) e.dofs.zipIdx lists ∧
      tables = (lists.flatten.foldl (fun acc x => collect x.1 x.2 acc) []).filterMap
        (scaledTable t epsilon) := by
  unfold expandFactor at h
  rcases bind_eq_ok.1 h with ⟨_, _, h⟩
  rcases bind_eq_ok.1 h with ⟨_, _, h⟩
  rcases bind_eq_ok.1 h with ⟨number, hnumber, h⟩
  rcases bind_eq_ok.1 h with ⟨lists, hlists, h⟩
  exact ⟨number, lists, lift_fault_eq_ok.1 hnumber, mapM_eq_ok.1 hlists, (pure_eq_ok.1 h).symm⟩

variable {s : ScaledTable α}

theorem scaledTable_eq_some [Scalar α] {t : Table α} {x : Powers × List (Contribution α)}
    (h : scaledTable t epsilon x = some s) :
    ((values t epsilon x.2).any fun row => row.any Scalar.nonzero) = true ∧
      s = ⟨⟨1, x.1⟩, values t epsilon x.2⟩ := by
  unfold scaledTable at h
  split at h
  · next hany => exact ⟨hany, (Option.some.inj h).symm⟩
  · cases h

/-- Tables do not vanish. They have a row for each point, and a value for each degree of freedom. -/
theorem of_mem_expandFactor [Scalar α] {t : Table α} {tables : List (ScaledTable α)}
    (h : expandFactor e factor t d epsilon = .ok tables) (hs : s ∈ tables) :
    s.geometry.coefficient = 1 ∧ (s.values.any fun row => row.any Scalar.nonzero) = true ∧
      s.values.length = t.points ∧ ∀ row ∈ s.values, row.length = t.dofs := by
  rcases expandFactor_eq_ok h with ⟨_, lists, _, _, rfl⟩
  rcases mem_filterMap.1 hs with ⟨x, _, hx⟩
  rcases scaledTable_eq_some hx with ⟨hany, rfl⟩
  exact ⟨rfl, hany, shape_values t epsilon x.2⟩

omit [LinearOrder K] [Root K] in
theorem related_of_mem_expandFactor [Scalar α] {t : Table α} {tables : List (ScaledTable α)}
    (hrelated : (symbolic d factor.side).Related R (valued d factor.side v))
    (h : expandFactor e factor t d epsilon = .ok tables) :
    ∀ s ∈ tables, ∃ c y, s.geometry.powers = c.powers ∧ R c y := by
  intro s hs
  rcases expandFactor_eq_ok h with ⟨number, lists, _, hlists, rfl⟩
  rcases mem_filterMap.1 hs with ⟨x, hx, hxs⟩
  rw [(scaledTable_eq_some hxs).2]
  refine forall_mem_foldl (P := fun p => ∃ c y, p = GeometryMonomial.powers c ∧ R c y) ?_
    (forall_mem_nil _) x hx
  refine forall_mem_flatten.2 (forall₂_left hlists.flip fun ys z hz => ?_)
  refine related_of_mem_dofContributions hrelated hz fun g hg => ?_
  exact (Tuple.mem_axes_iff.1 (mem_of_getElem? (entryAt_eq_ok.1 hg))).2

theorem get_eq_zero_of_vanishing {rows : List (List K)}
    (h : ¬ (rows.any fun row => row.any Scalar.nonzero) = true) (p k : Nat) :
    ((rows[p]?.getD [])[k]?).getD 0 = 0 := by
  cases hp : rows[p]? with
  | none => simp only [Option.getD_none, getElem?_nil]
  | some row =>
    rw [Option.getD_some]
    cases hk : row[k]? with
    | none => rfl
    | some x =>
      rw [Option.getD_some]
      by_contra hx
      refine h (any_eq_true.2 ⟨row, mem_of_getElem? hp, ?_⟩)
      exact any_eq_true.2 ⟨x, mem_of_getElem? hk, Scalar.nonzero_eq_true.2 hx⟩

theorem total_filterMap [IsStrictOrderedRing K] (v : Symbol → K) (hp : p < t.points)
    (hk : k < t.dofs) (acc : Collected K) :
    ScaledTable.total v (acc.filterMap (scaledTable t 0)) p k =
      sumOf (fun powers c => powers.value v * if c.dof = k then
        c.coefficient * t.entry p k c.derivative c.component else 0) acc := by
  -- All values of one table share their powers.
  have hentry : ∀ x : Powers × List (Contribution K), x.1.value v * entrySum t p k x.2 =
      (x.2.map fun c => x.1.value v * if c.dof = k then
        c.coefficient * t.entry p k c.derivative c.component else 0).sum := by
    intro x
    rw [sum_map_mul_left, entrySum, sum_filter]
  unfold ScaledTable.total sumOf
  induction acc with
  | nil => rfl
  | cons x acc ih =>
    rw [map_cons, sum_cons, ← ih, ← hentry, ← values_get hp hk]
    -- A table that is left out would have added zero.
    by_cases hzero : ((values t 0 x.2).any fun row => row.any Scalar.nonzero) = true
    · rw [filterMap_cons_some (scaledTable.eq_1 t 0 x ▸ if_pos hzero), map_cons, sum_cons,
        GeometryMonomial.value_eq, one_mul]
      rfl
    · rw [filterMap_cons_none (scaledTable.eq_1 t 0 x ▸ if_neg hzero),
        get_eq_zero_of_vanishing hzero, mul_zero, zero_add]

end Expand

open Expand

section

variable [LinearOrder K] [Root K] [IsStrictOrderedRing K]
  (h : expandFactor e factor t d 0 = .ok tables)
  (haxes : ∀ axis ∈ factor.derivatives, axis < d.gdim) (v : Symbol → K) (hp : p < t.points)
  (hk : k < t.dofs) (hdata : e.dofs[k]? = some data)

include h haxes hp hk hdata

/-- The sum of the tables of a factor, as a sum over the contributions of one degree of
    freedom. -/
theorem expandFactor_total_eq_sum :
    ∃ xs, dofContributions factor t (symbolic d factor.side) (.ok factor.derivatives) k
        data = .ok xs ∧ ScaledTable.total v tables p k = (xs.map fun x =>
        x.1.value v * (x.2.coefficient * t.entry p k x.2.derivative x.2.component)).sum := by
  rcases expandFactor_eq_ok h with ⟨number, lists, hnumber, hlists, rfl⟩
  have hentry : entryAt (Tuple.axes d.gdim factor.order) number = .ok factor.derivatives :=
    entryAt_eq_ok.2 (Tuple.get_axesNumber hnumber haxes)
  rw [hentry] at hlists
  -- The contributions are listed by degree of freedom, so those of `k` are at position `k`.
  have hzip : e.dofs.zipIdx[k]? = some (data, k) := by
    rw [getElem?_zipIdx, hdata, Option.map_some, Nat.zero_add]
  rcases forall₂_get hlists hzip with ⟨xs, hxs, hcontributions⟩
  refine ⟨xs, hcontributions, ?_⟩
  rw [total_filterMap v hp hk, sumOf_foldl, map_flatten, sum_flatten, map_map, sum_eq_of_pick _ _ k,
    hxs, Option.map_some, Option.getD_some]
  · rw [show sumOf _ ([] : Collected K) = 0 from rfl, zero_add]
    refine congrArg List.sum (map_congr_left fun x hx => ?_)
    rw [if_pos (dof_of_mem_dofContributions hcontributions x hx)]
  · -- The contributions of other degrees of freedom do not count.
    intro n ys hys hn
    rcases forall₂_get hlists.flip hys with ⟨y, hy, hcontributions⟩
    rw [getElem?_zipIdx] at hy
    apply sum_eq_zero
    intro z hz
    rcases mem_map.1 hz with ⟨x, hx, rfl⟩
    rw [if_neg, mul_zero]
    rw [dof_of_mem_dofContributions hcontributions x hx]
    intro heq
    rcases Option.map_eq_some_iff.1 hy with ⟨_, _, hy⟩
    rw [← hy] at heq
    omega

/-- The tables of a factor times the values of their geometry add up to the value of every degree
    of freedom that covers its component. -/
theorem expandFactor_total (hcovers : Covers d factor.component data) {scale : K}
    (hvalued : valueEntries data.mapping (factor.component - data.physicalOffset)
      (valued d factor.side v) = .ok (scale, row)) : ScaledTable.total v tables p k =
      physicalSum ((Tuple.axes d.tdim factor.order).map (chainFactor factor.side v factor.derivatives))
        scale row data.referenceOffset (t.entry p k) := by
  rcases expandFactor_total_eq_sum h haxes v hp hk hdata with ⟨xs, hxs, htotal⟩
  rw [htotal, ← dofContributions_sum hxs hcovers haxes v (t.entry p k) hvalued]

/-- Degrees of freedom whose physical components do not include that of the factor contribute
    nothing. -/
theorem expandFactor_total_of_not_covers (hcovers : ¬ Covers d factor.component data) :
    ScaledTable.total v tables p k = 0 := by
  rcases expandFactor_total_eq_sum h haxes v hp hk hdata with ⟨xs, hxs, htotal⟩
  rcases dofContributions_eq_ok hxs with ⟨_, rfl⟩ | ⟨hyes, _⟩
  · exact htotal
  · exact absurd hyes hcovers

end

theorem expandFactor_tables [LinearOrder K] [Root K] {epsilon : K}
    (h : expandFactor e factor t d epsilon = .ok tables) :
    (tables.Pairwise fun s s' => s.geometry.powers ≠ s'.geometry.powers) ∧
      ∀ s ∈ tables, s.geometry.coefficient = 1 ∧ s.geometry.powers.Signed ∧
        s.geometry.powers.Over (Symbol.Within d) ∧ s.values.length = t.points ∧
        (∀ row ∈ s.values, row.length = t.dofs) ∧ ∃ row ∈ s.values, ∃ x ∈ row, x ≠ 0 := by
  refine ⟨?_, fun s hs => ?_⟩
  · rcases expandFactor_eq_ok h with ⟨number, lists, _, _, rfl⟩
    rw [pairwise_filterMap]
    refine (increasing_foldl lists.flatten Pairwise.nil).imp ?_
    intro x y hxy s hs s' hs'
    rw [(scaledTable_eq_some hs).2, (scaledTable_eq_some hs').2]
    intro heq
    exact absurd (congrArg Powers.orderKey heq) (ne_of_lt hxy)
  · rcases related_of_mem_expandFactor (symbolic_related_valued d factor.side fun _ => (1 : K)) h s hs
      with ⟨c, y, hpowers, hc⟩
    rcases of_mem_expandFactor h hs with ⟨hcoefficient, hany, hvalues, hwidth⟩
    rw [hpowers]
    refine ⟨hcoefficient, hc.signed, hc.within, hvalues, hwidth, ?_⟩
    rcases any_eq_true.1 hany with ⟨row, hrow, hrow'⟩
    rcases any_eq_true.1 hrow' with ⟨y, hy, hy'⟩
    exact ⟨row, hrow, y, hy, Scalar.nonzero_eq_true.1 hy'⟩

end WeakForm
