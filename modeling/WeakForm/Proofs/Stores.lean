import WeakForm.Proofs.Expansion
import WeakForm.Proofs.Reading
import WeakForm.Proofs.TableSharing

/-!
# What stores hold

Tables, lists of columns, weights and geometry constants are declared once and read
under the name that a store hands out. Two things make this sound. What a store
holds under a name is what was asked to be stored, or something that cannot be told
from it. And stores only ever grow at their end, so a name that was handed out stays
good until everything is declared.

A compressed table holds some columns of the table it stands for. `TableStore.Holds`
says which: the columns it holds are listed, the others are zero. Adding up what a
stored table holds for one column of the original therefore gives that column, also
if it was left out, and this is how loops over stored columns are compared with
loops over all of them.

## Main definitions

* `TableStore.Holds`: A stored table stands for a table.

## Theorems

* `exec_declarations`: What is in scope after the declarations.
-/

namespace WeakForm

open List Success TableRef

variable {α : Type} {K : Type} [Field K] [LinearOrder K] [Root K] {β : Type}

theorem sameRow_iff {xs ys : List K} : sameRow xs ys = true ↔ xs = ys := by
  simp only [sameRow_iff_forall₂, Scalar.same_eq_true, forall₂_eq_eq_eq]

theorem sameRows_iff {xs ys : List (List K)} : sameRows xs ys = true ↔ xs = ys := by
  simp only [sameRows_iff_forall₂, sameRow_iff, forall₂_eq_eq_eq]

section

variable {K : Type} [Field K] {tables : Nat → Option (List (List K))}
  {columns : Nat → Option (List Nat)} {ref : TableRef} {rows : List (List K)}

/-- The column of the table it stands for that a column of a stored table holds. -/
def TableRef.column (columns : Nat → Option (List Nat)) (ref : TableRef) (j : Nat) : Nat :=
  match ref.nonzero with
  | none => j
  | some number => ((columns number).getD [])[j]?.getD 0

/-- The stored table stands for the given rows: it holds different columns of them, and the columns
    it does not hold are zero. -/
structure TableRef.Holds (tables : Nat → Option (List (List K))) (columns : Nat → Option (List Nat))
    (ref : TableRef) (rows : List (List K)) : Prop where
  listed : ∀ number ∈ ref.nonzero, ∃ cols, columns number = some cols ∧ cols.length = ref.columns
  stored : tables ref.number = some (rows.map fun row =>
    (List.range ref.columns).map fun j => row[ref.column columns j]?.getD 0)
  nodup : ((List.range ref.columns).map (ref.column columns)).Nodup
  inside : ∀ j < ref.columns, ∀ row ∈ rows, ref.column columns j < row.length
  zero : ∀ row ∈ rows, ∀ i, i ∉ (List.range ref.columns).map (ref.column columns) →
    row[i]?.getD 0 = 0

theorem TableRef.Holds.sum_column (h : ref.Holds tables columns rows) {row : List K}
    (hrow : row ∈ rows) (i : Nat) : ((range ref.columns).map fun j =>
      if ref.column columns j = i then row[ref.column columns j]?.getD 0 else 0).sum =
      row[i]?.getD 0 := by
  by_cases hi : i ∈ (range ref.columns).map (ref.column columns)
  · rcases mem_map.1 hi with ⟨k, hk, rfl⟩
    rw [mem_range] at hk
    rw [sum_eq_of_pick _ _ k fun n j hj hn => ?_]
    · rw [getElem?_range hk, Option.map_some, Option.getD_some, if_pos rfl]
    · -- Different columns of the stored table hold different columns.
      rcases List.getElem?_eq_some_iff.1 hj with ⟨hlt, rfl⟩
      rw [length_range] at hlt
      rw [getElem_range, if_neg]
      intro heq
      have hinj := inj_on_of_nodup_map h.nodup (mem_range.2 hlt) (mem_range.2 hk) heq
      exact hn hinj
  · rw [h.zero row hrow i hi]
    refine sum_eq_zero fun x hx => ?_
    rcases mem_map.1 hx with ⟨j, hj, rfl⟩
    exact if_neg fun heq => hi (mem_map.2 ⟨j, hj, heq⟩)

theorem TableRef.map_column {number : Nat} (href : ref.nonzero = some number) {cols : List Nat}
    (hcols : columns number = some cols) (hlength : cols.length = ref.columns) :
    (range ref.columns).map (ref.column columns) = cols := by
  apply ext_getElem
  · rw [length_map, length_range, hlength]
  · intro j hj hj'
    rw [getElem_map, getElem_range, column, href]
    simp only [hcols, Option.getD_some, getElem?_eq_getElem hj']

theorem TableRef.map_column_of_none (href : ref.nonzero = none) :
    (range ref.columns).map (ref.column columns) = range ref.columns := by
  rw [show ref.column columns = id from funext fun j => by rw [column, href]; rfl,
    map_id]

theorem TableRef.holds_of_columns {cols : List Nat}
    (hcols : (range ref.columns).map (ref.column columns) = cols)
    (hlisted : ∀ number ∈ ref.nonzero, ∃ cols, columns number = some cols ∧
      cols.length = ref.columns)
    (hstored : tables ref.number = some (rows.map fun row => cols.map fun i => row[i]?.getD 0))
    (hnodup : cols.Nodup) (hinside : ∀ i ∈ cols, ∀ row ∈ rows, i < row.length)
    (hzero : ∀ row ∈ rows, ∀ i, i ∉ cols → row[i]?.getD 0 = 0) : ref.Holds tables columns rows := by
  subst hcols
  refine ⟨hlisted, ?_, hnodup, fun j hj => hinside _ (mem_map_of_mem (mem_range.2 hj)), hzero⟩
  rw [hstored]
  simp only [map_map]
  rfl

end

namespace TableStore

section

variable {K : Type} [Field K]

/-- The table that the store holds under a reference. -/
def Holds (s : TableStore K) (ref : TableRef) (rows : List (List K)) : Prop :=
  ref.Holds (fun n => s.tables[n]?) (fun n => s.columns[n]?) rows

end

/-- A table that is kept is held: the columns that are not stored hold zeros only. -/
theorem Keeps.holds {s : TableStore K} {ref : TableRef} {rows : List (List K)}
    (h : s.Keeps ref rows) (hrows : Rectangular rows) : s.Holds ref rows := by
  rcases h.listed_positions with ⟨hlisted, hall⟩
  have hcolumn : (range ref.columns).map (ref.column fun n => s.columns[n]?) =
      positions s.compress rows := by
    cases href : ref.nonzero with
    | none => rw [map_column_of_none href, hall href]
    | some number => exact map_column href (hlisted number href) h.columns.symm
  have hinside : ∀ i ∈ positions s.compress rows, ∀ row ∈ rows, i < row.length :=
    fun i hi row hrow => hrows row hrow ▸ positions_lt s.compress rows i hi
  refine holds_of_columns hcolumn (fun number hnumber => ⟨_, hlisted number hnumber, h.columns.symm⟩)
    ?_ ((positions_increasing s.compress rows).imp Nat.ne_of_lt) hinside fun row hrow i hi => ?_
  · rcases h.table with ⟨stored, hstored, hsame⟩
    rw [hstored, ← sameRows_iff.1 hsame, kept, Option.some.injEq]
    exact map_congr_left fun row hrow => filterMap_get_eq_map fun i hi => hinside i hi row hrow
  · cases hx : row[i]? with
    | none => rfl
    | some x =>
      have hwidth : i < tableWidth rows := hrows row hrow ▸ (List.getElem?_eq_some_iff.1 hx).1
      exact Scalar.eq_eq_true.1 (eq_zero_of_columnFilled (columnFilled_of_notMem hwidth hi) hrow hx)

end TableStore

/-- The weights with the names they are declared under, in the order of the declarations. -/
def WeightStore.declared (s : WeightStore α) : List (Nat × List α) :=
  s.groups.map fun g => (g.2.head?.getD 0, g.1)

/-- The weights are named after different terms, all below a bound. -/
structure WeightStore.Named (s : WeightStore α) (bound : Nat) : Prop where
  used : ∀ g ∈ s.groups, g.2 ≠ []
  below : ∀ x ∈ s.declared, x.1 < bound
  nodup : (s.declared.map Prod.fst).Nodup

namespace ConstantStore

variable {number : K → String} {numbers : AddSubgroup K} {literal : List Char → Option K}

/-- Every constant is filed under its own text, and can be read. -/
def Sound (number : K → String) (numbers : AddSubgroup K) (s : ConstantStore K) : Prop :=
  ∀ c ∈ s.constants, c.1 = c.2.toExpr.text Cpp.operators Cpp.symbol number ∧ c.2.Readable numbers

/-- A registered sum has the value of the constant that stands for it, and the store grows. -/
theorem register_sound [IsStrictOrderedRing K] (hnumber : Legible number numbers literal)
    {s : ConstantStore K} (hs : s.Sound number numbers) {sum : GeometrySum K}
    (hsum : sum.Readable numbers) : (s.register number sum).2.Sound number numbers ∧
      s.constants <+: (s.register number sum).2.constants ∧
      ∃ c, (s.register number sum).2.constants[(s.register number sum).1]? = some c ∧
        ∀ v, c.2.value v = sum.value v := by
  unfold register
  simp only
  split
  · next k hk =>
    rcases get_of_findIdx? hk with ⟨c, hc, htext⟩
    have hmem := mem_of_getElem? hc
    refine ⟨hs, List.prefix_refl _, c, hc, fun v => ?_⟩
    -- The constant may be another sum than the registered one, but with the same text.
    rw [beq_iff_eq, (hs c hmem).1] at htext
    exact GeometrySum.value_eq_of_text_eq hnumber (hs c hmem).2 hsum htext v
  · exact ⟨forall_mem_append.2 ⟨hs, forall_mem_singleton.2 ⟨rfl, hsum⟩⟩,
      List.prefix_append _ _, _, getElem?_concat_length, fun v => rfl⟩

end ConstantStore

/-- A scope after declarations, each with its name. -/
def declareAll {N β : Type} [DecidableEq N] (scope : N → Option β) : List (N × β) → N → Option β
  | [] => scope
  | x :: xs => declareAll (fun n => if n = x.1 then some x.2 else scope n) xs

section

variable {N β : Type} {scope : N → Option β} {xs : List (N × β)} {n : N}

theorem declareAll_of_not_mem [DecidableEq N] (h : n ∉ xs.map Prod.fst) :
    declareAll scope xs n = scope n := by
  induction xs generalizing scope with
  | nil => rfl
  | cons x xs ih =>
    rw [map_cons, mem_cons, not_or] at h
    rw [declareAll, ih h.2, if_neg h.1]

theorem declareAll_of_mem [DecidableEq N] (hnodup : (xs.map Prod.fst).Nodup) {x : β}
    (h : (n, x) ∈ xs) : declareAll scope xs n = some x := by
  induction xs generalizing scope with
  | nil => cases h
  | cons y xs ih =>
    rw [map_cons, nodup_cons] at hnodup
    rw [declareAll]
    rcases mem_cons.1 h with rfl | h
    · rw [declareAll_of_not_mem hnodup.1, if_pos rfl]
    · exact ih hnodup.2 h

theorem declareAll_zipIdx {γ : Type} (value : γ → β) (xs : List γ) :
    declareAll (fun _ => none) (xs.zipIdx.map fun x => (x.2, value x.1)) =
      fun n => xs[n]?.map value := by
  have hfst : (xs.zipIdx.map fun x => (x.2, value x.1)).map Prod.fst = range xs.length := by
    rw [map_map, range_eq_range', ← zipIdx_map_snd 0 xs]
    rfl
  funext n
  cases hn : xs[n]? with
  | none =>
    refine declareAll_of_not_mem ?_
    rw [hfst, mem_range, not_lt]
    exact List.getElem?_eq_none_iff.1 hn
  | some x =>
    refine declareAll_of_mem (hfst ▸ nodup_range) (mem_map.2 ⟨(x, n), ?_, rfl⟩)
    exact mem_zipIdx_iff_getElem?.2 hn

end

section

variable {v : Symbol → K} {e : Env K}

/-- The declarations of one kind, as a part of all that is in scope. -/
structure ScopePart (α N β : Type) where
  get : Env α → N → Option β
  set : Env α → (N → Option β) → Env α
  get_set : ∀ e f, get (set e f) = f
  set_set : ∀ e f g, set (set e f) g = set e g
  set_get : ∀ e, set e (get e) = e

namespace ScopePart

def weights : ScopePart α Nat (List α) :=
  ⟨Env.weights, fun e f => { e with weights := f }, fun _ _ => rfl, fun _ _ _ => rfl, fun _ => rfl⟩

def tables : ScopePart α Nat (List (List α)) :=
  ⟨Env.tables, fun e f => { e with tables := f }, fun _ _ => rfl, fun _ _ _ => rfl, fun _ => rfl⟩

def columns : ScopePart α Nat (List Nat) :=
  ⟨Env.columns, fun e f => { e with columns := f }, fun _ _ => rfl, fun _ _ _ => rfl, fun _ => rfl⟩

def constants : ScopePart α Nat α :=
  ⟨Env.constants, fun e f => { e with constants := f }, fun _ _ => rfl, fun _ _ _ => rfl,
    fun _ => rfl⟩

def geometry : ScopePart α (Nat × List Nat) α :=
  ⟨Env.geometry, fun e f => { e with geometry := f }, fun _ _ => rfl, fun _ _ _ => rfl,
    fun _ => rfl⟩

end ScopePart

/-- Statements that each make one declaration of a kind make all of them, if the names differ. -/
theorem exec_declare {ι N : Type} [DecidableEq N] (part : ScopePart K N β) (code : ι → Code K)
    (name : ι → N) (value : ι → β)
    (hcode : ∀ x e A, part.get e (name x) = none → (code x).exec v e A =
      .ok (part.set e fun n => if n = name x then some (value x) else part.get e n, A))
    {xs : List ι} (hnodup : (xs.map name).Nodup) (hfree : ∀ x ∈ xs, part.get e (name x) = none)
    (A : List K) : (Code.all (xs.map code)).exec v e A =
      .ok (part.set e (declareAll (part.get e) (xs.map fun x => (name x, value x))), A) := by
  induction xs generalizing e with
  | nil =>
    rw [map_nil, map_nil, declareAll, part.set_get]
    rfl
  | cons x xs ih =>
    rw [map_cons, nodup_cons] at hnodup
    rw [forall_mem_cons] at hfree
    -- Declaring a name twice would fail, so the names that follow must still be free.
    have hrest : ∀ y ∈ xs, part.get (part.set e fun n =>
        if n = name x then some (value x) else part.get e n) (name y) = none := by
      intro y hy
      have hne : name y ≠ name x := fun heq => hnodup.1 (heq ▸ mem_map_of_mem hy)
      rw [part.get_set, if_neg hne, hfree.2 y hy]
    refine (exec_seq (hcode x e A hfree.1)).trans ((ih hnodup.2 hrest).trans ?_)
    rw [part.get_set, part.set_set, map_cons, declareAll]

theorem WeightStore.exec_declarations {s : WeightStore K} {bound : Nat} (hs : s.Named bound)
    (he : e.weights = fun _ => none) (A : List K) : s.declarations.exec v e A =
      .ok ({ e with weights := declareAll (fun _ => none) s.declared }, A) := by
  have hnodup : (s.groups.map fun g => g.2.head?.getD 0).Nodup := by
    have hnames := hs.nodup
    rwa [declared, map_map] at hnames
  rw [← he]
  refine exec_declare .weights (fun g => .seq (.note (comment g.2))
    (.weights (g.2.head?.getD 0) g.1)) (fun g => g.2.head?.getD 0) Prod.fst ?_ hnodup ?_ A
  · intro g e A hfree
    refine (exec_seq rfl).trans ?_
    rw [Code.exec, declare_of_none (show e.weights _ = none from hfree)]
    rfl
  · exact fun g _ => congrFun he _

theorem exec_declare_zipIdx {γ : Type} (part : ScopePart K Nat γ) (code : β × Nat → Code K)
    (value : β → γ) (hcode : ∀ x e A, part.get e x.2 = none → (code x).exec v e A =
      .ok (part.set e fun n => if n = x.2 then some (value x.1) else part.get e n, A)) (xs : List β)
    (he : part.get e = fun _ => none) (A : List K) :
    (Code.all (xs.zipIdx.map code)).exec v e A = .ok (part.set e fun n => xs[n]?.map value, A) := by
  have hnodup : (xs.zipIdx.map Prod.snd).Nodup := by
    rw [zipIdx_map_snd]
    exact nodup_range'
  rw [exec_declare part code Prod.snd (fun x => value x.1) hcode hnodup
    (fun x _ => congrFun he _) A, he, declareAll_zipIdx]

theorem TableStore.exec_declarations (s : TableStore K) (htables : e.tables = fun _ => none)
    (hcolumns : e.columns = fun _ => none) (A : List K) : s.declarations.exec v e A =
      .ok ({ e with tables := fun n => s.tables[n]?, columns := fun n => s.columns[n]? }, A) := by
  have hfirst := exec_declare_zipIdx (v := v) .tables (fun x => .seq .gap (.table x.2 x.1)) id
    (fun x e A hfree => by
      refine (exec_seq rfl).trans ?_
      rw [Code.exec, declare_of_none (show e.tables _ = none from hfree)]
      rfl) s.tables htables A
  -- The lists of columns are declared where the tables are in scope already.
  have hsecond := exec_declare_zipIdx (v := v)
    (e := ScopePart.tables.set e fun n => s.tables[n]?.map id) .columns
    (fun x => .all [.gap, .note "Array of non-zero columns", .columns x.2 x.1]) id
    (fun x e A hfree => by
      refine (exec_seq rfl).trans ((exec_seq rfl).trans ?_)
      rw [foldr_cons, foldr_nil, Code.exec, Code.exec,
        declare_of_none (show e.columns _ = none from hfree)]
      rfl) s.columns hcolumns A
  have hboth := (exec_all_append hfirst).trans hsecond
  simp only [Option.map_id, id_eq] at hboth
  exact hboth

theorem ConstantStore.exec_declarations [IsStrictOrderedRing K] (s : ConstantStore K)
    (he : e.constants = fun _ => none) (A : List K) : s.declarations.exec v e A =
      .ok ({ e with constants := fun n => s.constants[n]?.map fun c => c.2.value v }, A) := by
  -- What stands in front of the declarations changes nothing.
  have hhead : (Code.all ([.gap] ++ if 0 < s.operations then
      [.note s!"Number of operations to compute geometry constants = {s.operations}"]
      else [])).exec v e A = .ok (e, A) := by
    split <;> rfl
  refine (exec_all_append hhead).trans (exec_declare_zipIdx .constants
    (fun x => .constant x.2 x.1.2) (fun c => c.2.value v) (fun x e A hfree => ?_) s.constants he A)
  rw [Code.exec, GeometrySum.value_toExpr]
  refine bind_eq_ok.2 ⟨_, rfl, ?_⟩
  rw [declare_of_none (show e.constants _ = none from hfree)]
  rfl

end

end WeakForm
