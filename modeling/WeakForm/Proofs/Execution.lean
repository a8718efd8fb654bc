import WeakForm.Proofs.Exact
import WeakForm.Code.Basic
import WeakForm.Proofs.Numbering

/-!
# Running generated code

An executor for the statements of generated routines, and what it takes to reason
about code that only ever adds to the element tensor.

The executor is strict. Reading a name that was not declared, declaring a name
twice, reading or writing past the end of an array, and reading a scalar as if it
were an array are all faults, so a run that succeeds is a run without any of these.
Loops bind their variable and give back the declarations they started with.

The loops of a routine never read the element tensor. They add to it, so all that
matters of a piece of code is how much it adds to which entry. `Adds` says so, with
the amounts as a function of the multi-index of the entry and not of its position:
amounts of multi-indices can be added, multiplied out and regrouped, while positions
are compared in one place only, `adds_accumulate`.

## Main definitions

* `Expr.value`: The value of an expression.
* `Position.value`: The value of a position.
* `Code.exec`: The executor.

## Theorems

* `adds_loop`: A loop adds the sum of the amounts of its iterations.
* `exec_reset`: Resetting sets every entry to zero.
-/

namespace WeakForm

open List Success

variable {α : Type}

section

variable {ν α : Type} [Scalar α]

/-- The value of an expression, where reading a name may fail. -/
def Expr.value (read : ν → Checked α) : Expr ν α → Checked α
  | literal x => .ok x
  | name n => read n
  | neg a => do return -(← a.value read)
  | add a b => do return (← a.value read) + (← b.value read)
  | sub a b => do return (← a.value read) - (← b.value read)
  | mul a b => do return (← a.value read) * (← b.value read)
  | div a b => do return (← a.value read) / (← b.value read)
  | sqrt a => do return Scalar.sqrt (← a.value read)
  | abs a => do return Scalar.abs (← a.value read)
  | group a => a.value read

def Expr.names : Expr ν α → List ν
  | literal _ => []
  | name n => [n]
  | neg a | sqrt a | abs a | group a => a.names
  | add a b | sub a b | mul a b | div a b => a.names ++ b.names

/-- The value of an expression all of whose names have a value. -/
def Expr.eval (valueOf : ν → α) : Expr ν α → α
  | literal x => x
  | name n => valueOf n
  | neg a => -a.eval valueOf
  | add a b => a.eval valueOf + b.eval valueOf
  | sub a b => a.eval valueOf - b.eval valueOf
  | mul a b => a.eval valueOf * b.eval valueOf
  | div a b => a.eval valueOf / b.eval valueOf
  | sqrt a => Scalar.sqrt (a.eval valueOf)
  | abs a => Scalar.abs (a.eval valueOf)
  | group a => a.eval valueOf

theorem Expr.value_eq_eval {read : ν → Checked α} {valueOf : ν → α} {e : Expr ν α}
    (h : ∀ n ∈ e.names, read n = .ok (valueOf n)) : e.value read = .ok (e.eval valueOf) := by
  induction e with
  | literal x => rfl
  | name n => exact h n (mem_singleton_self n)
  | neg a ih | sqrt a ih | abs a ih =>
    rw [value, ih h]
    rfl
  | group a ih => exact ih h
  | add a b iha ihb | sub a b iha ihb | mul a b iha ihb | div a b iha ihb =>
    rw [value, iha fun n hn => h n (mem_append_left _ hn),
      ihb fun n hn => h n (mem_append_right _ hn)]
    rfl

/-- The value of a position. Positions are sums and products of natural numbers of any size, while
    the text computes them in words. -/
def Position.value (read : Subscript → Checked Nat) : Position → Checked Nat
  | .literal n => .ok n
  | .name n => read n
  | .add a b => do return (← value read a) + (← value read b)
  | .mul a b => do return (← value read a) * (← value read b)
  | .group a => value read a
  | _ => .error .unmet

end

/-- The value of a name that must have been declared. -/
def declared {β : Type} : Option β → Checked β
  | some x => .ok x
  | none => .error .unmet

/-- A new declaration among others. Nothing is declared twice. -/
def declare {N β : Type} [DecidableEq N] (scope : N → Option β) (name : N) (x : β) :
    Checked (N → Option β) :=
  match scope name with
  | some _ => .error .unmet
  | none => .ok fun n => if n = name then some x else scope n

/-- The declarations and loop variables in scope. -/
structure Env (α : Type) where
  weights : Nat → Option (List α) := fun _ => none
  tables : Nat → Option (List (List α)) := fun _ => none
  columns : Nat → Option (List Nat) := fun _ => none
  constants : Nat → Option α := fun _ => none
  geometry : Nat × List Nat → Option α := fun _ => none
  counters : Counter → Option Nat := fun _ => none

namespace Env

/-- Gives a loop variable its value. -/
def bind (e : Env α) (counter : Counter) (i : Nat) : Env α :=
  { e with counters := fun c => if c = counter then some i else e.counters c }

/-- Gives the loop variables of arguments their values, from a first argument on. -/
def bindAll (e : Env α) : Nat → List Nat → Env α
  | _, [] => e
  | n, j :: js => (e.bind (.argument n) j).bindAll (n + 1) js

/-- What a position reads. -/
def subscript (e : Env α) : Subscript → Checked Nat
  | .counter argument => declared (e.counters (.argument argument))
  | .column columns argument => do
    entryAt (← declared (e.columns columns)) (← declared (e.counters (.argument argument)))

/-- The entry of an array at the current quadrature point inside of a loop over points, and the
    first one otherwise. -/
def current {β : Type} (e : Env α) (inLoop : Bool) (xs : List β) : Checked β :=
  if inLoop then do entryAt xs (← declared (e.counters .point)) else entryAt xs 0

/-- What a product reads. A single weight is a scalar, and several are an array. -/
def operand (e : Env α) : Operand → Checked α
  | .weight term inLoop => do
    let weights ← declared (e.weights term)
    Checked.require (inLoop = (weights.length != 1))
    e.current inLoop weights
  | .entry table inLoop argument => do
    let row ← e.current inLoop (← declared (e.tables table))
    entryAt row (← declared (e.counters (.argument argument)))
  | .constant number => declared (e.constants number)
  | .geometry term a => declared (e.geometry (term, a))

end Env

namespace Code

variable [Scalar α]

/-- Runs code on an element tensor, given the values of the geometry symbols. The result is what
    is in scope afterwards, and the element tensor. Loops count in numbers of any size, while the
    text declares their variables `unsigned int`. -/
def exec (v : Symbol → α) : Code α → Env α → List α → Checked (Env α × List α)
  | skip, e, A => .ok (e, A)
  | seq first second, e, A => do
    let (e, A) ← first.exec v e A
    second.exec v e A
  | note _, e, A => .ok (e, A)
  | gap, e, A => .ok (e, A)
  | block body, e, A => body.exec v e A
  | weights term values, e, A => do
    return ({ e with weights := ← declare e.weights term values }, A)
  | table number rows, e, A => do
    return ({ e with tables := ← declare e.tables number rows }, A)
  | columns number dofs, e, A => do
    return ({ e with columns := ← declare e.columns number dofs }, A)
  | constant number sum, e, A => do
    let x ← sum.toExpr.value fun s => .ok (v s)
    return ({ e with constants := ← declare e.constants number x }, A)
  | geometry term a monomial, e, A => do
    let x ← monomial.toExpr.value fun s => .ok (v s)
    return ({ e with geometry := ← declare e.geometry (term, a) x }, A)
  | clear position, e, A => do
    let n ← Position.value e.subscript position
    Checked.bound n A.length
    return (e, A.set n 0)
  | accumulate position value, e, A => do
    let n ← Position.value e.subscript position
    let x ← entryAt A n
    return (e, A.set n (x + (← value.value e.operand)))
  | loop counter count body, e, A => do
    Checked.require (e.counters counter).isNone
    let A ← (List.range count).foldlM
      (fun A i => do return (← body.exec v (e.bind counter i) A).2) A
    return (e, A)

end Code

theorem declared_eq_ok {β : Type} {x : Option β} {y : β} : declared x = .ok y ↔ x = some y := by
  cases x with
  | none => simp only [declared, reduceCtorEq]
  | some x => simp only [declared, Except.ok.injEq, Option.some.injEq]

theorem declare_of_none {N β : Type} [DecidableEq N] {scope : N → Option β} {name : N} {x : β}
    (h : scope name = none) :
    declare scope name x = .ok fun n => if n = name then some x else scope n := by
  rw [declare, h]

namespace Env

variable (e : Env α)

theorem bind_counters_self (c : Counter) (i : Nat) : (e.bind c i).counters c = some i := if_pos rfl

theorem bind_counters_of_ne {c d : Counter} (i : Nat) (h : d ≠ c) :
    (e.bind c i).counters d = e.counters d := if_neg h

/-- Loops over basis functions change nothing but the variables of arguments. -/
theorem bindAll_declarations (n : Nat) (js : List Nat) :
    (e.bindAll n js).weights = e.weights ∧ (e.bindAll n js).tables = e.tables ∧
      (e.bindAll n js).columns = e.columns ∧ (e.bindAll n js).constants = e.constants ∧
      (e.bindAll n js).counters .point = e.counters .point := by
  induction js generalizing e n with
  | nil => exact ⟨rfl, rfl, rfl, rfl, rfl⟩
  | cons j js ih =>
    rcases ih (e.bind (.argument n) j) (n + 1) with ⟨hw, ht, hc, hk, hp⟩
    exact ⟨hw, ht, hc, hk, hp.trans (e.bind_counters_of_ne j Counter.noConfusion)⟩

theorem bindAll_counters_lt {n k : Nat} (js : List Nat) (h : k < n) :
    (e.bindAll n js).counters (.argument k) = e.counters (.argument k) := by
  induction js generalizing e n with
  | nil => rfl
  | cons j js ih =>
    have hne : Counter.argument k ≠ .argument n := by
      rw [Ne, Counter.argument.injEq]
      omega
    rw [bindAll, ih _ (Nat.lt_succ_of_lt h), bind_counters_of_ne _ _ hne]

theorem bindAll_counters {n k : Nat} {js : List Nat} {j : Nat} (h : js[k]? = some j) :
    (e.bindAll n js).counters (.argument (n + k)) = some j := by
  induction js generalizing e n k with
  | nil => exact absurd h (by simp only [getElem?_nil, reduceCtorEq, not_false_eq_true])
  | cons i js ih =>
    rw [bindAll]
    cases k with
    | zero =>
      -- The loops further in bind the variables of later arguments.
      rw [getElem?_cons_zero, Option.some.injEq] at h
      rw [bindAll_counters_lt _ _ (by omega), Nat.add_zero, bind_counters_self, h]
    | succ k =>
      rw [getElem?_cons_succ] at h
      rw [show n + (k + 1) = n + 1 + k by omega, ih _ h]

end Env

section

variable {K : Type} [Field K] [LinearOrder K] [Root K]
variable {v : Symbol → K} {e : Env K} {dims : List Nat} {c : Code K} {a : List Nat → K}
  {amount : Nat → List Nat → K} {body : Code K} {d : Code K} {e' : Env K} {A A' : List K}
  {a' : List Nat → K} {counter : Counter} {n : Nat}

-- All lemmas of this section run code by the equations of the executor.
attribute [local simp] Code.exec

theorem exec_seq (h : c.exec v e A = .ok (e', A')) :
    (Code.seq c d).exec v e A = d.exec v e' A' := by
  rw [Code.exec, h]
  rfl

theorem exec_all_append {cs ds : List (Code K)} (h : (Code.all cs).exec v e A = .ok (e', A')) :
    (Code.all (cs ++ ds)).exec v e A = (Code.all ds).exec v e' A' := by
  induction cs generalizing e A with
  | nil =>
    rw [Code.all, foldr_nil, Code.exec, Except.ok.injEq, Prod.mk.injEq] at h
    rw [nil_append, h.1, h.2]
  | cons c cs ih =>
    rcases bind_eq_ok.1 h with ⟨⟨e₁, A₁⟩, hc, hcs⟩
    exact (exec_seq hc).trans (ih hcs)

/-- The code adds the given amounts to the entries of any element tensor of the given
    dimensions, and declares nothing. -/
def Adds (v : Symbol → K) (e : Env K) (dims : List Nat) (c : Code K) (amount : List Nat → K) :
    Prop :=
  ∀ b : List Nat → K, c.exec v e ((Tuple.all dims).map b) =
    .ok (e, (Tuple.all dims).map fun M => b M + amount M)

theorem Adds.congr (h : Adds v e dims c a) (ha : ∀ M ∈ Tuple.all dims, a M = a' M) :
    Adds v e dims c a' := by
  intro b
  rw [h b]
  congr 2
  exact map_congr_left fun M hM => by rw [ha M hM]

theorem adds_zero (h : ∀ A, c.exec v e A = .ok (e, A)) : Adds v e dims c fun _ => 0 := by
  intro b
  simp only [h, add_zero]

theorem adds_block (h : Adds v e dims c a) : Adds v e dims (.block c) a := h

theorem adds_seq (hc : Adds v e dims c a) (hd : Adds v e dims d a') :
    Adds v e dims (.seq c d) fun M => a M + a' M := by
  intro b
  rw [exec_seq (hc b), hd]
  simp only [add_assoc]

theorem adds_note (h : Adds v e dims c a) (text : String) :
    Adds v e dims (.seq (.note text) c) a := fun b => (exec_seq rfl).trans (h b)

theorem adds_last (h : Adds v e dims c a) : Adds v e dims (.all [c]) a := fun b => exec_seq (h b)

theorem adds_all {β : Type} {xs : List β} {code : β → Code K} {amount : β → List Nat → K}
    (h : ∀ x ∈ xs, Adds v e dims (code x) (amount x)) :
    Adds v e dims (.all (xs.map code)) fun M => (xs.map fun x => amount x M).sum := by
  induction xs with
  | nil => exact adds_zero fun A => rfl
  | cons x xs ih =>
    have hrest := ih fun y hy => h y (mem_cons_of_mem x hy)
    exact (adds_seq (h x mem_cons_self) hrest).congr fun M _ => by
      rw [map_cons, sum_cons]

theorem foldlM_iterations (is : List Nat)
    (h : ∀ i ∈ is, Adds v (e.bind counter i) dims body (amount i)) (b : List Nat → K) :
    is.foldlM (fun A i => do return (← body.exec v (e.bind counter i) A).2)
        ((Tuple.all dims).map b) =
      (.ok ((Tuple.all dims).map fun M => b M + (is.map fun i => amount i M).sum) :
        Checked (List K)) := by
  induction is generalizing b with
  | nil =>
    simp only [map_nil, sum_nil, add_zero]
    rfl
  | cons i is ih =>
    rw [foldlM_cons_eq_ok]
    refine ⟨_, bind_eq_ok.2 ⟨_, h i mem_cons_self b, rfl⟩, ?_⟩
    rw [ih fun k hk => h k (mem_cons_of_mem i hk)]
    simp only [map_cons, sum_cons, add_assoc]

theorem adds_loop {count : Nat} (hfree : e.counters counter = none)
    (h : ∀ i < count, Adds v (e.bind counter i) dims body (amount i)) :
    Adds v e dims (.loop counter count body)
      fun M => ((range count).map fun i => amount i M).sum := by
  intro b
  rw [Code.exec, bind_eq_ok]
  refine ⟨(), Checked.require_eq_ok.2 (by rw [hfree]; rfl), ?_⟩
  -- The loop variable is not in scope any more after the loop.
  rw [foldlM_iterations (range count) fun i hi => h i (mem_range.1 hi)]
  rfl

/-- A nest of loops over the basis functions of arguments adds the sum over all tuples of what
    the innermost code adds. -/
theorem adds_loops {ranges : List Nat} {amount : List Nat → List Nat → K}
    (hfree : ∀ k, n ≤ k → e.counters (.argument k) = none)
    (h : ∀ js ∈ Tuple.all ranges, Adds v (e.bindAll n js) dims body (amount js)) :
    Adds v e dims (Code.loops ((ranges.zipIdx n).map fun x => (.argument x.2, x.1)) body)
      fun M => ((Tuple.all ranges).map fun js => amount js M).sum := by
  induction ranges generalizing e n amount with
  | nil =>
    have hbody := h [] (by simp only [Tuple.all, mem_singleton])
    exact hbody.congr fun M _ => by simp only [Tuple.all, map_singleton, sum_singleton]
  | cons range ranges ih =>
    -- The outermost loop runs the nest of the remaining loops, with one more variable bound.
    have hinner : ∀ j < range, Adds v (e.bind (.argument n) j) dims
        (Code.loops ((ranges.zipIdx (n + 1)).map fun x => (.argument x.2, x.1)) body)
        fun M => ((Tuple.all ranges).map fun js => amount (j :: js) M).sum := by
      intro j hj
      refine ih (fun k hk => ?_) fun js hjs => h (j :: js) (Tuple.mem_all_cons.2
        ⟨j, hj, js, hjs, rfl⟩)
      -- The variable that was just bound belongs to an earlier argument.
      rw [Env.bind_counters_of_ne _ _ (by rw [Ne, Counter.argument.injEq]; omega),
        hfree k (by omega)]
    refine (adds_loop (hfree n le_rfl) hinner).congr fun M _ => ?_
    rw [Tuple.all_cons, Tuple.sum_flatMap]
    simp only [map_map]
    rfl

/-- A statement whose position is that of a multi-index adds its value to that entry. -/
theorem adds_accumulate {p : Position} {x : Expr Operand K} {M : List Nat} {y : K}
    (hM : M ∈ Tuple.all dims) (hp : Position.value e.subscript p = .ok (Tuple.linear dims M))
    (hx : x.value e.operand = .ok y) :
    Adds v e dims (.accumulate p x) fun N => if N = M then y else 0 := by
  intro b
  have hread : entryAt ((Tuple.all dims).map b) (Tuple.linear dims M) = .ok (b M) := by
    rw [entryAt_eq_ok, getElem?_map, Tuple.get_linear hM]
    rfl
  rw [Code.exec, hp]
  simp only [bind_eq_ok, Except.ok.injEq, exists_eq_left', hread, hx, pure_eq_ok]
  congr 1
  apply ext_getElem?
  intro n
  rw [getElem?_set, getElem?_map]
  by_cases hn : Tuple.linear dims M = n
  · -- The entry of the multi-index itself.
    subst hn
    have hlt : Tuple.linear dims M < ((Tuple.all dims).map b).length := by
      rw [length_map, Tuple.length_all]
      exact Tuple.linear_lt hM
    rw [if_pos rfl, if_pos hlt, getElem?_map, Tuple.get_linear hM, Option.map_some, if_pos rfl]
  · rw [if_neg hn, getElem?_map]
    cases hN : (Tuple.all dims)[n]? with
    | none => rfl
    | some N =>
      -- Different multi-indices have different positions, so the others stay as they are.
      have hne : N ≠ M := fun h => hn (h ▸ Tuple.linear_of_get hN)
      rw [Option.map_some, Option.map_some, if_neg hne, add_zero]

theorem foldlM_clear (A : List K) (hn : n ≤ A.length) : (range n).foldlM (fun A i => do
        return (← (Code.clear (.name (.counter 0))).exec v (e.bind (.argument 0) i) A).2) A =
      (.ok (replicate n 0 ++ A.drop n) : Checked (List K)) := by
  induction n with
  | zero => rfl
  | succ n ih =>
    have hlength : (replicate n 0 ++ A.drop n).length = A.length := by
      rw [length_append, length_replicate, length_drop]
      omega
    -- One more entry moves from the old tensor to the cleared ones.
    have hset : (replicate n 0 ++ A.drop n).set n 0 =
        replicate (n + 1) 0 ++ A.drop (n + 1) := by
      rw [set_append_right _ _ (by rw [length_replicate]), length_replicate, Nat.sub_self,
        drop_eq_getElem_cons (by omega), set_cons_zero, replicate_succ', append_assoc,
        singleton_append]
    rw [range_succ, foldlM_append, ih (by omega), bind_eq_ok]
    refine ⟨_, rfl, foldlM_cons_eq_ok.2
      ⟨_, bind_eq_ok.2 ⟨(e.bind (.argument 0) n, _), ?_, rfl⟩, rfl⟩⟩
    rw [Code.exec, Position.value, Env.subscript, bind_eq_ok]
    refine ⟨n, declared_eq_ok.2 (e.bind_counters_self _ n), bind_eq_ok.2 ⟨(), ?_, ?_⟩⟩
    · exact Checked.bound_eq_ok.2 (by omega)
    · rw [hset]
      rfl

theorem exec_reset (hfree : e.counters (.argument 0) = none) (A : List K) :
    (Code.reset A.length).exec v e A = .ok (e, replicate A.length 0) := by
  have hloop : (Code.loop (.argument 0) A.length (.clear (.name (.counter 0)))).exec v e A =
      .ok (e, replicate A.length 0) := by
    rw [Code.exec, bind_eq_ok]
    refine ⟨(), Checked.require_eq_ok.2 (by rw [hfree]; rfl), ?_⟩
    rw [foldlM_clear A le_rfl, drop_length, append_nil]
    rfl
  change (Code.seq (.loop (.argument 0) A.length (.clear (.name (.counter 0)))) _).exec v e A = _
  rw [exec_seq hloop]
  rfl

end

end WeakForm
