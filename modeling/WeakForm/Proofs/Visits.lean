import WeakForm.Proofs.Accumulation
import WeakForm.Proofs.TableSharing

/-!
# What code comes to

A run of generated code never branches: its declarations, statements and loops are come
to in an order that the code alone decides. `Code.visits` lists everything that a run
comes to, once for each iteration of the loops around it, together with what is in scope
there. Statements about all accesses of a routine are statements about this list.

Arrays and loop variables in scope are known by the names that they have in the text. Arrays
stay in scope behind their declaration, and nothing that a loop declares stays in scope
behind the loop.

## Theorems

* `Locals.counter?_bindAll`: The loop variables inside of a nest.
* `Code.mem_visits_loops`: The inside of a nest is come to with all tuples of iterations.
-/

namespace WeakForm

open List

namespace Counter

/-- The loop that a variable belongs to. -/
def ofText : List Char → Counter
  | ['j'] => argument 0
  | ['k'] => argument 1
  | ['l'] => argument 2
  | ['m'] => argument 3
  | _ :: digits => if digits = ['p'] then point else argument (Nat.ofDigitChars 10 digits 0)
  | [] => point

theorem ofText_text (c : Counter) : ofText c.text.toList = c := by
  match c with
  | point | argument 0 | argument 1 | argument 2 | argument 3 => rfl
  | argument (n + 4) =>
    have htext : (argument (n + 4)).text.toList = 'i' :: Nat.toDigits 10 (n + 4) := by
      rw [← Nat.toList_repr]
      exact String.toList_append
    have hdigits : Nat.toDigits 10 (n + 4) ≠ ['p'] := by
      intro h
      have hdigit := Nat.isDigit_of_mem_toDigits (by decide) (by decide)
        (h ▸ mem_singleton_self 'p')
      cases hdigit
    rw [htext, ofText, if_neg hdigits, Nat.ofDigitChars_ten_toDigits]
    all_goals simp

theorem text_injective : Function.Injective text := by
  intro c d h
  rw [← ofText_text c, h, ofText_text]

end Counter

/-- What can be read at a place of a routine: the arrays declared before it, and the variables of
    the loops around it, the innermost one first. -/
structure Locals (α : Type) where
  arrays : List (String × Contents α) := []
  counters : List (String × Nat) := []

namespace Locals

variable {α : Type} (s : Locals α)

def declare (s : Locals α) (arrays : List (String × Contents α)) : Locals α :=
  { s with arrays := s.arrays ++ arrays }

theorem declare_nil : s.declare [] = s := by rw [declare, append_nil]

/-- Gives a loop variable its value. -/
def bind (s : Locals α) (counter : Counter) (i : Nat) : Locals α :=
  { s with counters := (counter.text, i) :: s.counters }

/-- Gives the loop variables of arguments their values, from a first argument on. -/
def bindAll (s : Locals α) : Nat → List Nat → Locals α
  | _, [] => s
  | n, j :: js => (s.bind (.argument n) j).bindAll (n + 1) js

/-- The scope of a quadrature point. A single point needs no loop. -/
def atPoint (s : Locals α) (points p : Nat) : Locals α :=
  if 1 < points then s.bind .point p else s

/-- The value of a loop variable. -/
def counter? (s : Locals α) (counter : Counter) : Option Nat := s.counters.lookup counter.text

theorem counter?_bind_self (counter : Counter) (i : Nat) :
    (s.bind counter i).counter? counter = some i := lookup_cons_self

theorem counter?_bind_of_ne {counter other : Counter} (i : Nat) (h : other ≠ counter) :
    (s.bind counter i).counter? other = s.counter? other := by
  have hne : (other.text == counter.text) = false :=
    beq_false_of_ne (Counter.text_injective.ne h)
  rw [counter?, bind, List.lookup_cons, hne]
  rfl

theorem arrays_bindAll (n : Nat) (js : List Nat) : (s.bindAll n js).arrays = s.arrays := by
  induction js generalizing s n with
  | nil => rfl
  | cons j js ih => exact ih _ _

theorem arrays_atPoint (points p : Nat) : (s.atPoint points p).arrays = s.arrays := by
  unfold atPoint
  split
  · rfl
  · rfl

theorem counter?_bindAll_of_ne {n : Nat} (js : List Nat) {counter : Counter}
    (h : ∀ k, n ≤ k → counter ≠ .argument k) :
    (s.bindAll n js).counter? counter = s.counter? counter := by
  induction js generalizing s n with
  | nil => rfl
  | cons j js ih =>
    rw [bindAll, ih _ fun k hk => h k (Nat.le_of_succ_le hk), counter?_bind_of_ne _ _ (h n le_rfl)]

theorem counter?_bindAll {n k : Nat} {js : List Nat} {j : Nat} (h : js[k]? = some j) :
    (s.bindAll n js).counter? (.argument (n + k)) = some j := by
  induction js generalizing s n k with
  | nil => exact absurd h (by simp only [getElem?_nil, reduceCtorEq, not_false_eq_true])
  | cons i js ih =>
    rw [bindAll]
    cases k with
    | zero =>
      -- The loops further in bind the variables of later arguments.
      have hlater : ∀ k, n + 1 ≤ k → Counter.argument (n + 0) ≠ .argument k := by
        intro k hk
        rw [Ne, Counter.argument.injEq]
        omega
      rw [getElem?_cons_zero, Option.some.injEq] at h
      rw [counter?_bindAll_of_ne _ _ hlater, Nat.add_zero, counter?_bind_self, h]
    | succ k =>
      rw [getElem?_cons_succ] at h
      rw [show n + (k + 1) = n + 1 + k by omega, ih _ h]

theorem counter?_atPoint {points : Nat} (p : Nat) (h : 1 < points) :
    (s.atPoint points p).counter? .point = some p := by
  rw [atPoint, if_pos h, counter?_bind_self]

end Locals

namespace Code

variable {α : Type} {c : Code α} {s : Locals α} {x : Code α × Locals α}

/-- What is in scope behind code. -/
def locals : Code α → Locals α → Locals α
  | seq first second, s => second.locals (first.locals s)
  | block body, s => body.locals s
  | weights term values, s => s.declare [(Cpp.weightName term, .weights values)]
  | table number rows, s => s.declare [(Cpp.tableName number, .table rows)]
  | columns number dofs, s => s.declare [(Cpp.columnsName number, .columns dofs)]
  | _, s => s

/-- What a run of code comes to, in order: every statement and every loop, with what is in scope
    there, once for each iteration of the loops around it. -/
def visits : Code α → Locals α → List (Code α × Locals α)
  | skip, _ => []
  | seq first second, s => first.visits s ++ second.visits (first.locals s)
  | block body, s => body.visits s
  | loop counter count body, s => (loop counter count body, s) ::
    (List.range count).flatMap fun i => body.visits (s.bind counter i)
  | c, s => [(c, s)]

/-- Code that neither loops nor changes the element tensor: comments and declarations. -/
def declares : Code α → Bool
  | seq first second => first.declares && second.declares
  | block body => body.declares
  | clear _ | accumulate _ _ | loop _ _ _ => false
  | _ => true

theorem declares_all {cs : List (Code α)} :
    (all cs).declares = true ↔ ∀ c ∈ cs, c.declares = true := by
  induction cs with
  | nil => exact ⟨fun _ _ hc => absurd hc not_mem_nil, fun _ => rfl⟩
  | cons c cs ih =>
    change (c.declares && (all cs).declares) = true ↔ _
    rw [Bool.and_eq_true, ih, forall_mem_cons]

theorem locals_of_declares (h : c.declares = true) (s : Locals α) :
    c.locals s = s.declare c.arrays := by
  induction c generalizing s with
  | seq first second ihfirst ihsecond =>
    rw [declares, Bool.and_eq_true] at h
    rw [locals, ihfirst h.1, ihsecond h.2, Locals.declare, Locals.declare, Locals.declare, arrays,
      append_assoc]
  | block body ih => exact ih h s
  | weights | table | columns => rfl
  | skip | note | gap | constant | geometry => exact (s.declare_nil).symm
  | clear | accumulate | loop => cases h

theorem locals_of_arrays (h : c.arrays = []) (s : Locals α) : c.locals s = s := by
  induction c generalizing s with
  | seq first second ihfirst ihsecond =>
    rw [arrays, append_eq_nil_iff] at h
    rw [locals, ihfirst h.1, ihsecond h.2]
  | block body ih => exact ih h s
  | weights | table | columns => exact absurd h (cons_ne_nil _ _)
  | _ => rfl

theorem visits_all {cs : List (Code α)} (h : ∀ c ∈ cs, c.arrays = []) (s : Locals α) :
    (all cs).visits s = cs.flatMap fun c => c.visits s := by
  induction cs with
  | nil => rfl
  | cons c cs ih =>
    rw [forall_mem_cons] at h
    change c.visits s ++ (all cs).visits (c.locals s) = _
    rw [locals_of_arrays h.1, ih h.2, flatMap_cons]

/-- Comments and declarations come to comments and declarations only. -/
theorem declares_of_mem_visits (h : c.declares = true) (hx : x ∈ c.visits s) :
    x.1.declares = true := by
  induction c generalizing s with
  | seq first second ihfirst ihsecond =>
    rw [declares, Bool.and_eq_true] at h
    rcases mem_append.1 hx with hx | hx
    · exact ihfirst h.1 hx
    · exact ihsecond h.2 hx
  | block body ih => exact ih h hx
  | skip => cases hx
  | clear | accumulate | loop => cases h
  | _ => exact mem_singleton.1 hx ▸ h

/-- Behind comments and declarations, all that they declare is in scope. -/
theorem mem_visits_seq_of_declares {first second : Code α} (h : first.declares = true)
    (hx : x ∈ (seq first second).visits s) :
    x.1.declares = true ∨ x ∈ second.visits (s.declare first.arrays) := by
  rcases mem_append.1 hx with hx | hx
  · exact .inl (declares_of_mem_visits h hx)
  · rw [locals_of_declares h] at hx
    exact .inr hx

/-- What is assigned to somewhere along a run is assigned to in the code. -/
theorem assigns_of_mem_visits (hx : x ∈ c.visits s) (h : x.1.assigns = true) :
    c.assigns = true := by
  induction c generalizing s with
  | seq first second ihfirst ihsecond =>
    rw [assigns, Bool.or_eq_true]
    rcases mem_append.1 hx with hx | hx
    · exact .inl (ihfirst hx)
    · exact .inr (ihsecond hx)
  | block body ih => exact ih hx
  | loop counter count body ih =>
    rcases mem_cons.1 hx with rfl | hx
    · exact h
    · rcases mem_flatMap.1 hx with ⟨i, _, hx⟩
      exact ih hx
  | skip => cases hx
  | _ =>
    rw [mem_singleton.1 hx] at h
    exact h

theorem mem_visits_of_mem {y : Code α × Locals α} (hx : x ∈ c.visits s) (hy : y ∈ x.1.visits x.2) :
    y ∈ c.visits s := by
  induction c generalizing s with
  | seq first second ihfirst ihsecond =>
    rcases mem_append.1 hx with hx | hx
    · exact mem_append_left _ (ihfirst hx)
    · exact mem_append_right _ (ihsecond hx)
  | block body ih => exact ih hx
  | loop counter count body ih =>
    -- It is the loop itself, or something in one of its iterations.
    rcases mem_cons.1 hx with rfl | hx
    · exact hy
    · rcases mem_flatMap.1 hx with ⟨i, hi, hx⟩
      exact mem_cons_of_mem _ (mem_flatMap.2 ⟨i, hi, ih hx⟩)
  | skip => cases hx
  | _ =>
    rw [mem_singleton.1 hx] at hy
    exact hy

theorem arrays_loops (ranges : List (Counter × Nat)) (body : Code α) :
    (loops ranges body).arrays = body.arrays := by
  induction ranges with
  | nil => rfl
  | cons range ranges ih => exact ih

theorem mem_visits_loops {ranges : List Nat} {n : Nat} {body : Code α}
    (h : x ∈ (loops ((ranges.zipIdx n).map fun y => (Counter.argument y.2, y.1)) body).visits s) :
    (∃ k count inner, x.1 = loop (.argument k) count inner) ∨
      ∃ js ∈ Tuple.all ranges, x ∈ body.visits (s.bindAll n js) := by
  induction ranges generalizing n s with
  | nil => exact .inr ⟨[], mem_singleton_self _, h⟩
  | cons range ranges ih =>
    rcases mem_cons.1 h with rfl | h
    · exact .inl ⟨n, range, _, rfl⟩
    · -- The outermost loop gives the first iteration, and the loops inside of it the others.
      rcases mem_flatMap.1 h with ⟨j, hj, h⟩
      rcases ih h with hloop | ⟨js, hjs, hx⟩
      · exact .inl hloop
      · rw [Tuple.mem_all_iff] at hjs
        exact .inr ⟨j :: js, Tuple.mem_all_iff.2 (.cons (mem_range.1 hj) hjs), hx⟩

end Code

end WeakForm
