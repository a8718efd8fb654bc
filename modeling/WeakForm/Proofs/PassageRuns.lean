import WeakForm.Proofs.StatementReading

/-!
# Running geometry code

An executor for the text of geometry code, line by line. All names share one scope. The
executor is strict: a line that is no statement, reading a name that was not declared or that
stands for something else, declaring a name twice, changing a constant, and reading past the
end of an array are faults. Code may also stop on its own account, by throwing a text.

Nothing but the text decides what is carried out. A line that is read as another statement
than was meant is carried out as it is read.

Geometry code assigns each name once. So whatever is declared later, a definition stays an
equation between the values of names (`Statement.Holds`): what its formula has read is never
changed. What a passage computes can therefore be told from its steps without following the
run. The orientation is the exception, since it changes the determinant.

## Main definitions

* `Statement.step`, `Cpp.execute`: The executor.
* `Formula.eval`, `Test.eval`: The values of formulas and conditions that can be evaluated.

## Theorems

* `Cpp.execute_of_read`: Code does what the statements do that it is read as.
* `Bindings.Extends.binding`: What a statement declares does not change when more is declared.
* `Statement.Holds.mono`: Definitions that hold go on to hold.
* `Step.Holds.has`, `Step.Holds.direction`, `Step.Holds.facetVertex`,
  `Step.Holds.pointEntry`: The equations that definitions are.
-/

namespace WeakForm

open Success

variable {α : Type}

namespace Expr

variable {ν α β : Type}

theorem names_mapLiterals (f : α → β) (e : Expr ν α) : (e.mapLiterals f).names = e.names := by
  induction e with
  | literal x | name n => rfl
  | neg a ih | sqrt a ih | abs a ih | group a ih => exact ih
  | add a b iha ihb | sub a b iha ihb | mul a b iha ihb | div a b iha ihb =>
    rw [mapLiterals, names, names, iha, ihb]

variable [Scalar α]

theorem exists_read_of_value {read : ν → Checked α} {e : Expr ν α} {x : α}
    (h : e.value read = .ok x) : ∀ n ∈ e.names, ∃ y, read n = .ok y := by
  induction e generalizing x with
  | literal x => exact nofun
  | name n => exact List.forall_mem_singleton.2 ⟨x, h⟩
  | neg a ih | sqrt a ih | abs a ih =>
    rcases bind_eq_ok.1 h with ⟨y, hy, _⟩
    exact ih hy
  | group a ih => exact ih h
  | add a b iha ihb | sub a b iha ihb | mul a b iha ihb | div a b iha ihb =>
    rcases bind_eq_ok.1 h with ⟨y, hy, h⟩
    rcases bind_eq_ok.1 h with ⟨z, hz, _⟩
    exact List.forall_mem_append.2 ⟨iha hy, ihb hz⟩

end Expr

variable {e : Term}

section

variable [Scalar α]

namespace Term

/-- The value of an expression of a formula, where reading may fail. -/
def value (read : Quantity → Checked α) (e : Term) : Checked α :=
  (e.mapLiterals fun x => Scalar.decimal x.units x.places).value read

/-- The value of an expression of a formula all of whose names have a value. -/
def eval (valueOf : Quantity → α) (e : Term) : α :=
  (e.mapLiterals fun x => Scalar.decimal x.units x.places).eval valueOf

variable {read : Quantity → Checked α}

theorem value_eq_eval {valueOf : Quantity → α}
    (h : ∀ q ∈ e.names, read q = .ok (valueOf q)) : value read e = .ok (eval valueOf e) :=
  Expr.value_eq_eval (by rwa [Expr.names_mapLiterals])

theorem exists_read_of_value {x : α} (h : value read e = .ok x) :
    ∀ q ∈ e.names, ∃ y, read q = .ok y := by
  have hread := Expr.exists_read_of_value h
  rwa [Expr.names_mapLiterals] at hread

end Term

end

/-- What geometry code is run on. -/
structure Situation (α : Type) where
  /-- The side whose code runs. -/
  side : Option Side
  /-- The cells, with their vertices as columns. -/
  cell : Option Side → Grid α
  /-- The number of the facet in the cell that facet quantities are computed on. -/
  facet : Nat
  /-- The orientations of the cells. -/
  marker : Option Side → Int
  /-- The reference coordinates of the current quadrature point. -/
  point : List α

/-- What a name stands for. -/
inductive Binding (α : Type) where
  | scalar (x : α) (isConstant : Bool)
  | vertex (number : Nat)
  | lists (rows : List (List Nat))
  | flag (b : Bool)
  | cell (side : Option Side)
  | array (size : Nat)
  | marker (value : Int)

namespace Binding

def scalar? : Binding α → Option α
  | scalar x _ => some x
  | _ => none

/-- A scalar that may be changed. -/
def changeable? : Binding α → Option α
  | scalar x false => some x
  | _ => none

def vertex? : Binding α → Option Nat
  | vertex number => some number
  | _ => none

def lists? : Binding α → Option (List (List Nat))
  | lists rows => some rows
  | _ => none

def flag? : Binding α → Option Bool
  | flag b => some b
  | _ => none

def cell? : Binding α → Option (Option Side)
  | cell side => some side
  | _ => none

def array? : Binding α → Option Nat
  | array size => some size
  | _ => none

def marker? : Binding α → Option Int
  | marker value => some value
  | _ => none

end Binding

/-- What names stand for. -/
abbrev Bindings (α : Type) := String → Option (Binding α)

def directionName : String := "direction"

variable {q : Quantity}

namespace Bindings

variable {α β : Type} {s : Situation α} {σ : Bindings α} {x : α}

/-- What is declared in front of geometry code: the number of the facet, and behind the code of the
    plus side its cell. -/
def start (s : Situation α) : Bindings α := fun n =>
  if n = Cpp.facetVariable (Passage.facetSide s.side) then some (.vertex s.facet)
  else if s.side = some .minus ∧ n = cellName (some .plus) then some (.cell (some .plus))
  else none

/-- Lets a name stand for something. -/
def set (σ : Bindings α) (name : String) (b : Binding α) : Bindings α :=
  fun n => if n = name then some b else σ n

def add (σ : Bindings α) : Option (String × Binding α) → Checked (Bindings α)
  | none => .ok σ
  | some (name, b) => declare σ name b

/-- What a name stands for, seen as something of one kind. -/
def get (σ : Bindings α) (view : Binding α → Option β) (name : String) : Option β :=
  (σ name).bind view

/-- Whether a marker has a value. -/
def marks (σ : Bindings α) (name : String) (value : Nat) : Checked Bool := do
  return (← declared (σ.get Binding.marker? name)) = (value : Int)

def vertex (σ : Bindings α) : VertexRef → Option Nat
  | .fixed number => some number
  | .named name => σ.get Binding.vertex? name

variable [Scalar α]

def read (s : Situation α) (σ : Bindings α) : Quantity → Checked α
  | .scalar name => declared (σ.get Binding.scalar? name)
  | .coordinate side v axis => do
    Checked.require (σ.get Binding.cell? (cellName side) = some side)
    (s.cell side).get axis (← declared (σ.vertex v))
  | .point axis => entryAt s.point axis

/-- The values of what formulas read, if they may read it. -/
def valueOf (s : Situation α) (σ : Bindings α) : Quantity → α
  | .scalar name => (σ.get Binding.scalar? name).getD 0
  | .coordinate side v axis => (s.cell side).entry axis ((σ.vertex v).getD 0)
  | .point axis => s.point[axis]?.getD 0

theorem valueOf_of_read (h : σ.read s q = .ok x) : σ.valueOf s q = x := by
  cases q with
  | scalar name => rw [valueOf, declared_eq_ok.1 h, Option.getD_some]
  | coordinate side v axis =>
    rcases bind_eq_ok.1 h with ⟨_, _, h⟩
    rcases bind_eq_ok.1 h with ⟨number, hnumber, h⟩
    rw [valueOf, declared_eq_ok.1 hnumber, Option.getD_some]
    exact (Grid.get_eq_ok.1 h).2
  | point axis => rw [valueOf, entryAt_eq_ok.1 h, Option.getD_some]

theorem read_of_value (h : Term.value (σ.read s) e = .ok x) :
    ∀ q ∈ e.names, σ.read s q = .ok (σ.valueOf s q) := by
  intro q hq
  rcases Term.exists_read_of_value h q hq with ⟨y, hy⟩
  rw [valueOf_of_read hy, hy]

end Bindings

section

variable [Scalar α]

/-- The value of a formula. Both branches of a choice must be in scope. -/
def Formula.value (s : Situation α) (σ : Bindings α) : Formula → Checked α
  | plain e => Term.value (σ.read s) e
  | directed opposite a b => do
    let direction ← declared (σ.get Binding.flag? directionName)
    let x ← Term.value (σ.read s) a
    let y ← Term.value (σ.read s) b
    return if direction = opposite then y else x
  | turned opposite a b => do
    let direction ← declared (σ.get Binding.flag? directionName)
    let x ← Term.value (σ.read s) a
    let y ← Term.value (σ.read s) b
    let chosen := if direction then x else y
    return if opposite then -chosen else chosen
  | byFacet side a b => do
    let facet ← declared (σ.get Binding.vertex? (Cpp.facetVariable side))
    let x ← Term.value (σ.read s) a
    let y ← Term.value (σ.read s) b
    return if facet = 0 then x else y

/-- Whether a condition holds. -/
def Test.value (s : Situation α) (σ : Bindings α) : Test → Checked Bool
  | negative e => do return Scalar.lt (← Term.value (σ.read s) e) 0
  | ahead side => do
    let facet ← declared (σ.get Binding.vertex? (Cpp.facetVariable side))
    let x ← σ.read s (.coordinate side (.fixed 0) 0)
    let y ← σ.read s (.coordinate side (.fixed 1) 0)
    return if facet = 0 then Scalar.lt y x else Scalar.lt x y

/-- Why code stops before its end. -/
inductive Stop where
  | fault (f : Fault)
  | thrown (message : String)

instance : MonadLift (Except Fault) (Except Stop) where
  monadLift
    | .ok x => .ok x
    | .error f => .error (.fault f)

theorem Success.lift_stop_eq_ok {β : Type} {x : Checked β} {c : β} :
    (liftM x : Except Stop β) = .ok c ↔ x = .ok c := by
  cases x with
  | error e | ok b => simp [liftM, monadLift, MonadLift.monadLift]

/-- Where code stands with respect to a chain of conditions. -/
inductive Branch where
  /-- Outside of all chains. -/
  | outside
  /-- In front of a statement whose condition holds or not. `done` tells whether one of the
      conditions so far held. -/
  | under (holds done : Bool)
  /-- Behind such a statement, where the next condition may follow. -/
  | behind (done : Bool)

namespace Statement

/-- What a statement declares, if it declares something. -/
def binding (s : Situation α) (σ : Bindings α) :
    Statement → Checked (Option (String × Binding α))
  | nothing | condition _ _ _ | raise _ | scale _ _ => .ok none
  | define isConstant name f => do return some (name, .scalar (← f.value s σ) isConstant)
  | direction test => do return some (directionName, .flag (← test.value s σ))
  | entry side axis e => do
    Checked.bound axis (← declared (σ.get Binding.array? (pointName side)))
    return some (entryName side axis, .scalar (← Term.value (σ.read s) e) true)
  | coordinates name side => .ok (some (name, .cell side))
  | lists name count length rows => do
    Checked.require (rows.length = count && rows.all (·.length = length))
    return some (name, .lists rows)
  | select name listName index place => do
    let rows ← declared (σ.get Binding.lists? listName)
    let row ← entryAt rows (← declared (σ.get Binding.vertex? index))
    return some (name, .vertex (← entryAt row place))
  | array name size => .ok (some (name, .array size))
  | marker name side => .ok (some (name, .marker (s.marker side)))

/-- Whether a statement may stand under a condition. A declaration there would be lost at once. -/
def isAction : Statement → Bool
  | raise _ | scale _ _ => true
  | _ => false

/-- Carries out a statement that is under no condition, or under one that holds. -/
def perform (s : Situation α) (σ : Bindings α) : Statement → Except Stop (Bindings α)
  | raise message => throw (.thrown message)
  | scale name factor => do
    let x ← declared (σ.get Binding.changeable? name)
    let y : α := Scalar.ofNat factor.natAbs
    return σ.set name (.scalar (x * if factor < 0 then -y else y) false)
  | st => do return ← σ.add (← st.binding s σ)

/-- Carries out a statement where it stands. -/
def step (s : Situation α) :
    Bindings α × Branch → Statement → Except Stop (Bindings α × Branch)
  | state, nothing => .ok state
  | (σ, .behind done), condition true name value => do
    let holds ← σ.marks name value
    return (σ, .under (!done && holds) (done || holds))
  | (σ, .outside), condition false name value | (σ, .behind _), condition false name value => do
    let holds ← σ.marks name value
    return (σ, .under holds holds)
  | _, condition _ _ _ => throw (.fault .unmet)
  | (σ, .under holds done), st => do
    Checked.require st.isAction
    let σ ← if holds then st.perform s σ else .ok σ
    return (σ, .behind done)
  | (σ, _), st => do return (← st.perform s σ, .outside)

/-- Carries out statements one after the other. -/
def run (s : Situation α) (sts : List Statement) (state : Bindings α × Branch) :
    Except Stop (Bindings α × Branch) :=
  sts.foldlM (step s) state

variable {s : Situation α} {σ : Bindings α} {st : Statement} {name : String} {value : Nat}
  {holds : Bool}

theorem step_condition (h : σ.marks name value = .ok holds) :
    step s (σ, .outside) (condition false name value) = .ok (σ, .under holds holds) := by
  rw [step, h]
  rfl

theorem step_else (done : Bool) (h : σ.marks name value = .ok holds) :
    step s (σ, .behind done) (condition true name value) =
      .ok (σ, .under (!done && holds) (done || holds)) := by
  rw [step, h]
  rfl

theorem step_under_false (h : st.isAction = true) (done : Bool) :
    step s (σ, .under false done) st = .ok (σ, .behind done) := by
  cases st with
  | raise _ | scale _ _ => rfl
  | _ => cases h

theorem step_under_true (h : st.isAction = true) (done : Bool) :
    step s (σ, .under true done) st = do return (← st.perform s σ, .behind done) := by
  cases st with
  | raise _ | scale _ _ => rfl
  | _ => cases h

end Statement

namespace Cpp

def executeLine (s : Situation α) (state : Bindings α × Branch) (line : String) :
    Except Stop (Bindings α × Branch) := do
  (← declared (statementOf? line)).step s state

/-- Ends code, but not in front of a statement that is under a condition. -/
def finish : Bindings α × Branch → Except Stop (Bindings α)
  | (_, .under _ _) => .error (.fault .unmet)
  | (σ, _) => .ok σ

/-- Carries out code line by line. -/
def execute (s : Situation α) (text : String) (σ : Bindings α) : Except Stop (Bindings α) := do
  finish (← (Text.lines text).foldlM (executeLine s) (σ, .outside))

variable {s : Situation α} {lines : List String} {sts : List Statement}

theorem foldlM_executeLine (h : lines.mapM statementOf? = some sts) (state : Bindings α × Branch) :
    lines.foldlM (executeLine s) state = Statement.run s sts state := by
  induction lines generalizing sts state with
  | nil =>
    cases h
    rfl
  | cons line lines ih =>
    rw [List.mapM_cons] at h
    rcases Option.bind_eq_some_iff.1 h with ⟨st, hst, h⟩
    rcases Option.bind_eq_some_iff.1 h with ⟨sts', hsts', h⟩
    cases h
    have hline : executeLine s state line = st.step s state := by
      rw [executeLine, hst]
      rfl
    rw [Statement.run, List.foldlM_cons, List.foldlM_cons, hline]
    exact congrArg _ (funext fun state' => ih hsts' state')

theorem execute_of_read {text : String} (h : (Text.lines text).mapM statementOf? = some sts)
    (σ : Bindings α) : execute s text σ = Statement.run s sts (σ, .outside) >>= finish := by
  rw [execute, foldlM_executeLine h]

end Cpp

end

/-- Bindings of which others keep everything. -/
def Bindings.Extends (σ σ' : Bindings α) : Prop := ∀ n b, σ n = some b → σ' n = some b

/-! ## Declarations are kept -/

/-- What succeeds with a value still does if each of its parts still does. -/
theorem Success.bind_mono {ε β γ : Type} {x x' : Except ε β} {f f' : β → Except ε γ} {c : γ}
    (hx : ∀ {b}, x = .ok b → x' = .ok b) (hf : ∀ b, f b = .ok c → f' b = .ok c)
    (h : x >>= f = .ok c) : x' >>= f' = .ok c := by
  rcases bind_eq_ok.1 h with ⟨b, hb, hc⟩
  exact bind_eq_ok.2 ⟨b, hx hb, hf b hc⟩

variable {t : Test} {st : Statement}

namespace Bindings.Extends

variable {σ σ' : Bindings α} {β : Type} {view : Binding α → Option β} {n : String}
  (h : σ.Extends σ')

theorem refl (σ : Bindings α) : σ.Extends σ := fun _ _ h => h

include h

theorem trans {σ'' : Bindings α} (h' : σ'.Extends σ'') : σ.Extends σ'' :=
  fun n b hb => h' n b (h n b hb)

theorem get {x : β} (hx : σ.get view n = some x) : σ'.get view n = some x := by
  rcases Option.bind_eq_some_iff.1 hx with ⟨b, hb, hview⟩
  exact Option.bind_eq_some_iff.2 ⟨b, h n b hb, hview⟩

theorem declared_get {x : β} (hx : declared (σ.get view n) = .ok x) :
    declared (σ'.get view n) = .ok x :=
  declared_eq_ok.2 (h.get (declared_eq_ok.1 hx))

variable [Scalar α] {s : Situation α} {x : α}

theorem read (hx : σ.read s q = .ok x) : σ'.read s q = .ok x := by
  cases q with
  | scalar name => exact h.declared_get hx
  | coordinate side v axis =>
    refine bind_mono (fun hcell => ?_) (fun _ => bind_mono (fun hnumber => ?_) fun _ hx => hx) hx
    · rw [Checked.require_eq_ok, decide_eq_true_iff] at hcell ⊢
      exact h.get hcell
    · cases v with
      | fixed number => exact hnumber
      | named name => exact h.declared_get hnumber
  | point axis => exact hx

theorem term (hx : Term.value (σ.read s) e = .ok x) :
    Term.value (σ'.read s) e = .ok x := by
  rw [← hx, Term.value_eq_eval (read_of_value hx)]
  exact Term.value_eq_eval fun q hq => h.read (read_of_value hx q hq)

theorem formula {f : Formula} (hx : f.value s σ = .ok x) : f.value s σ' = .ok x := by
  cases f with
  | plain e => exact h.term hx
  | directed opposite a b | turned opposite a b | byFacet side a b =>
    exact bind_mono h.declared_get
      (fun _ => bind_mono h.term fun _ => bind_mono h.term fun _ hx => hx) hx

theorem test {b : Bool} (hb : t.value s σ = .ok b) : t.value s σ' = .ok b := by
  cases t with
  | negative e => exact bind_mono h.term (fun _ hb => hb) hb
  | ahead side =>
    exact bind_mono h.declared_get
      (fun _ => bind_mono h.read fun _ => bind_mono h.read fun _ hb => hb) hb

theorem binding {o : Option (String × Binding α)} (ho : st.binding s σ = .ok o) :
    st.binding s σ' = .ok o := by
  cases st with
  | nothing | condition _ _ _ | raise _ | scale _ _ | coordinates _ _ | lists _ _ _ _ | array _ _
  | marker _ _ => exact ho
  | define isConstant name f => exact bind_mono h.formula (fun _ ho => ho) ho
  | direction test => exact bind_mono h.test (fun _ ho => ho) ho
  | entry side axis e =>
    refine bind_mono h.declared_get (fun _ => bind_mono (fun hbound => hbound) fun _ => ?_) ho
    exact bind_mono h.term fun _ ho => ho
  | select name listName index place =>
    exact bind_mono h.declared_get (fun _ => bind_mono h.declared_get fun _ ho => ho) ho

end Bindings.Extends

/-- What a statement declares stands as declared: what it computes now is what it computed when it
    was carried out. -/
def Statement.Holds [Scalar α] (s : Situation α) (σ : Bindings α) (st : Statement) : Prop :=
  ∃ o, st.binding s σ = .ok o ∧ ∀ b ∈ o, σ b.1 = some b.2

theorem Statement.Holds.mono [Scalar α] {s : Situation α} {σ σ' : Bindings α} (h : st.Holds s σ)
    (hσ : σ.Extends σ') : st.Holds s σ' := by
  rcases h with ⟨o, ho, hdeclared⟩
  exact ⟨o, hσ.binding ho, fun b hb => hσ _ _ (hdeclared b hb)⟩

def Step.Holds [Scalar α] (s : Situation α) (σ : Bindings α) (step : Step) : Prop :=
  ∀ st ∈ step.statements, st.Holds s σ

/-! ## What declarations say -/

section

/-- A name stands for a scalar. -/
def Bindings.Has (σ : Bindings α) (name : String) (x : α) : Prop :=
  σ.get Binding.scalar? name = some x

variable [Scalar α] {s : Situation α} {σ : Bindings α} {x : α}

theorem Bindings.Has.valueOf {name : String} (h : σ.Has name x) :
    σ.valueOf s (.scalar name) = x := by
  rw [Bindings.valueOf, h, Option.getD_some]

def Formula.eval (s : Situation α) (σ : Bindings α) : Formula → α
  | plain e => Term.eval (σ.valueOf s) e
  | directed opposite a b =>
    if (σ.get Binding.flag? directionName).getD false = opposite then Term.eval (σ.valueOf s) b
    else Term.eval (σ.valueOf s) a
  | turned opposite a b =>
    let chosen :=
      if (σ.get Binding.flag? directionName).getD false then Term.eval (σ.valueOf s) a
      else Term.eval (σ.valueOf s) b
    if opposite then -chosen else chosen
  | byFacet side a b =>
    if (σ.get Binding.vertex? (Cpp.facetVariable side)).getD 0 = 0 then Term.eval (σ.valueOf s) a
    else Term.eval (σ.valueOf s) b

/-- Whether a condition that can be evaluated holds. -/
def Test.eval (s : Situation α) (σ : Bindings α) : Test → Bool
  | negative e => Scalar.lt (Term.eval (σ.valueOf s) e) 0
  | ahead side =>
    if (σ.get Binding.vertex? (Cpp.facetVariable side)).getD 0 = 0 then
      Scalar.lt ((s.cell side).entry 0 1) ((s.cell side).entry 0 0)
    else Scalar.lt ((s.cell side).entry 0 0) ((s.cell side).entry 0 1)

theorem Term.eval_of_value (h : Term.value (σ.read s) e = .ok x) :
    Term.eval (σ.valueOf s) e = x := by
  rw [Term.value_eq_eval (Bindings.read_of_value h)] at h
  exact Except.ok.inj h

theorem Formula.eval_of_value {f : Formula} (h : f.value s σ = .ok x) : f.eval s σ = x := by
  cases f with
  | plain e => exact Term.eval_of_value h
  | directed opposite a b | turned opposite a b | byFacet side a b =>
    rcases bind_eq_ok.1 h with ⟨c, hc, h⟩
    rcases bind_eq_ok.1 h with ⟨y, hy, h⟩
    rcases bind_eq_ok.1 h with ⟨z, hz, h⟩
    rw [eval, declared_eq_ok.1 hc, Option.getD_some, Term.eval_of_value hy, Term.eval_of_value hz]
    exact pure_eq_ok.1 h

theorem Test.eval_of_value {b : Bool} (h : t.value s σ = .ok b) : t.eval s σ = b := by
  cases t with
  | negative e =>
    rcases bind_eq_ok.1 h with ⟨x, hx, h⟩
    rw [eval, Term.eval_of_value hx]
    exact pure_eq_ok.1 h
  | ahead side =>
    rcases bind_eq_ok.1 h with ⟨facet, hfacet, h⟩
    rcases bind_eq_ok.1 h with ⟨x, hx, h⟩
    rcases bind_eq_ok.1 h with ⟨y, hy, h⟩
    rw [eval, declared_eq_ok.1 hfacet, Option.getD_some]
    rw [← Bindings.valueOf_of_read hx, ← Bindings.valueOf_of_read hy] at h
    exact pure_eq_ok.1 h

namespace Step.Holds

variable {isConstant : Bool} {name lists : String} {layout : Layout} {f : Formula}
  {side : Option Side}

theorem define (h : (Step.define isConstant name layout f).Holds s σ) :
    σ name = some (.scalar (f.eval s σ) isConstant) := by
  rcases List.forall_mem_singleton.1 h with ⟨o, ho, hσ⟩
  rcases bind_eq_ok.1 ho with ⟨x, hx, ho⟩
  rw [← pure_eq_ok.1 ho] at hσ
  rw [Formula.eval_of_value hx]
  exact hσ _ rfl

theorem has (h : (Step.define isConstant name layout f).Holds s σ) : σ.Has name (f.eval s σ) :=
  Option.bind_eq_some_iff.2 ⟨_, h.define, rfl⟩

theorem direction (h : (Step.direction t).Holds s σ) :
    σ.get Binding.flag? directionName = some (t.eval s σ) := by
  rcases List.forall_mem_singleton.1 h with ⟨o, ho, hσ⟩
  rcases bind_eq_ok.1 ho with ⟨b, hb, ho⟩
  rw [← pure_eq_ok.1 ho] at hσ
  rw [Test.eval_of_value hb]
  exact Option.bind_eq_some_iff.2 ⟨_, hσ _ rfl, rfl⟩

theorem facetVertex {rows : List (List Nat)} {place facet : Nat}
    (hlists : (Step.vertexLists lists rows).Holds s σ)
    (h : (Step.facetVertex name lists side place).Holds s σ)
    (hfacet : σ.get Binding.vertex? (Cpp.facetVariable side) = some facet) :
    ∃ row v, rows[facet]? = some row ∧ row[place]? = some v ∧
      σ.get Binding.vertex? name = some v := by
  rcases List.forall_mem_singleton.1 hlists with ⟨o, ho, hσ⟩
  rcases bind_eq_ok.1 ho with ⟨_, _, ho⟩
  rw [← pure_eq_ok.1 ho] at hσ
  have hrows : σ.get Binding.lists? lists = some rows :=
    Option.bind_eq_some_iff.2 ⟨_, hσ _ rfl, rfl⟩
  rcases List.forall_mem_singleton.1 h with ⟨o, ho, hσ⟩
  rcases bind_eq_ok.1 ho with ⟨rows', hrows', ho⟩
  rcases bind_eq_ok.1 ho with ⟨facet', hfacet', ho⟩
  rcases bind_eq_ok.1 ho with ⟨row, hrow, ho⟩
  rcases bind_eq_ok.1 ho with ⟨v, hv, ho⟩
  rw [← pure_eq_ok.1 ho] at hσ
  rw [declared_eq_ok, hrows, Option.some.injEq] at hrows'
  rw [declared_eq_ok, hfacet, Option.some.injEq] at hfacet'
  rw [← hrows', ← hfacet'] at hrow
  exact ⟨row, v, entryAt_eq_ok.1 hrow, entryAt_eq_ok.1 hv,
    Option.bind_eq_some_iff.2 ⟨_, hσ _ rfl, rfl⟩⟩

theorem pointEntry {axis : Nat} (h : (Step.pointEntry side axis e).Holds s σ) :
    σ.Has (entryName side axis) (Term.eval (σ.valueOf s) e) := by
  rcases List.forall_mem_singleton.1 h with ⟨o, ho, hσ⟩
  rcases bind_eq_ok.1 ho with ⟨size, _, ho⟩
  rcases bind_eq_ok.1 ho with ⟨_, _, ho⟩
  rcases bind_eq_ok.1 ho with ⟨x, hx, ho⟩
  rw [← pure_eq_ok.1 ho] at hσ
  rw [Term.eval_of_value hx]
  exact Option.bind_eq_some_iff.2 ⟨_, hσ _ rfl, rfl⟩

end Step.Holds

end

end WeakForm
