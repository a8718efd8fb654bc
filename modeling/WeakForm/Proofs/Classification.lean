import WeakForm.Proofs.Blame

/-!
# The integrals of a form and their verdicts

A form is compiled integral by integral. The integrals are listed by kind, and those of a
kind by domain, without a gap up to the largest domain that has a monomial. Every monomial
is in the integral of its own kind and domain and in no other, so the integrals share out
the monomials of the form (`Form.perm_monomialsOn`).

What becomes of an integral is settled by its monomials and by the arguments of the form.
It is rejected if the dimensions of the form are not supported, if one of its monomials
does not fit the form, or if it has monomials and some argument cannot be tabulated
(`Form.Rejects`). The argument does not have to be one that a particular monomial reads:
a monomial that fits the form has a factor for each of them. Nothing in this depends on the
options, hence the two representations agree on what they reject.

## Theorems

* `Form.lt_domainCount_iff`: The domains of a kind.
* `Compiler.settles_of_compileIntegral`: The verdict on one integral.
* `Compiler.compile_partition`: The integrals of a compiled form and their verdicts.
-/

namespace WeakForm

open List Success

variable {α : Type}

theorem flatMap_filter_perm {β κ : Type} [DecidableEq κ] (key : β → κ) {keys : List κ}
    (hkeys : keys.Nodup) {xs : List β} (hcover : ∀ x ∈ xs, key x ∈ keys) :
    (keys.flatMap fun k => xs.filter fun x => key x = k).Perm xs := by
  induction keys generalizing xs with
  | nil =>
    rw [eq_nil_iff_forall_not_mem.2 fun x hx => not_mem_nil (hcover x hx)]
    exact List.Perm.refl _
  | cons k keys ih =>
    rw [nodup_cons] at hkeys
    -- The later keys only see what the first one leaves.
    have hrest : (keys.flatMap fun k' => xs.filter fun x => key x = k') =
        keys.flatMap fun k' =>
          (xs.filter fun x => !decide (key x = k)).filter fun x => key x = k' := by
      rw [flatMap_def, flatMap_def]
      congr 1
      refine map_congr_left fun k' hk' => ?_
      rw [filter_filter]
      refine filter_congr fun x _ => ?_
      by_cases hx : key x = k'
      · have hne : key x ≠ k := fun h => hkeys.1 (h ▸ hx ▸ hk')
        simp [hx, hx ▸ hne]
      · simp [hx]
    have hcover' : ∀ x ∈ xs.filter fun x => !decide (key x = k), key x ∈ keys := by
      intro x hx
      rw [mem_filter, Bool.not_eq_true', decide_eq_false_iff_not] at hx
      exact (mem_cons.1 (hcover x hx.1)).resolve_left hx.2
    rw [flatMap_cons, hrest]
    exact ((ih hkeys.2 hcover').append_left _).trans (filter_append_perm _ _)

namespace Form

variable {f : Form α} {kind : Integral} {domain : Nat}

def monomialsOn (f : Form α) (kind : Integral) (domain : Nat) : List (Monomial α) :=
  f.monomials.filter fun m => m.integral = kind && m.domain = domain

theorem mem_monomialsOn {m : Monomial α} :
    m ∈ f.monomialsOn kind domain ↔ m ∈ f.monomials ∧ m.integral = kind ∧ m.domain = domain := by
  unfold monomialsOn
  rw [mem_filter, Bool.and_eq_true, decide_eq_true_iff, decide_eq_true_iff]

def domainCount (f : Form α) (kind : Integral) : Nat :=
  match ((f.monomials.filter fun m => m.integral = kind).map fun m => m.domain).max? with
  | none => 0
  | some last => last + 1

theorem lt_domainCount_iff :
    domain < f.domainCount kind ↔ ∃ m ∈ f.monomials, m.integral = kind ∧ domain ≤ m.domain := by
  have hmem : ∀ n, n ∈ (f.monomials.filter fun m => m.integral = kind).map (fun m => m.domain) ↔
      ∃ m ∈ f.monomials, m.integral = kind ∧ m.domain = n := by
    intro n
    simp only [mem_map, mem_filter, decide_eq_true_iff, and_assoc]
  unfold domainCount
  split
  · next hnone =>
    rw [max?_eq_none_iff] at hnone
    refine ⟨fun h => absurd h (Nat.not_lt_zero domain), fun ⟨m, hm, hkind, _⟩ => ?_⟩
    have hlisted := (hmem m.domain).2 ⟨m, hm, hkind, rfl⟩
    rw [hnone] at hlisted
    cases hlisted
  · next last hlast =>
    rw [max?_eq_some_iff] at hlast
    rw [Nat.lt_succ_iff]
    constructor
    · intro hle
      rcases (hmem last).1 hlast.1 with ⟨m, hm, hkind, hdomain⟩
      exact ⟨m, hm, hkind, hdomain ▸ hle⟩
    · rintro ⟨m, hm, hkind, hle⟩
      exact hle.trans (hlast.2 m.domain ((hmem m.domain).2 ⟨m, hm, hkind, rfl⟩))

/-- The kinds and domains of the integrals of a form. -/
def places (f : Form α) : List (Integral × Nat) :=
  Integral.all.flatMap fun kind => (List.range (f.domainCount kind)).map (Prod.mk kind)

theorem mem_places : (kind, domain) ∈ f.places ↔ domain < f.domainCount kind := by
  have hkind : kind ∈ Integral.all := by cases kind <;> decide
  unfold places
  simp only [mem_flatMap, mem_map, mem_range, Prod.mk.injEq]
  constructor
  · rintro ⟨_, _, _, hlt, rfl, rfl⟩
    exact hlt
  · exact fun hlt => ⟨kind, hkind, domain, hlt, rfl, rfl⟩

theorem nodup_places (f : Form α) : f.places.Nodup := by
  refine nodup_flatMap.2 ⟨fun kind _ => ?_, ?_⟩
  · exact nodup_range.map fun _ _ h => (Prod.mk.inj h).2
  · refine (by decide : Integral.all.Nodup).imp fun {kind kind'} hne => ?_
    -- Places of two lists differ in their kinds.
    intro place hplace hplace'
    rcases mem_map.1 hplace with ⟨_, _, rfl⟩
    rcases mem_map.1 hplace' with ⟨_, _, h⟩
    exact hne (Prod.mk.inj h).1.symm

/-- The integrals share out the monomials of the form. -/
theorem perm_monomialsOn (f : Form α) :
    (f.places.flatMap fun place => f.monomialsOn place.1 place.2).Perm f.monomials := by
  have hcover : ∀ m ∈ f.monomials, (m.integral, m.domain) ∈ f.places :=
    fun m hm => mem_places.2 (lt_domainCount_iff.2 ⟨m, hm, rfl, Nat.le_refl _⟩)
  have hfilter : ∀ place : Integral × Nat, f.monomialsOn place.1 place.2 =
      f.monomials.filter fun m => (m.integral, m.domain) = place := by
    rintro ⟨kind, domain⟩
    exact filter_congr fun m _ => by simp
  simp only [hfilter]
  exact flatMap_filter_perm (fun m : Monomial α => (m.integral, m.domain)) f.nodup_places hcover

end Form

section

theorem integralsOf_eq (f : Form α) :
    integralsOf f = f.places.map fun place => (place.1, place.2, f.monomialsOn place.1 place.2) := by
  have hplaces : (integralsOf f).map (fun x => (x.1, x.2.1)) = f.places := by
    unfold integralsOf Form.places Form.domainCount
    rw [map_flatMap]
    congr 1
    funext kind
    dsimp only
    -- Both sides look for the largest domain of the kind.
    generalize ((f.monomials.filter fun m => m.integral = kind).map fun m => m.domain).max? = last
    cases last with
    | none => rfl
    | some last => exact map_map
  rw [← hplaces, map_map]
  refine (map_id _).symm.trans (map_congr_left ?_)
  rintro ⟨kind, domain, ms⟩ h
  exact congrArg (fun ms => (kind, domain, ms)) (mem_integralsOf h).1

/-- The compiled integrals share out the monomials of a form. -/
structure CompiledForm.Partition (f : Form α) (r : CompiledForm) : Prop where
  /-- The integrals are listed by kind, and those of a kind by domain without a gap. -/
  places : ∃ count : Integral → Nat,
    (∀ kind domain, domain < count kind ↔
      ∃ m ∈ f.monomials, m.integral = kind ∧ domain ≤ m.domain) ∧
    r.integrals.map (fun i => (i.kind, i.domain)) =
      [.cell, .exteriorFacet, .interiorFacet].flatMap fun kind =>
        (List.range (count kind)).map (Prod.mk kind)
  once : (r.integrals.map fun i => (i.kind, i.domain)).Nodup
  names : (r.integrals.map CompiledIntegral.name).Nodup
  /-- Together the integrals have the monomials of the form, each as often as the form. -/
  monomials : (r.integrals.flatMap fun i => f.monomialsOn i.kind i.domain).Perm f.monomials
  /-- A monomial is in one integral. -/
  unique : ∀ m ∈ f.monomials, ∃! i, i ∈ r.integrals ∧ m ∈ f.monomialsOn i.kind i.domain

/-- What became of an integral. -/
inductive Verdict where
  | emitted
  | empty
  | failed
  deriving DecidableEq

def IntegralOutcome.verdict : IntegralOutcome → Verdict
  | .emitted _ => .emitted
  | .empty => .empty
  | .failed _ => .failed

/-- The Lagrange elements of the degrees that can be tabulated. -/
def Element.Tabulatable (e : Element) : Prop :=
  e.family = .lagrange ∧ e.degree = 1 ∨
    (e.family = .discontinuousLagrange ∨ e.family = .vectorLagrange) ∧ e.degree ≤ 1

theorem Element.tabulatable_iff {e : Element} : e.Tabulatable ↔ Tabulator.isLagrange e = true := by
  unfold Tabulatable Tabulator.isLagrange
  cases e.family <;> simp

namespace Form

/-- The monomials of an integral cannot be compiled. -/
def Rejects (f : Form α) (ms : List (Monomial α)) : Prop :=
  (∃ p, f.dims = .error p) ∨ (∃ m ∈ ms, ∃ p, f.arrange m = .error (.problem p)) ∨
    ms ≠ [] ∧ ∃ e ∈ f.arguments, ¬ e.Tabulatable

variable {f : Form α} {ms : List (Monomial α)}

theorem rejects_iff : f.Rejects ms ↔ f.Troubled ms := by
  have hunknown : (∃ e ∈ f.arguments, ¬ e.Tabulatable) ↔
      ∃ e ∈ f.arguments, Tabulator.isLagrange e = false := by
    simp only [Element.tabulatable_iff, Bool.not_eq_true]
  unfold Rejects Troubled Flawed
  rw [hunknown]
  -- An argument that cannot be tabulated spoils all monomials, if there are any.
  refine or_congr_right ⟨?_, ?_⟩
  · rintro (⟨m, hm, hp⟩ | ⟨hms, he⟩)
    · exact ⟨m, hm, .inl hp⟩
    · rcases exists_mem_of_ne_nil ms hms with ⟨m, hm⟩
      exact ⟨m, hm, .inr he⟩
  · rintro ⟨m, hm, hp | he⟩
    · exact .inl ⟨m, hm, hp⟩
    · exact .inr ⟨ne_nil_of_mem hm, he⟩

/-- The verdict on an integral is the one that its monomials call for. -/
structure Settles (f : Form α) (ms : List (Monomial α)) (v : Verdict) : Prop where
  failed : v = .failed ↔ f.Rejects ms
  empty : v = .empty ↔ ¬ f.Rejects ms ∧ ms = []
  emitted : v = .emitted ↔ ¬ f.Rejects ms ∧ ms ≠ []

theorem Settles.unique {v v' : Verdict} (h : f.Settles ms v) (h' : f.Settles ms v') : v = v' := by
  cases v with
  | failed => exact (h'.failed.2 (h.failed.1 rfl)).symm
  | empty => exact (h'.empty.2 (h.empty.1 rfl)).symm
  | emitted => exact (h'.emitted.2 (h.emitted.1 rfl)).symm

theorem Settles.map_eq {integrals integrals' : List CompiledIntegral}
    (hplaces : integrals'.map (fun i => (i.kind, i.domain)) =
      integrals.map fun i => (i.kind, i.domain))
    (h' : ∀ i ∈ integrals', f.Settles (f.monomialsOn i.kind i.domain) i.outcome.verdict)
    (h : ∀ i ∈ integrals, f.Settles (f.monomialsOn i.kind i.domain) i.outcome.verdict) :
    integrals'.map (fun i => (i.kind, i.domain, i.outcome.verdict)) =
      integrals.map fun i => (i.kind, i.domain, i.outcome.verdict) := by
  induction integrals generalizing integrals' with
  | nil => rw [map_eq_nil_iff.1 hplaces, map_nil]
  | cons i integrals ih =>
    rcases map_eq_cons_iff.1 hplaces with ⟨i', rest, rfl, hplace, hplaces⟩
    rw [Prod.mk.injEq] at hplace
    rw [forall_mem_cons] at h h'
    rw [map_cons, map_cons, ih hplaces h'.2 h.2]
    have hsettled := h'.1
    rw [hplace.1, hplace.2] at hsettled ⊢
    rw [hsettled.unique h.1]

end Form
end

namespace Compiler

section

theorem routineName_injective {s : Setting α} {f : Form α} {kind kind' : Integral}
    {domain domain' : Nat} (h : routineName s f kind domain = routineName s f kind' domain') :
    kind = kind' ∧ domain = domain' := by
  have hlist := congrArg String.toList h
  simp only [routineName, String.toList_append, append_assoc, append_cancel_left_eq,
    Nat.toString_eq_repr, Nat.toList_repr] at hlist
  -- The names of the kinds differ in their first letters.
  have hkind : kind = kind' := by
    cases kind <;> cases kind' <;> first | rfl | exact absurd (cons.inj hlist).1 (by decide)
  subst hkind
  rw [append_cancel_left_eq, append_cancel_left_eq] at hlist
  refine ⟨rfl, ?_⟩
  rw [← Nat.ofDigitChars_ten_toDigits (n := domain), hlist, Nat.ofDigitChars_ten_toDigits]

end

variable [Scalar α] {s : Setting α} {f : Form α} {primary : MultiIndex} {c : Allocator}
  {r : CompiledForm} {kind : Integral} {domain : Nat} {ms : List (Monomial α)}
  {i : CompiledIntegral}

theorem map_place_compile {c : Compiler α} (h : (c.compile f).1 = .ok r) :
    r.integrals.map (fun i => (i.kind, i.domain)) = f.places := by
  have hplaces : (integralsOf f).map (fun x => (x.1, x.2.1)) = f.places := by
    rw [integralsOf_eq, map_map]
    exact map_id _
  rw [← hplaces]
  exact map_eq_of_forall₂ (compile_forall₂ h).flip fun i x hx => Prod.ext hx.1.1 hx.1.2

theorem name_of_compileIntegral (h : (compileIntegral s f primary kind domain ms c).1 = .ok i) :
    i.name = routineName s f kind domain := by
  rw [compileIntegral_fst] at h
  generalize ((integralRoutine s f primary kind domain ms).run c).1 = result at h
  rcases result with (_ | _) | _
  · rw [← Except.ok.inj h]
  · cases h
  · rw [← Except.ok.inj h]

theorem settles_of_compileIntegral (htabulator : s.tabulator = Tabulator.lagrange)
    (harguments : ∀ e ∈ f.arguments, e.Constructed)
    (h : (compileIntegral s f primary kind domain ms c).1 = .ok i) :
    f.Settles ms i.outcome.verdict := by
  have hblames := blames_integralRoutine htabulator harguments primary kind domain ms c
  rw [compileIntegral_fst] at h
  -- A problem is blamed on the monomials, a fault ends the whole compilation, and after success
  -- there is nothing to blame.
  rcases hrun : (integralRoutine s f primary kind domain ms).run c with ⟨(p | fault) | r, c'⟩
  · rw [hrun] at h hblames
    cases h
    have hrejects := Form.rejects_iff.2 (hblames p rfl)
    exact ⟨iff_of_true rfl hrejects, iff_of_false Verdict.noConfusion fun hfine => hfine.1 hrejects,
      iff_of_false Verdict.noConfusion fun hfine => hfine.1 hrejects⟩
  · rw [hrun] at h
    cases h
  · rw [hrun] at h
    cases h
    have hfine : ¬ f.Rejects ms := Form.rejects_iff.not.2 (not_troubled_of_ok htabulator hrun)
    cases ms with
    | nil =>
      exact ⟨iff_of_false Verdict.noConfusion hfine, iff_of_true rfl ⟨hfine, rfl⟩,
        iff_of_false Verdict.noConfusion fun hcalled => hcalled.2 rfl⟩
    | cons m ms =>
      exact ⟨iff_of_false Verdict.noConfusion hfine,
        iff_of_false Verdict.noConfusion fun hcalled => cons_ne_nil m ms hcalled.2,
        iff_of_true rfl ⟨hfine, cons_ne_nil m ms⟩⟩

theorem partition_of_compile {c : Compiler α} (h : (c.compile f).1 = .ok r) : r.Partition f := by
  have hplaces := map_place_compile h
  have hnodup : (r.integrals.map fun i => (i.kind, i.domain)).Nodup := hplaces ▸ f.nodup_places
  have hunique : ∀ i ∈ r.integrals, ∀ i' ∈ r.integrals, i.kind = i'.kind ∧ i.domain = i'.domain →
      i = i' := fun i hi i' hi' heq =>
    inj_on_of_nodup_map hnodup hi hi' (Prod.ext heq.1 heq.2)
  refine ⟨⟨f.domainCount, fun _ _ => Form.lt_domainCount_iff, hplaces⟩, hnodup, ?_, ?_, ?_⟩
  · refine Nodup.map_on (fun i hi i' hi' hname => ?_) (Nodup.of_map _ hnodup)
    rcases compile_eq_ok h i hi with ⟨c₁, hcompiled⟩
    rcases compile_eq_ok h i' hi' with ⟨c₂, hcompiled'⟩
    rw [name_of_compileIntegral hcompiled, name_of_compileIntegral hcompiled'] at hname
    exact hunique i hi i' hi' (routineName_injective hname)
  · have hperm := f.perm_monomialsOn
    rw [← hplaces, flatMap_map] at hperm
    exact hperm
  -- A monomial has a place, and there is one integral for each place.
  · intro m hm
    have hplace : (m.integral, m.domain) ∈ f.places :=
      Form.mem_places.2 (Form.lt_domainCount_iff.2 ⟨m, hm, rfl, Nat.le_refl _⟩)
    rw [← hplaces] at hplace
    rcases mem_map.1 hplace with ⟨i, hi, heq⟩
    rw [Prod.mk.injEq] at heq
    refine ⟨i, ⟨hi, Form.mem_monomialsOn.2 ⟨hm, heq.1.symm, heq.2.symm⟩⟩, ?_⟩
    rintro i' ⟨hi', hm'⟩
    rcases Form.mem_monomialsOn.1 hm' with ⟨_, hkind, hdomain⟩
    exact hunique i' hi' i hi ⟨hkind.symm.trans heq.1.symm, hdomain.symm.trans heq.2.symm⟩

/-- The integrals of a compiled form share out its monomials, each is compiled from its own ones
    in the order of the form, and the verdict on it is the one these monomials call for. The
    verdicts are the same under all options. -/
theorem compile_partition {c : Compiler α} {f : Form α} {compiled : CompiledForm}
    (h : (c.compile f).1 = .ok compiled) :
    compiled.Partition f ∧
    (∀ i ∈ compiled.integrals, i.name = routineName c.setting f i.kind i.domain ∧
      ∀ allocator, (compileIntegral c.setting
        { f with monomials := f.monomialsOn i.kind i.domain }
        (MultiIndex.primary .empty f.argumentDims).1 i.kind i.domain
        (f.monomialsOn i.kind i.domain) allocator).1 = .ok i) ∧
    (c.setting.tabulator = Tabulator.lagrange → (∀ e ∈ f.arguments, e.Constructed) →
      (∀ i ∈ compiled.integrals,
        f.Settles (f.monomialsOn i.kind i.domain) i.outcome.verdict) ∧
      ∀ (c' : Compiler α) (compiled' : CompiledForm),
        c'.setting.tabulator = Tabulator.lagrange → (c'.compile f).1 = .ok compiled' →
        compiled'.integrals.map (fun i => (i.kind, i.domain, i.outcome.verdict)) =
          compiled.integrals.map fun i => (i.kind, i.domain, i.outcome.verdict)) := by
  refine ⟨partition_of_compile h, fun i hi => ?_, fun htabulator harguments => ?_⟩
  · rcases compile_eq_ok h i hi with ⟨c₁, hcompiled⟩
    refine ⟨name_of_compileIntegral hcompiled, fun allocator => ?_⟩
    rw [compileIntegral_monomials, compileIntegral_eq _ _ _ _ _ _ allocator c₁]
    exact hcompiled
  have hsettles : ∀ (c : Compiler α) (compiled : CompiledForm),
      c.setting.tabulator = Tabulator.lagrange → (c.compile f).1 = .ok compiled →
      ∀ i ∈ compiled.integrals,
        f.Settles (f.monomialsOn i.kind i.domain) i.outcome.verdict := by
    intro c compiled htabulator h i hi
    rcases compile_eq_ok h i hi with ⟨c₁, hcompiled⟩
    exact settles_of_compileIntegral htabulator harguments hcompiled
  refine ⟨hsettles c compiled htabulator h, fun c' compiled' htabulator' h' => ?_⟩
  exact Form.Settles.map_eq ((map_place_compile h').trans (map_place_compile h).symm)
    (hsettles c' compiled' htabulator' h') (hsettles c compiled htabulator h)

end Compiler

/-- A form of which integrals are compiled, empty and failed, in both representations. -/
theorem compile_partition_flawedForm :
    (∀ e ∈ flawedForm.arguments, e.Constructed) ∧
    ∃ tensor quadrature,
      (Compiler.compile ⟨repeatedSetting .tensor, {}⟩ flawedForm).1 = .ok tensor ∧
      (Compiler.compile ⟨repeatedSetting .quadrature, {}⟩ flawedForm).1 = .ok quadrature ∧
      tensor.Partition flawedForm ∧
      (∀ i ∈ tensor.integrals,
        flawedForm.Settles (flawedForm.monomialsOn i.kind i.domain) i.outcome.verdict) ∧
      quadrature.integrals.map (fun i => (i.kind, i.domain, i.outcome.verdict)) =
        tensor.integrals.map (fun i => (i.kind, i.domain, i.outcome.verdict)) ∧
      tensor.integrals.map (fun i => (i.kind, i.domain, i.outcome.verdict)) =
        [(.cell, 0, .emitted), (.cell, 1, .empty), (.cell, 2, .failed),
          (.interiorFacet, 0, .emitted), (.interiorFacet, 1, .failed)] := by
  have harguments : ∀ e ∈ flawedForm.arguments, e.Constructed := by
    intro e he
    rw [List.eq_of_mem_replicate he]
    exact constructed_linearElement .triangle
  rcases exists_of_isOk (x := (Compiler.compile ⟨repeatedSetting .tensor, {}⟩ flawedForm).1)
    (by decide +kernel) with ⟨tensor, htensor⟩
  rcases exists_of_isOk (x := (Compiler.compile ⟨repeatedSetting .quadrature, {}⟩ flawedForm).1)
    (by decide +kernel) with ⟨quadrature, hquadrature⟩
  rcases Compiler.compile_partition htensor with ⟨hpartition, _, hverdicts⟩
  rcases hverdicts rfl harguments with ⟨hsettles, hsame⟩
  refine ⟨harguments, tensor, quadrature, htensor, hquadrature, hpartition, hsettles,
    hsame ⟨repeatedSetting .quadrature, {}⟩ quadrature rfl hquadrature, ?_⟩
  have hlisted : (Compiler.compile ⟨repeatedSetting .tensor, {}⟩ flawedForm).1.map
      (fun r => r.integrals.map fun i => (i.kind, i.domain, i.outcome.verdict)) =
        .ok [(.cell, 0, .emitted), (.cell, 1, .empty), (.cell, 2, .failed),
          (.interiorFacet, 0, .emitted), (.interiorFacet, 1, .failed)] := by decide +kernel
  rw [htensor] at hlisted
  exact Except.ok.inj hlisted

end WeakForm
