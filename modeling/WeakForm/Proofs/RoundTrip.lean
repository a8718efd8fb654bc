import WeakForm.Codec.Form
import WeakForm.Codec.Options

/-!
# Writing and reading the data model

What is written of a form, of options, of indices and of dimensions is read as the same
value again. Values are not restricted by what the library can do with them: an element
may have any shapes and degrees of freedom, a monomial may name arguments that do not
exist. All that is asked of a value is that it can be written (`Writable`): counts are words,
and numbers are finite.

Reading is more liberal than writing. Members that nobody asks for, the order of members,
repeated members, members that are left out where there is a usual value, records written
as arrays, mappings spelled with underscores and capitals, integers where a double is
expected: all of this is read, and none of it is written. So a value has many forms in
which it can be read, and the form in which it is written is one of them: what has been
read, whatever it was read from, is written in a form that is read the same.

The proofs go by the type. `RoundTrip` has two parts, that what is written is read again
and that what is read can be written, and there is a lemma for each way to put decoders
together. For records the two parts are about field readers: `FieldReader.Yields` for
objects that have all the fields, and `FieldReader.Covers` for anything that is read,
which also says what is overlooked.

## Main definitions

* `Form.Writable`, `Options.Writable`, …: Values that can be written.

## Theorems

* `codec_roundTrip`: Reading undoes writing for the whole data model.
-/

namespace WeakForm

open List Decoder

/-- Values that can be written are read again, and only such values are read. -/
structure RoundTrip {β : Type} (Writable : β → Prop) (toJson : β → Json) (ofJson? : Decoder β) :
    Prop where
  read_written : ∀ x, Writable x → ofJson? (toJson x) = some x
  writable : ∀ j x, ofJson? j = some x → Writable x
  /-- What has been read, from whatever form, is written in a form that is read the same. -/
  reread : ∀ j x, ofJson? j = some x → ofJson? (toJson x) = some x :=
    fun j x h => read_written x (writable j x h)

namespace RoundTrip

variable {β : Type} {Writable : β → Prop} {toJson : β → Json} {ofJson? : Decoder β}

theorem text : RoundTrip (fun _ => True) Json.string Decoder.text where
  read_written _ _ := rfl
  writable _ _ _ := trivial

theorem flag : RoundTrip (fun _ => True) Json.bool Decoder.flag where
  read_written _ _ := rfl
  writable _ _ _ := trivial

theorem below (limit : Nat) : RoundTrip (· < limit) Json.natural (Decoder.below limit) where
  read_written n hn := if_pos ⟨Int.natCast_nonneg n, hn⟩
  writable j n h := by
    unfold Decoder.below at h
    split at h
    · split at h
      · next hbound =>
        cases h
        exact hbound.2
      · cases h
    · cases h

theorem word : RoundTrip (· < Size.limit) Json.natural Decoder.word := below Size.limit

theorem number : RoundTrip (fun x => x.isFinite = true) Json.ofFloat Decoder.number where
  read_written x hx := by
    have hwritten : Json.ofFloat x = .float x := if_pos hx
    rw [hwritten]
    exact if_pos hx
  writable j x h := by
    have hfinite : ∀ y, finite? y = some x → x.isFinite = true := by
      intro y hy
      unfold finite? at hy
      split at hy
      · next hfinite => exact Option.some.inj hy ▸ hfinite
      · cases hy
    unfold Decoder.number at h
    split at h
    · exact hfinite _ h
    · exact hfinite _ h
    · cases h

theorem list (h : RoundTrip Writable toJson ofJson?) :
    RoundTrip (fun xs => ∀ x ∈ xs, Writable x) (fun xs => .array (xs.map toJson))
      (Decoder.list ofJson?) where
  read_written xs hxs := by
    change (xs.map toJson).mapM ofJson? = some xs
    induction xs with
    | nil => rfl
    | cons x xs ih =>
      rw [forall_mem_cons] at hxs
      rw [map_cons, mapM_cons, h.read_written x hxs.1, ih hxs.2]
      rfl
  writable j xs hj := by
    unfold Decoder.list at hj
    split at hj
    · next items =>
      induction items generalizing xs with
      | nil =>
        cases hj
        exact fun x hx => absurd hx not_mem_nil
      | cons item items ih =>
        rw [mapM_cons] at hj
        rcases Option.bind_eq_some_iff.1 hj with ⟨x, hx, hj⟩
        rcases Option.bind_eq_some_iff.1 hj with ⟨rest, hrest, hj⟩
        cases hj
        exact forall_mem_cons.2 ⟨h.writable item x hx, ih rest hrest⟩
    · cases hj

theorem optional (h : RoundTrip Writable toJson ofJson?) (hnull : ∀ x, toJson x ≠ .null) :
    RoundTrip (fun x => ∀ y ∈ x, Writable y) (Json.ofOption toJson) (Decoder.optional ofJson?) where
  read_written x hx := by
    cases x with
    | none => rfl
    | some x =>
      have hread := h.read_written x (hx x rfl)
      change Decoder.optional ofJson? (toJson x) = some (some x)
      unfold Decoder.optional
      split
      · next hj => exact absurd hj (hnull x)
      · rw [hread]
        rfl
  writable j x hj := by
    unfold Decoder.optional at hj
    split at hj
    · cases hj
      exact fun y hy => absurd hy (Option.not_mem_none y)
    · rcases Option.map_eq_some_iff.1 hj with ⟨y, hy, rfl⟩
      intro z hz
      rw [← Option.mem_some_iff.1 hz]
      exact h.writable j y hy

theorem oneOf {choices : List β} {nameOf : β → String}
    (h : ∀ c, (choices.find? fun c' => nameOf c' == nameOf c) = some c) :
    RoundTrip (fun _ => True) (fun c => .string (nameOf c)) (Decoder.oneOf choices nameOf) where
  read_written c _ := h c
  writable _ _ _ := trivial

end RoundTrip

namespace FieldReader

variable {β γ : Type}

section

variable {o : Json} {key : String} {d : Decoder β} {default x : β} {s s' : Fields}

theorem lift_eq (d : Option β) (s : Fields) : (liftM d : FieldReader β) s = d.map (·, s) := by
  cases d <;> rfl

theorem required_named : required key d (.named o) = (o.field? key >>= d).map (·, .named o) := by
  unfold required next
  simp only [bind, StateT.bind, Option.bind]
  cases o.field? key with
  | none => rfl
  | some j => exact lift_eq (d j) _

theorem defaulted_named : defaulted key d default (.named o) =
    (((o.field? key).map d).getD (some default)).map (·, .named o) := by
  unfold defaulted next
  simp only [bind, StateT.bind, Option.bind]
  cases o.field? key with
  | none => rfl
  | some j => exact lift_eq (d j) _

theorem lift_eq_some {y : Option β} (h : (liftM y : FieldReader β) s = some (x, s')) : y = some x := by
  rw [lift_eq, Option.map_eq_some_iff] at h
  rcases h with ⟨y, hy, heq⟩
  exact hy.trans (congrArg some (Prod.mk.inj heq).1)

theorem required_eq_some (h : required key d s = some (x, s')) : ∃ j, d j = some x := by
  unfold required at h
  rcases Option.bind_eq_some_iff.1 h with ⟨⟨next, s₁⟩, _, h⟩
  cases next with
  | none => cases h
  | some j => exact ⟨j, lift_eq_some h⟩

theorem defaulted_eq_some (h : defaulted key d default s = some (x, s')) :
    x = default ∨ ∃ j, d j = some x := by
  unfold defaulted at h
  rcases Option.bind_eq_some_iff.1 h with ⟨⟨next, s₁⟩, _, h⟩
  cases next with
  | none => exact .inl (Prod.mk.inj (Option.some.inj h)).1.symm
  | some j => exact .inr ⟨j, lift_eq_some h⟩

end

/-- An object has the fields that are read, and they are read as the value. -/
def Yields (o : Json) (fields : FieldReader β) (x : β) : Prop :=
  fields (.named o) = some (x, .named o)

section

variable {o j : Json} {key : String} {d : Decoder β} {x : β}

theorem yields_required (hkey : o.field? key = some j) (hj : d j = some x) :
    Yields o (required key d) x := by
  unfold Yields
  rw [required_named, hkey]
  exact congrArg (Option.map _) hj

theorem yields_defaulted {default : β} (hkey : o.field? key = some j) (hj : d j = some x) :
    Yields o (defaulted key d default) x := by
  unfold Yields
  rw [defaulted_named, hkey]
  exact congrArg (Option.map _) hj

theorem Yields.bind {fields : FieldReader β} {g : β → FieldReader γ} {y : γ}
    (h : Yields o fields x) (hg : Yields o (g x) y) : Yields o (fields >>= g) y :=
  Option.bind_eq_some_iff.2 ⟨_, h, hg⟩

theorem yields_pure (o : Json) (x : β) : Yields o (pure x) x := rfl

end

/-- Whatever is read has the property. -/
def Ensures (P : β → Prop) (fields : FieldReader β) : Prop :=
  ∀ s x s', fields s = some (x, s') → P x

section

variable {key : String} {d : Decoder β} {P : β → Prop} {Q : γ → Prop}

theorem ensures_required (h : ∀ j x, d j = some x → P x) : Ensures P (required key d) := by
  intro s x s' hx
  rcases required_eq_some hx with ⟨j, hj⟩
  exact h j x hj

theorem ensures_defaulted {default : β} (h : ∀ j x, d j = some x → P x) (hdefault : P default) :
    Ensures P (defaulted key d default) := by
  intro s x s' hx
  rcases defaulted_eq_some hx with rfl | ⟨j, hj⟩
  · exact hdefault
  · exact h j x hj

end
end FieldReader

/-- Objects that have the same values of the fields of a schema, where values that are left out
    count as the default of the field. -/
def Json.Agree (schema : List (String × Option Json)) (o o' : Json) : Prop :=
  ∀ entry ∈ schema, (o.field? entry.1).or entry.2 = (o'.field? entry.1).or entry.2

namespace FieldReader

variable {β γ : Type} (key : String) (d : Decoder β)

/-- Nothing is seen of an object but the fields of the schema. -/
def Sees (schema : List (String × Option Json)) (fields : FieldReader β) : Prop :=
  ∀ o o', Json.Agree schema o o' →
    ∃ x : Option β, fields (.named o) = x.map (·, .named o) ∧
      fields (.named o') = x.map (·, .named o')

theorem sees_required : Sees [(key, none)] (required key d) := by
  intro o o' h
  have hkey := h _ (mem_singleton_self _)
  rw [Option.or_none, Option.or_none] at hkey
  refine ⟨_, required_named, ?_⟩
  rw [required_named, hkey]

theorem sees_defaulted {d : Decoder β} {j : Json} {default : β} (hdefault : d j = some default) :
    Sees [(key, some j)] (defaulted key d default) := by
  have hread : ∀ o : Json, ((o.field? key).map d).getD (some default) =
      (o.field? key).or (some j) >>= d := by
    intro o
    cases o.field? key with
    | none => exact hdefault.symm
    | some j' => rfl
  intro o o' h
  refine ⟨_, defaulted_named, ?_⟩
  rw [defaulted_named, hread, hread, h _ (mem_singleton_self _)]

/-- Nothing is seen but the fields of the schema, and what is read has the property. -/
structure Covers (schema : List (String × Option Json)) (P : β → Prop) (fields : FieldReader β) :
    Prop where
  sees : Sees schema fields
  ensures : Ensures P fields

theorem covers_pure {P : β → Prop} {x : β} (h : P x) : Covers [] P (pure x : FieldReader β) := by
  refine ⟨fun _ _ _ => ⟨some x, rfl, rfl⟩, fun s y s' hy => ?_⟩
  rw [← (Prod.mk.inj (Option.some.inj hy)).1]
  exact h

theorem Covers.bind {schema schema' : List (String × Option Json)} {P : β → Prop} {Q : γ → Prop}
    {fields : FieldReader β} {g : β → FieldReader γ} (h : Covers schema P fields)
    (hg : ∀ x, P x → Covers schema' Q (g x)) : Covers (schema ++ schema') Q (fields >>= g) := by
  refine ⟨fun o o' hagree => ?_, fun s y s' hy => ?_⟩
  · rcases h.sees o o' fun entry hentry => hagree entry (mem_append_left _ hentry) with ⟨x, ho, ho'⟩
    cases x with
    | none =>
      refine ⟨none, ?_, ?_⟩
      · exact Option.bind_eq_none_iff.2 fun y hy => absurd (ho.symm.trans hy) (by simp)
      · exact Option.bind_eq_none_iff.2 fun y hy => absurd (ho'.symm.trans hy) (by simp)
    | some x =>
      rcases (hg x (h.ensures _ x _ ho)).sees o o' fun entry hentry =>
        hagree entry (mem_append_right _ hentry) with ⟨y, hy, hy'⟩
      exact ⟨y, (congrArg (Option.bind · _) ho).trans hy,
        (congrArg (Option.bind · _) ho').trans hy'⟩
  · rcases Option.bind_eq_some_iff.1 hy with ⟨⟨x, s₁⟩, hx, hy⟩
    exact (hg x (h.ensures s x s₁ hx)).ensures s₁ y s' hy

end FieldReader

namespace Decoder

variable {β : Type} {fields : FieldReader β}

theorem record_of_yields {ms : List (String × Json)} {x : β}
    (h : fields.Yields (.object ms) x) : record fields (.object ms) = some x :=
  congrArg (Option.map Prod.fst) h

theorem of_record {P : β → Prop} (h : fields.Ensures P) {j : Json} {x : β}
    (hj : record fields j = some x) : P x := by
  unfold record at hj
  split at hj
  · next items =>
    split at hj
    · next y heq => exact Option.some.inj hj ▸ h _ _ _ heq
    · cases hj
  · unfold members at hj
    split at hj
    · rcases Option.map_eq_some_iff.1 hj with ⟨⟨y, s'⟩, heq, rfl⟩
      exact h _ _ _ heq
    · cases hj

/-- Objects that agree on the fields of a schema are read alike. -/
def Lenient (schema : List (String × Option Json)) (d : Decoder β) : Prop :=
  ∀ ms ms', Json.Agree schema (.object ms) (.object ms') → d (.object ms) = d (.object ms')

/-- Records are read off their fields: other members, the order of members and members that
    repeat a default value make no difference. -/
theorem lenient_record {schema : List (String × Option Json)} (h : fields.Sees schema) :
    Lenient schema (record fields) := by
  intro ms ms' hagree
  rcases h _ _ hagree with ⟨x, hx, hx'⟩
  change (fields _).map Prod.fst = (fields _).map Prod.fst
  rw [hx, hx', Option.map_map, Option.map_map]
  rfl

theorem covered_record {schema : List (String × Option Json)} {P : β → Prop}
    (h : fields.Covers schema P) :
    Lenient schema (record fields) ∧ ∀ j x, record fields j = some x → P x :=
  ⟨lenient_record h.sees, fun _ _ => of_record h.ensures⟩

end Decoder

namespace RoundTrip

variable {β : Type} {Writable : β → Prop} {toJson : β → Json} {ofJson? : Decoder β} {o : Json}
  {key : String} {x y : β} (h : RoundTrip Writable toJson ofJson?)

include h

theorem yields (hx : Writable x) (hkey : o.field? key = some (toJson x)) :
    (FieldReader.required key ofJson?).Yields o x :=
  FieldReader.yields_required hkey (h.read_written x hx)

theorem yields_defaulted (hx : Writable x) (hkey : o.field? key = some (toJson x)) :
    (FieldReader.defaulted key ofJson? y).Yields o x :=
  FieldReader.yields_defaulted hkey (h.read_written x hx)

theorem covers (key : String) :
    (FieldReader.required key ofJson?).Covers [(key, none)] Writable :=
  ⟨FieldReader.sees_required key _, FieldReader.ensures_required h.writable⟩

/-- A field that is left out counts as the written form of its default value. -/
theorem covers_defaulted (key : String) (hy : Writable y) :
    (FieldReader.defaulted key ofJson? y).Covers [(key, some (toJson y))] Writable :=
  ⟨FieldReader.sees_defaulted key (h.read_written y hy),
    FieldReader.ensures_defaulted h.writable hy⟩

end RoundTrip

section

open FieldReader

/-! The small values. -/

theorem Shape.roundTrip : RoundTrip (fun _ => True) Shape.toJson Shape.ofJson? :=
  .oneOf fun s => by cases s <;> rfl

theorem Integral.roundTrip : RoundTrip (fun _ => True) Integral.toJson Integral.ofJson? :=
  .oneOf fun k => by cases k <;> rfl

theorem Side.roundTrip : RoundTrip (fun _ => True) Side.toJson Side.ofJson? :=
  .oneOf fun s => by cases s <;> rfl

theorem Family.roundTrip : RoundTrip (fun _ => True) Family.toJson Family.ofJson? :=
  .oneOf fun f => by cases f <;> rfl

theorem Representation.roundTrip :
    RoundTrip (fun _ => True) Representation.toJson Representation.ofJson? :=
  .oneOf fun r => by cases r <;> rfl

theorem Mapping.roundTrip : RoundTrip (fun _ => True) Mapping.toJson Mapping.ofJson? where
  read_written m _ := by cases m <;> rfl
  writable _ _ _ := trivial

/-- Underscores are read as blanks and capitals as small letters. -/
def Mapping.spelling (s : String) : List Char :=
  s.toList.map fun c => if c == '_' then ' ' else c.toLower

theorem Mapping.ofJson?_spelling {s s' : String} (h : spelling s = spelling s') :
    ofJson? (.string s) = ofJson? (.string s') := by
  change (ofName s).toOption = (ofName s').toOption
  unfold spelling at h
  unfold ofName
  simp only [h]
  -- The two only differ in the name that is reported if there is no such mapping.
  split <;> rfl

theorem Dimensions.roundTrip : RoundTrip (fun _ => True) Dimensions.toJson Dimensions.ofJson? where
  read_written d _ := by
    cases d using Dimensions.pairs <;> rfl
  writable _ _ _ := trivial

/-- The number of the index is a word. -/
def Index.Writable : Index → Prop
  | fixed n => n < Size.limit
  | primary n => n < Size.limit
  | secondary n => n < Size.limit

theorem Index.roundTrip : RoundTrip Index.Writable Index.toJson Index.ofJson? where
  read_written i hi := by
    cases i with
    | fixed n => exact Option.bind_eq_some_iff.2 ⟨n, RoundTrip.word.read_written n hi, rfl⟩
    | primary n => exact Option.bind_eq_some_iff.2 ⟨n, RoundTrip.word.read_written n hi, rfl⟩
    | secondary n => exact Option.bind_eq_some_iff.2 ⟨n, RoundTrip.word.read_written n hi, rfl⟩
  writable j i h := by
    unfold ofJson? choice at h
    split at h
    · cases h
    · rcases Option.bind_eq_some_iff.1 h with ⟨payload, _, h⟩
      rcases Option.bind_eq_some_iff.1 h with ⟨n, hn, h⟩
      have hwritable := RoundTrip.word.writable _ n hn
      split at h
      · exact Option.some.inj h ▸ hwritable
      · exact Option.some.inj h ▸ hwritable
      · exact Option.some.inj h ▸ hwritable
      · cases h
    · cases h

theorem Side.roundTrip_optional : RoundTrip (fun x : Option Side => ∀ y ∈ x, True)
    (Json.ofOption Side.toJson) (Decoder.optional Side.ofJson?) :=
  Side.roundTrip.optional fun _ => Json.noConfusion

theorem RoundTrip.word_optional : RoundTrip (fun x : Option Nat => ∀ n ∈ x, n < Size.limit)
    (Json.ofOption .natural) (Decoder.optional Decoder.word) :=
  RoundTrip.word.optional fun _ => Json.noConfusion

theorem RoundTrip.text_optional : RoundTrip (fun x : Option String => ∀ y ∈ x, True)
    (Json.ofOption .string) (Decoder.optional Decoder.text) :=
  RoundTrip.text.optional fun _ => Json.noConfusion

/-! The records. -/

/-- The fields of a record that has no default values. -/
def requiredFields (keys : List String) : List (String × Option Json) := keys.map (·, none)

/-- The indices and dimensions are words; their numbers may differ. -/
structure MultiIndex.Writable (m : MultiIndex) : Prop where
  indices : ∀ i ∈ m.indices, i.Writable
  dims : ∀ n ∈ m.dims, n < Size.limit

def MultiIndex.schema : List (String × Option Json) := requiredFields ["indices", "dims"]

theorem MultiIndex.covered : Lenient MultiIndex.schema MultiIndex.ofJson? ∧
    ∀ j m, MultiIndex.ofJson? j = some m → MultiIndex.Writable m :=
  covered_record <| (Index.roundTrip.list.covers _).bind fun _ hindices =>
    (RoundTrip.word.list.covers _).bind fun _ hdims => covers_pure ⟨hindices, hdims⟩

theorem MultiIndex.roundTrip : RoundTrip MultiIndex.Writable MultiIndex.toJson MultiIndex.ofJson? where
  read_written _ hm := record_of_yields <|
    (Index.roundTrip.list.yields hm.indices rfl).bind <|
    (RoundTrip.word.list.yields hm.dims rfl).bind <| yields_pure _ _
  writable := MultiIndex.covered.2

theorem MultiIndex.lenient : Lenient MultiIndex.schema MultiIndex.ofJson? := MultiIndex.covered.1

structure Dof.Writable (d : Dof) : Prop where
  referenceOffset : d.referenceOffset < Size.limit
  physicalOffset : d.physicalOffset < Size.limit
  components : d.components < Size.limit

def Dof.schema : List (String × Option Json) :=
  requiredFields ["mapping", "reference_offset", "physical_offset", "num_components"]

theorem Dof.covered : Lenient Dof.schema Dof.ofJson? ∧
    ∀ j d, Dof.ofJson? j = some d → Dof.Writable d :=
  covered_record <| (Mapping.roundTrip.covers _).bind fun _ _ =>
    (RoundTrip.word.covers _).bind fun _ hreference =>
    (RoundTrip.word.covers _).bind fun _ hphysical =>
    (RoundTrip.word.covers _).bind fun _ hcomponents =>
    covers_pure ⟨hreference, hphysical, hcomponents⟩

theorem Dof.roundTrip : RoundTrip Dof.Writable Dof.toJson Dof.ofJson? where
  read_written d hd := record_of_yields <|
    (Mapping.roundTrip.yields (x := d.mapping) trivial rfl).bind <|
    (RoundTrip.word.yields hd.referenceOffset rfl).bind <|
    (RoundTrip.word.yields hd.physicalOffset rfl).bind <|
    (RoundTrip.word.yields hd.components rfl).bind <| yields_pure _ _
  writable := Dof.covered.2

theorem Dof.lenient : Lenient Dof.schema Dof.ofJson? := Dof.covered.1

/-- The numbers of an element are words. Nothing relates its degrees of freedom to its shapes. -/
structure Element.Writable (e : Element) : Prop where
  degree : e.degree < Size.limit
  valueShape : ∀ n ∈ e.valueShape, n < Size.limit
  referenceShape : ∀ n ∈ e.referenceShape, n < Size.limit
  dofs : ∀ d ∈ e.dofs, d.Writable

def Element.schema : List (String × Option Json) :=
  requiredFields ["family", "cell", "degree", "value_shape", "reference_value_shape", "mapping",
    "dofs"]

theorem Element.covered : Lenient Element.schema Element.ofJson? ∧
    ∀ j e, Element.ofJson? j = some e → Element.Writable e :=
  covered_record <| (Family.roundTrip.covers _).bind fun _ _ =>
    (Shape.roundTrip.covers _).bind fun _ _ =>
    (RoundTrip.word.covers _).bind fun _ hdegree =>
    (RoundTrip.word.list.covers _).bind fun _ hvalue =>
    (RoundTrip.word.list.covers _).bind fun _ hreference =>
    (Mapping.roundTrip.covers _).bind fun _ _ =>
    (Dof.roundTrip.list.covers _).bind fun _ hdofs =>
    covers_pure ⟨hdegree, hvalue, hreference, hdofs⟩

theorem Element.roundTrip : RoundTrip Element.Writable Element.toJson Element.ofJson? where
  read_written e he := record_of_yields <|
    (Family.roundTrip.yields (x := e.family) trivial rfl).bind <|
    (Shape.roundTrip.yields (x := e.cell) trivial rfl).bind <|
    (RoundTrip.word.yields he.degree rfl).bind <|
    (RoundTrip.word.list.yields he.valueShape rfl).bind <|
    (RoundTrip.word.list.yields he.referenceShape rfl).bind <|
    (Mapping.roundTrip.yields (x := e.mapping) trivial rfl).bind <|
    (Dof.roundTrip.list.yields he.dofs rfl).bind <| yields_pure _ _
  writable := Element.covered.2

theorem Element.lenient : Lenient Element.schema Element.ofJson? := Element.covered.1

structure Factor.Writable (f : Factor) : Prop where
  argument : f.argument < Size.limit
  component : f.component < Size.limit
  derivatives : ∀ axis ∈ f.derivatives, axis < Size.limit

def Factor.schema : List (String × Option Json) :=
  [("argument", none), ("component", some (.natural 0)), ("derivatives", some (.naturals [])),
    ("restriction", some .null)]

theorem Factor.covered : Lenient Factor.schema Factor.ofJson? ∧
    ∀ j f, Factor.ofJson? j = some f → Factor.Writable f :=
  covered_record <| (RoundTrip.word.covers _).bind fun _ hargument =>
    (RoundTrip.word.covers_defaulted _ (by decide)).bind fun _ hcomponent =>
    (RoundTrip.word.list.covers_defaulted _ (by decide)).bind fun _ hderivatives =>
    (Side.roundTrip_optional.covers_defaulted (y := none) _ nofun).bind fun _ _ =>
    covers_pure ⟨hargument, hcomponent, hderivatives⟩

theorem Factor.roundTrip : RoundTrip Factor.Writable Factor.toJson Factor.ofJson? where
  read_written f hf := record_of_yields <|
    (RoundTrip.word.yields hf.argument rfl).bind <|
    (RoundTrip.word.yields_defaulted hf.component rfl).bind <|
    (RoundTrip.word.list.yields_defaulted hf.derivatives rfl).bind <|
    (Side.roundTrip_optional.yields_defaulted (x := f.side) (fun _ _ => trivial) rfl).bind <|
    yields_pure _ _
  writable := Factor.covered.2

theorem Factor.lenient : Lenient Factor.schema Factor.ofJson? := Factor.covered.1

/-- The coefficient of a monomial is finite, and its other numbers are words. -/
structure Monomial.Writable (m : Monomial Float) : Prop where
  domain : m.domain < Size.limit
  coefficient : m.coefficient.isFinite = true
  quadratureDegree : ∀ n ∈ m.quadratureDegree, n < Size.limit
  factors : ∀ f ∈ m.factors, f.Writable

def Monomial.schema : List (String × Option Json) :=
  [("integral", none), ("domain", some (.natural 0)), ("coefficient", some (.ofFloat 1.0)),
    ("quadrature_degree", some .null), ("factors", none)]

theorem Monomial.covered : Lenient Monomial.schema Monomial.ofJson? ∧
    ∀ j m, Monomial.ofJson? j = some m → Monomial.Writable m :=
  covered_record <| (Integral.roundTrip.covers _).bind fun _ _ =>
    (RoundTrip.word.covers_defaulted _ (by decide)).bind fun _ hdomain =>
    (RoundTrip.number.covers_defaulted _ (by decide)).bind fun _ hfinite =>
    (RoundTrip.word_optional.covers_defaulted (y := none) _ nofun).bind fun _ hdegree =>
    (Factor.roundTrip.list.covers _).bind fun _ hfactors =>
    covers_pure ⟨hdomain, hfinite, hdegree, hfactors⟩

theorem Monomial.roundTrip : RoundTrip Monomial.Writable Monomial.toJson Monomial.ofJson? where
  read_written m hm := record_of_yields <|
    (Integral.roundTrip.yields (x := m.integral) trivial rfl).bind <|
    (RoundTrip.word.yields_defaulted hm.domain rfl).bind <|
    (RoundTrip.number.yields_defaulted hm.coefficient rfl).bind <|
    (RoundTrip.word_optional.yields_defaulted hm.quadratureDegree rfl).bind <|
    (Factor.roundTrip.list.yields hm.factors rfl).bind <| yields_pure _ _
  writable := Monomial.covered.2

theorem Monomial.lenient : Lenient Monomial.schema Monomial.ofJson? := Monomial.covered.1

/-- A form can be written: its numbers are words, and its coefficients are finite. -/
structure Form.Writable (f : Form Float) : Prop where
  geometricDimension : f.geometricDimension < Size.limit
  arguments : ∀ e ∈ f.arguments, e.Writable
  monomials : ∀ m ∈ f.monomials, m.Writable

def Form.schema : List (String × Option Json) :=
  requiredFields ["name", "cell", "geometric_dimension", "arguments", "monomials"]

theorem Form.covered : Lenient Form.schema Form.ofJson? ∧
    ∀ j f, Form.ofJson? j = some f → Form.Writable f :=
  covered_record <| (RoundTrip.text.covers _).bind fun _ _ =>
    (Shape.roundTrip.covers _).bind fun _ _ =>
    (RoundTrip.word.covers _).bind fun _ hdimension =>
    (Element.roundTrip.list.covers _).bind fun _ harguments =>
    (Monomial.roundTrip.list.covers _).bind fun _ hmonomials =>
    covers_pure ⟨hdimension, harguments, hmonomials⟩

theorem Form.roundTrip : RoundTrip Form.Writable Form.toJson Form.ofJson? where
  read_written f hf := record_of_yields <|
    (RoundTrip.text.yields (x := f.name) trivial rfl).bind <|
    (Shape.roundTrip.yields (x := f.cell) trivial rfl).bind <|
    (RoundTrip.word.yields hf.geometricDimension rfl).bind <|
    (Element.roundTrip.list.yields hf.arguments rfl).bind <|
    (Monomial.roundTrip.list.yields hf.monomials rfl).bind <| yields_pure _ _
  writable := Form.covered.2

theorem Form.lenient : Lenient Form.schema Form.ofJson? := Form.covered.1

/-- Options can be written: the level is a byte, and the smallest value that counts is finite. -/
structure Options.Writable (o : Options Float) : Prop where
  optimisationLevel : o.optimisationLevel < 256
  epsilon : o.epsilon.isFinite = true

def Options.schema : List (String × Option Json) :=
  [("optimisation_level", some (.natural 2)), ("epsilon", some (.ofFloat 3e-16)),
    ("reset_tensor", some (.bool true)), ("routine_name", some .null),
    ("representation", some (Representation.toJson .quadrature))]

theorem Options.covered : Lenient Options.schema Options.ofJson? ∧
    ∀ j o, Options.ofJson? j = some o → Options.Writable o :=
  covered_record <| ((RoundTrip.below 256).covers_defaulted _ (by decide)).bind fun _ hlevel =>
    (RoundTrip.number.covers_defaulted _ (by decide)).bind fun _ hepsilon =>
    (RoundTrip.flag.covers_defaulted _ trivial).bind fun _ _ =>
    (RoundTrip.text_optional.covers_defaulted (y := none) _ nofun).bind fun _ _ =>
    (Representation.roundTrip.covers_defaulted _ trivial).bind fun _ _ =>
    covers_pure ⟨hlevel, hepsilon⟩

theorem Options.roundTrip : RoundTrip Options.Writable Options.toJson Options.ofJson? where
  read_written o ho := record_of_yields <|
    ((RoundTrip.below 256).yields_defaulted ho.optimisationLevel rfl).bind <|
    (RoundTrip.number.yields_defaulted ho.epsilon rfl).bind <|
    (RoundTrip.flag.yields_defaulted (x := o.resetTensor) trivial rfl).bind <|
    (RoundTrip.text_optional.yields_defaulted (x := o.routineName) (fun _ _ => trivial) rfl).bind <|
    (Representation.roundTrip.yields_defaulted (x := o.representation) trivial rfl).bind <|
    yields_pure _ _
  writable := Options.covered.2

theorem Options.lenient : Lenient Options.schema Options.ofJson? := Options.covered.1

end

/-- Reading undoes writing for the whole data model, and what has been read is written in a form
    that is read the same. That form is a normal form: of the form that was read, the spelling of
    mappings, the members that are no fields and the fields with default values that were left out
    make no difference to the value. -/
theorem codec_roundTrip :
    (RoundTrip Form.Writable Form.toJson Form.ofJson? ∧
      RoundTrip Options.Writable Options.toJson Options.ofJson? ∧
      RoundTrip Index.Writable Index.toJson Index.ofJson? ∧
      RoundTrip MultiIndex.Writable MultiIndex.toJson MultiIndex.ofJson? ∧
      RoundTrip (fun _ => True) Dimensions.toJson Dimensions.ofJson?) ∧
    (Decoder.Lenient Form.schema Form.ofJson? ∧ Decoder.Lenient Element.schema Element.ofJson? ∧
      Decoder.Lenient Dof.schema Dof.ofJson? ∧ Decoder.Lenient Monomial.schema Monomial.ofJson? ∧
      Decoder.Lenient Factor.schema Factor.ofJson? ∧
      Decoder.Lenient Options.schema Options.ofJson? ∧
      Decoder.Lenient MultiIndex.schema MultiIndex.ofJson?) ∧
    ∀ s s', Mapping.spelling s = Mapping.spelling s' →
      Mapping.ofJson? (.string s) = Mapping.ofJson? (.string s') :=
  ⟨⟨Form.roundTrip, Options.roundTrip, Index.roundTrip, MultiIndex.roundTrip,
      Dimensions.roundTrip⟩,
    ⟨Form.lenient, Element.lenient, Dof.lenient, Monomial.lenient, Factor.lenient,
      Options.lenient, MultiIndex.lenient⟩,
    fun _ _ => Mapping.ofJson?_spelling⟩

/-- A form whose monomial does not fit it, with a member that is no field and without the fields
    that have default values. -/
def spareForm : Json :=
  .object [("comment", .null), ("cell", .string "interval"), ("name", .string "spare"),
    ("geometric_dimension", .natural 9),
    ("arguments", .array [.object [("family", .string "Nedelec"), ("cell", .string "triangle"),
      ("degree", .natural 7), ("value_shape", .naturals [2]), ("reference_value_shape", .naturals []),
      ("mapping", .string "Covariant_PIOLA"), ("dofs", .array [])]]),
    ("monomials", .array [.object [("integral", .string "cell"),
      ("factors", .array [.object [("argument", .natural 3)]])]])]

def wholeForm : Form Float :=
  ⟨"spare", .interval, 9, [⟨.nedelec, .triangle, 7, [2], [], .covariant, []⟩],
    [⟨.cell, 0, 1.0, none, [⟨3, 0, [], none⟩]⟩]⟩

/-- What is left out of a form is filled in when the form is read, and then written. -/
theorem codec_roundTrip_spareForm :
    Form.ofJson? spareForm = some wholeForm ∧ wholeForm.Writable ∧
      Form.ofJson? wholeForm.toJson = some wholeForm := by
  have hread : Form.ofJson? spareForm = some wholeForm := rfl
  have hform := codec_roundTrip.1.1
  exact ⟨hread, hform.writable _ _ hread, hform.read_written _ (hform.writable _ _ hread)⟩

end WeakForm
