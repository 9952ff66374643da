import DraftSchema.Evaluation.Call
import DraftSchema.Proofs.Declared
import DraftSchema.Proofs.Output

/-!
# Models with unknown annotations

Where something in the annotations of a class is unknown, its own fields count as they are written.
So a path is still declared that would be if these annotations were known, as long as it goes through
fields of such classes themselves, and through types that are written out there.
-/

namespace DraftSchema

namespace Catalog

variable {catalog catalog' : Catalog} {s : Store} {read : String → Except Fault Value}

/-! ## Annotations that are replaced -/

/-- Something in an annotation is unknown. -/
def Unknown (s : Store) (read : String → Except Fault Value) (hint : Value) : Prop :=
  ∃ f, resolve s read hint = .error f ∧ isUnknown f = true

/-- Two lists of annotations have the same names, and the same annotations where nothing in the first
ones is unknown. -/
abbrev MendedFields (s : Store) (read : String → Except Fault Value)
    (hints hints' : Entries String Value) : Prop :=
  List.Forall₂ (fun e e' => e'.1 = e.1 ∧ (e'.2 = e.2 ∨ Unknown s read e.2)) hints hints'

/-- Two classes are the same but for annotations of which something is unknown in the first one. -/
structure MendedModel (s : Store) (read : String → Except Fault Value) (m m' : Model) : Prop where
  reference : m'.reference = m.reference
  lineage : m'.lineage = m.lineage
  fields : MendedFields s read m.fields m'.fields

/-- The declared classes are the same but for annotations of which something is unknown in the first
ones. -/
abbrev Mended (s : Store) (read : String → Except Fault Value) (catalog catalog' : Catalog) : Prop :=
  List.Forall₂ (MendedModel s read) catalog catalog'

theorem MendedFields.keys {hints hints' : Entries String Value}
    (h : MendedFields s read hints hints') : hints'.keys = hints.keys := by
  induction h with
  | nil => rfl
  | cons he _ ih => rw [Entries.keys_cons, Entries.keys_cons, ih, he.1]

/-- A name keeps an annotation in which nothing is unknown. -/
theorem MendedFields.get? {hints hints' : Entries String Value}
    (h : MendedFields s read hints hints') {name : String} {hint : Value}
    (hname : hints.get? name = some hint) (hknown : ¬ Unknown s read hint) :
    hints'.get? name = some hint := by
  induction h with
  | nil => cases hname
  | @cons e e' hints hints' he _ ih =>
    obtain ⟨k, v⟩ := e
    obtain ⟨k', v'⟩ := e'
    obtain ⟨rfl, hv⟩ := he
    rw [Entries.get?_cons] at hname ⊢
    split
    · rename_i hk
      rw [if_pos hk] at hname
      cases hname
      exact congrArg some (hv.resolve_right hknown)
    · rename_i hk
      rw [if_neg hk] at hname
      exact ih hname

theorem Mended.getElem? (h : Mended s read catalog catalog') (n : Nat) :
    catalog[n]? = none ∧ catalog'[n]? = none ∨
      ∃ m m', catalog[n]? = some m ∧ catalog'[n]? = some m' ∧ MendedModel s read m m' := by
  induction h generalizing n with
  | nil => exact .inl ⟨rfl, rfl⟩
  | @cons m m' _ _ hm _ ih =>
    cases n with
    | zero => exact .inr ⟨m, m', rfl, rfl, hm⟩
    | succ n => exact ih n

/-- Names tell the classes apart as before. -/
theorem Mended.withoutFields (h : Mended s read catalog catalog') :
    catalog'.withoutFields = catalog.withoutFields := by
  induction h with
  | nil => rfl
  | @cons m m' _ _ hm _ ih =>
    obtain ⟨reference, lineage, fields⟩ := m
    obtain ⟨reference', lineage', fields'⟩ := m'
    obtain ⟨rfl, rfl, -⟩ := hm
    exact congrArg (_ :: ·) ih

theorem Mended.inherited (h : Mended s read catalog catalog') {m m' : Model}
    (hm : MendedModel s read m m') :
    MendedFields s read (catalog.inherited m) (catalog'.inherited m') := by
  unfold Catalog.inherited
  rw [hm.lineage]
  induction m.lineage.reverse with
  | nil => exact .nil
  | cons n ns ih =>
    rcases h.getElem? n with ⟨hn, hn'⟩ | ⟨b, b', hn, hn', hb⟩
    · rw [List.filterMap_cons_none hn, List.filterMap_cons_none hn']
      exact ih
    · rw [List.filterMap_cons_some hn, List.filterMap_cons_some hn', List.flatMap_cons,
        List.flatMap_cons]
      exact List.rel_append hb.fields ih

/-- Annotations come to the same when others are replaced, unless something in them is unknown. -/
theorem resolveFields_mended {hints hints' : Entries String Value}
    (h : MendedFields s read hints hints') (found : Entries String Value) :
    (∃ f, resolveFields s read found hints = .error f ∧ isUnknown f = true) ∨
      resolveFields s read found hints' = resolveFields s read found hints := by
  induction h generalizing found with
  | nil => exact .inr rfl
  | @cons e e' hints hints' he _ ih =>
    obtain ⟨name, hint⟩ := e
    obtain ⟨name', hint'⟩ := e'
    obtain ⟨rfl, hhint⟩ := he
    simp only [resolveFields]
    rcases hhint with rfl | ⟨f, hf, hunknown⟩
    · cases resolve s read hint' with
      | ok v => exact ih (found.set name' v)
      | error f => exact .inr rfl
    · exact .inl ⟨f, by rw [hf]; rfl, hunknown⟩

/-! ## Fields of a class itself -/

/-- Every class comes first among those that it takes fields from, and has no two fields of one
name. -/
structure WellFormed (catalog : Catalog) : Prop where
  first : ∀ (n : Nat) (m : Model), catalog[n]? = some m → m.lineage.head? = some n
  distinct : ∀ m ∈ catalog, m.fields.keys.Pairwise fun a b => (a == b) = false

theorem wellFormed_nil : WellFormed [] := ⟨by simp, by simp⟩

theorem pairwise_keys_ofList (es : Entries String Value) :
    (Entries.ofList es).keys.Pairwise fun a b => (a == b) = false := by
  have fold : ∀ (es acc : Entries String Value),
      acc.keys.Pairwise (fun a b => (a == b) = false) →
      (es.foldl (fun acc e => Entries.set acc e.1 e.2) acc).keys.Pairwise
        fun a b => (a == b) = false := by
    intro es
    induction es with
    | nil => exact fun _ h => h
    | cons e es ih => exact fun acc h => ih _ (Entries.pairwise_keys_set h e.1 e.2)
  exact fold es [] .nil

/-- Declaring a class keeps the classes well-formed. -/
theorem WellFormed.declare (h : catalog.WellFormed) {scope name : String} {bases : List String}
    {fields : Entries String Value}
    (hdeclare : catalog.declare scope name bases fields = .ok catalog') : catalog'.WellFormed := by
  obtain ⟨reference, lineage, rfl⟩ : ∃ reference lineage,
      catalog' = catalog ++ [⟨reference, catalog.length :: lineage, Entries.ofList fields⟩] := by
    unfold Catalog.declare at hdeclare
    obtain ⟨known, -, hdeclare⟩ := except_bind_eq_ok.mp hdeclare
    dsimp only at hdeclare
    split at hdeclare
    · cases hdeclare
    · obtain ⟨lineage, -, hdeclare⟩ := except_bind_eq_ok.mp hdeclare
      exact ⟨_, lineage, (Except.ok.inj hdeclare).symm⟩
  refine ⟨fun n m hm => ?_, fun m hm => ?_⟩
  · rcases Nat.lt_or_ge n catalog.length with hlt | hge
    · rw [List.getElem?_append_left hlt] at hm
      exact h.first n m hm
    · rw [List.getElem?_append_right hge] at hm
      rw [List.getElem?_singleton] at hm
      split at hm
      · rename_i hn
        cases hm
        simp only [List.head?_cons, Option.some.injEq]
        omega
      · cases hm
  · rcases List.mem_append.mp hm with hm | hm
    · exact h.distinct m hm
    · rw [List.mem_singleton.mp hm]
      exact pairwise_keys_ofList fields

/-- Classes that are declared one after the other are well-formed. -/
theorem WellFormed.declareAll (h : catalog.WellFormed)
    (classes : List (String × String × List String × Entries String Value))
    (hdeclare : classes.foldlM (fun (c : Catalog) d => c.declare d.1 d.2.1 d.2.2.1 d.2.2.2) catalog
      = .ok catalog') : catalog'.WellFormed := by
  induction classes generalizing catalog with
  | nil =>
    cases hdeclare
    exact h
  | cons d classes ih =>
    rw [List.foldlM_cons] at hdeclare
    obtain ⟨next, hnext, hrest⟩ := except_bind_eq_ok.mp hdeclare
    exact ih (h.declare hnext) hrest

theorem Mended.wellFormed (h : Mended s read catalog catalog') (hwell : catalog.WellFormed) :
    catalog'.WellFormed := by
  constructor
  · intro n m' hm'
    rcases h.getElem? n with ⟨-, hnone⟩ | ⟨m, _, hm, hsome, hmended⟩
    · cases hm'.symm.trans hnone
    · cases hm'.symm.trans hsome
      rw [hmended.lineage]
      exact hwell.first n m hm
  · intro m' hm'
    obtain ⟨n, hn⟩ := List.getElem?_of_mem hm'
    rcases h.getElem? n with ⟨-, hnone⟩ | ⟨m, _, hm, hsome, hmended⟩
    · cases hn.symm.trans hnone
    · cases hn.symm.trans hsome
      rw [hmended.fields.keys]
      exact hwell.distinct m (List.mem_of_getElem? hm)

theorem resolveFields_append (found hints more : Entries String Value) :
    resolveFields s read found (hints ++ more)
      = resolveFields s read found hints >>= fun found => resolveFields s read found more := by
  induction hints generalizing found with
  | nil => rfl
  | cons e hints ih =>
    simp only [List.cons_append, resolveFields, ih]
    cases resolve s read e.2 <;> rfl

/-- What a name had is what it has if there is no annotation of it. -/
theorem get?_resolveFields_of_none {found hints es : Entries String Value} {name : String}
    (h : resolveFields s read found hints = .ok es) (hname : hints.get? name = none) :
    es.get? name = found.get? name := by
  induction hints generalizing found with
  | nil =>
    cases h
    rfl
  | cons e hints ih =>
    obtain ⟨k, hint⟩ := e
    obtain ⟨v, -, h⟩ := except_bind_eq_ok.mp h
    rw [Entries.get?_cons] at hname
    split at hname
    · cases hname
    · rename_i hk
      rw [ih h hname, Entries.get?_set_ne _ _ (by simpa using hk)]

/-- The annotation of a name is what the name has in the end. -/
theorem get?_resolveFields {found hints es : Entries String Value} {name : String} {hint : Value}
    (hdistinct : hints.keys.Pairwise fun a b => (a == b) = false)
    (h : resolveFields s read found hints = .ok es) (hname : hints.get? name = some hint) :
    ∃ v, resolve s read hint = .ok v ∧ es.get? name = some v := by
  induction hints generalizing found with
  | nil => cases hname
  | cons e hints ih =>
    obtain ⟨k, hint'⟩ := e
    obtain ⟨v, hv, hrest⟩ := except_bind_eq_ok.mp h
    rw [Entries.keys_cons, List.pairwise_cons] at hdistinct
    rw [Entries.get?_cons] at hname
    split at hname
    · rename_i hk
      cases hname
      refine ⟨v, hv, ?_⟩
      have hnone : Entries.get? hints name = none := by
        by_contra hsome
        have hhas : Entries.has (Entries.keys hints) name = true := by
          rw [Entries.has_keys, Option.isSome_iff_ne_none]
          exact hsome
        obtain ⟨k', hk', heq⟩ := List.any_eq_true.mp hhas
        rw [beq_iff_eq.mp hk, ← beq_iff_eq.mp heq] at hdistinct
        simpa using hdistinct.1 k' hk'
      have hes : es.get? name = (found.set k v).get? name :=
        get?_resolveFields_of_none hrest hnone
      rw [hes, beq_iff_eq.mp hk, Entries.get?_set_self]
    · exact ih hdistinct.2 hrest hname

/-- A field of a class itself is what its own annotation comes to. -/
theorem get?_own (hwell : catalog.WellFormed) {n : Nat} {m : Model} {es : Entries String Value}
    {name : String} {hint : Value} (hm : catalog[n]? = some m)
    (h : resolveFields s read [] (catalog.inherited m) = .ok es)
    (hname : m.fields.get? name = some hint) :
    ∃ v, resolve s read hint = .ok v ∧ es.get? name = some v := by
  obtain ⟨bases, hlineage⟩ : ∃ bases, m.lineage = n :: bases := by
    have hfirst := hwell.first n m hm
    cases hl : m.lineage with
    | nil => simp [hl] at hfirst
    | cons a bases =>
      rw [hl] at hfirst
      exact ⟨bases, by rw [← Option.some.inj hfirst]⟩
  have hsplit : catalog.inherited m
      = (bases.reverse.filterMap fun n => catalog[n]?).flatMap (·.fields) ++ m.fields := by
    simp [inherited, hlineage, hm]
  rw [hsplit, resolveFields_append] at h
  obtain ⟨found, -, h⟩ := except_bind_eq_ok.mp h
  exact get?_resolveFields (hwell.distinct m (List.mem_of_getElem? hm)) h hname

/-! ## Paths through what is written out -/

/-- A type is a declared class, and something in its annotations or those of its bases is unknown. -/
def Unsure (catalog : Catalog) (s : Store) (read : String → Except Fault Value) (type : Value)
    (m : Model) : Prop :=
  ∃ r : ModelRef, type = .type (.model r) ∧ catalog[r.number]? = some m ∧
    ∃ f, resolveFields s read [] (catalog.inherited m) = .error f ∧ isUnknown f = true

/-- An annotation leads to the same type as it is written as when it is read. -/
def AsWritten (s : Store) (read : String → Except Fault Value) (hint : Value) : Prop :=
  ∃ v, resolve s read hint = .ok v ∧ unwrap v = unwrap hint

/-- A path goes through fields of a class itself, written out unless they are the last ones, wherever
something in the annotations of the class is unknown. -/
def Direct (catalog : Catalog) (s : Store) (read : String → Except Fault Value) :
    Value → List Value → Prop
  | _, [] => True
  | type, name :: rest =>
    (∀ m, catalog.Unsure s read type m → ∃ field hint, name = .text field ∧
      m.fields.get? field = some hint ∧ (rest ≠ [] → AsWritten s read hint)) ∧
    ∀ field es hint, name = .text field → catalog.fields s read type = .ok es →
      es.get? field = some hint → catalog.Direct s read (unwrap hint) rest

/-- Where nothing is unknown a type declares the same fields as before. -/
theorem fields_mended (h : Mended s read catalog catalog') {type : Value}
    (hsure : ∀ m, ¬ catalog.Unsure s read type m) :
    catalog'.fields s read type = catalog.fields s read type := by
  by_cases hmodel : ∃ r : ModelRef, type = .type (.model r)
  · obtain ⟨r, rfl⟩ := hmodel
    rcases h.getElem? r.number with ⟨hn, hn'⟩ | ⟨m, m', hm, hm', hmended⟩
    · simp only [fields, hn, hn']
    · have hsure := hsure m
      rcases resolveFields_mended (h.inherited hmended) [] with hunknown | hsame
      · exact absurd ⟨r, rfl, hm, hunknown⟩ hsure
      · simp only [fields, hm, hm', hsame]
        cases hresolve : resolveFields s read [] (catalog.inherited m) with
        | ok es => rfl
        | error f =>
          cases hf : isUnknown f with
          | false => simp [hf]
          | true => exact absurd ⟨r, rfl, hm, f, hresolve, hf⟩ hsure
  · unfold fields
    split
    · exact absurd ⟨_, rfl⟩ hmodel
    · rfl

/-- A path that is accepted once unknown annotations are replaced is accepted as they are, if it is
direct. -/
theorem Accepts.of_mended (hwell : catalog.WellFormed) (hmended : Mended s read catalog catalog')
    {type : Value} {path : List Value} (h : catalog'.Accepts s read type path)
    (hdirect : catalog.Direct s read type path) : catalog.Accepts s read type path := by
  induction h with
  | nil type => exact .nil type
  | @cons type hint' es' name rest hes' hname' _ ih =>
    obtain ⟨hown, hnext⟩ := hdirect
    by_cases hsure : ∃ m, catalog.Unsure s read type m
    · obtain ⟨m, hunsure⟩ := hsure
      obtain ⟨field, hint, hfield, hname, hwritten⟩ := hown m hunsure
      cases hfield
      obtain ⟨r, rfl, hm, hunknown⟩ := hunsure
      obtain ⟨f, hf, hkind⟩ := hunknown
      have hes : catalog.fields s read (.type (.model r)) = .ok m.fields :=
        (fields_eq_ok hm).mpr (.inr ⟨f, hf, hkind, rfl⟩)
      refine .cons hes hname ?_
      by_cases hrest : rest = []
      · subst hrest
        exact .nil _
      obtain ⟨v, hv, hunwrap⟩ := hwritten hrest
      have hknown : ¬ Unknown s read hint := fun ⟨g, hg, _⟩ => nomatch hv.symm.trans hg
      -- the field leads to the same type in both
      have hsame : unwrap hint' = unwrap hint := by
        rcases hmended.getElem? r.number with ⟨hnone, -⟩ | ⟨_, m', hsome, hm', hmodel⟩
        · cases hm.symm.trans hnone
        cases hm.symm.trans hsome
        have hname'' := hmodel.fields.get? hname hknown
        rcases (fields_eq_ok hm').mp hes' with hresolved | ⟨g, -, -, rfl⟩
        · obtain ⟨u, hu, hget⟩ := get?_own (hmended.wellFormed hwell) hm' hresolved hname''
          cases hv.symm.trans hu
          cases hname'.symm.trans hget
          exact hunwrap
        · cases hname'.symm.trans hname''
          rfl
      rw [hsame] at ih
      exact ih (hnext name m.fields hint rfl hes hname)
    · have hes := hes'
      rw [fields_mended hmended (not_exists.mp hsure)] at hes
      exact .cons hes hname' (ih (hnext name es' hint' rfl hes hname'))

end Catalog

namespace Builder

open Build Catalog

variable {call : Caller} {id : NodeId} {path : List Value} {w w' : Workspace}

/-- Unknown annotations do not stand in the way of other fields of the class that they stand in. A
path that the model of a builder declares once they are replaced is declared while they stay, if it
goes through fields of such classes themselves, and on from them through types that are written out
there. -/
theorem checkModel_of_mended (hwell : w.models.WellFormed)
    (hmended : Mended w.store (read call w.models) w.models w'.models)
    (hmodel : modelOf w'.store id = modelOf w.store id)
    (hdirect : ∀ model, (modelOf w.store id).present = some model →
      w.models.Direct w.store (read call w.models) model path)
    (h : checkModel call id path w' = .ok () w') : checkModel call id path w = .ok () w := by
  have hread : read call w'.models = read call w.models := by
    unfold read annotationSpace
    rw [hmended.withoutFields]
  rw [checkModel_eq_ok] at h ⊢
  intro model hm
  have haccepts := h model (hmodel.symm ▸ hm)
  rw [hread] at haccepts
  exact .of_mended hwell hmended (haccepts.congr w.store) (hdirect model hm)

/-- A class with a field `x`. -/
def base : ModelRef := { number := 0, scope := "", name := "Base" }

/-- A class made from `Base`, with a field of some annotation and one for a `Base` or nothing. -/
def derived : ModelRef := { number := 1, scope := "", name := "Derived" }

/-- A builder with the model `Derived`, of which the field `other` has an annotation. -/
def withDerived (hint : Value) : Workspace :=
  { models := [
      ⟨base, [0], [("x", .type (.basic "int"))]⟩,
      ⟨derived, [1, 0], [("other", hint), ("child", .type (.union false [.model base, .absent]))]⟩]
    store := ⟨[⟨.object { ObjectRule.empty with kind := .schema, model := .type (.model derived) },
      .bool true⟩]⟩ }

/-- The two classes as they are declared. -/
theorem wellFormed_withDerived (hint : Value) : (withDerived hint).models.WellFormed :=
  wellFormed_nil.declareAll [("", "Base", [], [("x", .type (.basic "int"))]),
    ("", "Derived", ["Base"], [("other", hint),
      ("child", .type (.union false [.model base, .absent]))])] rfl

/-- There is no class of this name. -/
theorem unknown_withDerived : Unknown (withDerived (.text "Nope")).store
    (read Build.call (withDerived (.text "Nope")).models) (.text "Nope") :=
  ⟨_, rfl, rfl⟩

theorem mended_withDerived (hint : Value) : Mended (withDerived (.text "Nope")).store
    (read Build.call (withDerived (.text "Nope")).models) (withDerived (.text "Nope")).models
    (withDerived hint).models :=
  .cons ⟨rfl, rfl, .cons ⟨rfl, .inl rfl⟩ .nil⟩
    (.cons ⟨rfl, rfl, .cons ⟨rfl, .inr unknown_withDerived⟩ (.cons ⟨rfl, .inl rfl⟩ .nil)⟩ .nil)

/-- A path leads through a field of the class itself to a field of the class that stands there, or
nothing. -/
theorem checkModel_of_mended_child :
    checkModel Build.call 0 [.text "child", .text "x"] (withDerived (.text "Nope"))
      = .ok () (withDerived (.text "Nope")) := by
  refine checkModel_of_mended (wellFormed_withDerived _)
    (mended_withDerived (.type (.basic "int"))) rfl ?_ rfl
  intro model hmodel
  cases hmodel
  refine ⟨fun m ⟨r, hr, hm, _⟩ => ?_, fun field es hint hfield hes hget => ?_⟩
  · cases hr
    cases hm
    exact ⟨"child", _, rfl, rfl, fun _ => ⟨_, rfl, rfl⟩⟩
  · cases hfield
    cases hes
    cases hget
    -- nothing in the class that the field leads to is unknown
    refine ⟨fun m ⟨r, hr, hm, f, hf, _⟩ => ?_, fun _ _ _ _ _ _ => trivial⟩
    cases hr
    cases hm
    cases hf

/-- A field of a base is lost when something in the annotations of the class itself is unknown. -/
theorem checkModel_unmended :
    Mended (withDerived (.text "Nope")).store (read Build.call (withDerived (.text "Nope")).models)
      (withDerived (.text "Nope")).models (withDerived (.type (.basic "int"))).models ∧
    checkModel Build.call 0 [.text "x"] (withDerived (.type (.basic "int")))
      = .ok () (withDerived (.type (.basic "int"))) ∧
    ∃ f, checkModel Build.call 0 [.text "x"] (withDerived (.text "Nope"))
      = .error f (withDerived (.text "Nope")) :=
  ⟨mended_withDerived _, rfl, _, rfl⟩

end Builder

end DraftSchema
