import DraftSchema.Proofs.Conflict
import DraftSchema.Proofs.Fallback
import DraftSchema.Proofs.Pointing

/-!
# Paths that a model does not declare

Where all annotations of the declared classes are known, a path is accepted exactly if it leads from
class to class: each name has an annotation in the class that the names before lead to, or in the
nearest one of its bases that has the name, and what the annotation stands for is where the path
goes on. The first name that has none is the one that a call is refused for.
-/

namespace DraftSchema

namespace Catalog

variable {catalog : Catalog} {s : Store} {read : String → Except Fault Value}

/-! ## Fields of a class and its bases -/

/-- The annotation that a name has in a class, or else in the nearest base that has one. -/
def hint? (catalog : Catalog) (m : Model) (name : String) : Option Value :=
  (m.lineage.filterMap fun n => catalog[n]?).findSome? fun c => c.fields.get? name

/-- All annotations of a class and of its bases are known. -/
def Known (catalog : Catalog) (s : Store) (read : String → Except Fault Value) (m : Model) : Prop :=
  ∃ es, resolveFields s read [] (catalog.inherited m) = .ok es

/-- Of the annotations of several classes the one of the first class that has the name counts. -/
theorem get?_resolveFields_classes {classes : List Model}
    (hdistinct : ∀ c ∈ classes, c.fields.keys.Pairwise fun a b => (a == b) = false)
    {es : Entries String Value}
    (h : resolveFields s read [] (classes.reverse.flatMap (·.fields)) = .ok es) (name : String) :
    (classes.findSome? (·.fields.get? name) = none ∧ es.get? name = none) ∨
      ∃ hint v, classes.findSome? (·.fields.get? name) = some hint ∧
        resolve s read hint = .ok v ∧ es.get? name = some v := by
  induction classes generalizing es with
  | nil =>
    cases h
    exact .inl ⟨rfl, rfl⟩
  | cons c rest ih =>
    -- the first class comes last, and so replaces what the others have
    rw [List.reverse_cons, List.flatMap_append, List.flatMap_singleton, resolveFields_append] at h
    obtain ⟨found, hfound, h⟩ := except_bind_eq_ok.mp h
    rw [List.findSome?_cons]
    cases hown : c.fields.get? name with
    | some hint =>
      obtain ⟨v, hv, hes⟩ := get?_resolveFields (hdistinct c List.mem_cons_self) h hown
      exact .inr ⟨hint, v, rfl, hv, hes⟩
    | none =>
      rw [get?_resolveFields_of_none h hown]
      exact ih (fun d hd => hdistinct d (List.mem_cons_of_mem _ hd)) hfound

/-- A class whose annotations are known declares the names that it or a base has one of. -/
theorem get?_fields (hwell : catalog.WellFormed) {m : Model} {es : Entries String Value}
    (h : resolveFields s read [] (catalog.inherited m) = .ok es) (name : String) :
    (catalog.hint? m name = none ∧ es.get? name = none) ∨
      ∃ hint v, catalog.hint? m name = some hint ∧ resolve s read hint = .ok v ∧
        es.get? name = some v := by
  rw [inherited, List.filterMap_reverse] at h
  refine get?_resolveFields_classes (fun c hc => ?_) h name
  obtain ⟨n, -, hn⟩ := List.mem_filterMap.mp hc
  exact hwell.distinct c (List.mem_of_getElem? hn)

/-! ## Where a path leads -/

/-- A path leads from a type to another: each name has an annotation in the class reached, and what is
left of it without the choice of nothing is reached next. -/
inductive Leads (catalog : Catalog) (s : Store) (read : String → Except Fault Value) :
    Value → List Value → Value → Prop
  | nil (type : Value) : Leads catalog s read type [] type
  | cons {r : ModelRef} {m : Model} {name : String} {hint v u target : Value} {rest : List Value}
      (declared : catalog[r.number]? = some m) (hinted : catalog.hint? m name = some hint)
      (known : resolve s read hint = .ok v) (stripped : Stripped v u)
      (next : Leads catalog s read u rest target) :
      Leads catalog s read (.type (.model r)) (.text name :: rest) target

/-- Everything about a type that is asked for is known. -/
theorem fields_of_known (hknown : ∀ m ∈ catalog, catalog.Known s read m) (type : Value) :
    ∃ es, catalog.fields s read type = .ok es ∧
      ((∃ r m, type = .type (.model r) ∧ catalog[r.number]? = some m ∧
          resolveFields s read [] (catalog.inherited m) = .ok es) ∨
        es = [] ∧ ∀ r, type = .type (.model r) → catalog[r.number]? = none) := by
  by_cases hclass : ∃ r : ModelRef, type = .type (.model r)
  · obtain ⟨r, rfl⟩ := hclass
    cases hm : catalog[r.number]? with
    | none =>
      refine ⟨[], by rw [fields, hm], .inr ⟨rfl, fun r' hr' => ?_⟩⟩
      cases hr'
      exact hm
    | some m =>
      obtain ⟨es, hes⟩ := hknown m (List.mem_of_getElem? hm)
      exact ⟨es, (fields_eq_ok hm).mpr (.inl hes), .inl ⟨r, m, rfl, hm, hes⟩⟩
  · refine ⟨[], ?_, .inr ⟨rfl, fun r hr => absurd ⟨r, hr⟩ hclass⟩⟩
    unfold fields
    split
    · exact absurd ⟨_, rfl⟩ hclass
    · rfl

/-- What a name leads to, one step on. -/
theorem leads_cons_iff (hwell : catalog.WellFormed) {type target : Value} {name : Value}
    {rest : List Value} {es : Entries String Value} (hknown : ∀ m ∈ catalog, catalog.Known s read m)
    (hes : catalog.fields s read type = .ok es) :
    catalog.Leads s read type (name :: rest) target ↔
      ∃ field v, name = .text field ∧ es.get? field = some v ∧
        catalog.Leads s read (unwrap v) rest target := by
  obtain ⟨es', hes', hcases⟩ := fields_of_known hknown type
  cases hes.symm.trans hes'
  constructor
  · intro h
    cases h with
    | @cons r m field hint v _ _ _ declared hinted known stripped next =>
      cases stripped_iff.mp stripped
      refine ⟨field, v, rfl, ?_, next⟩
      rcases hcases with ⟨r', m', hr', hm', hfields⟩ | ⟨-, hnone⟩
      · cases hr'
        cases declared.symm.trans hm'
        rcases get?_fields hwell hfields field with ⟨hno, -⟩ | ⟨hint', v', hhint', hv', hget⟩
        · cases hinted.symm.trans hno
        · cases hinted.symm.trans hhint'
          cases known.symm.trans hv'
          exact hget
      · cases declared.symm.trans (hnone r rfl)
  · rintro ⟨field, v, rfl, hget, next⟩
    rcases hcases with ⟨r, m, rfl, hm, hfields⟩ | ⟨rfl, -⟩
    · rcases get?_fields hwell hfields field with ⟨-, hnone⟩ | ⟨hint, v', hhint, hv, hget'⟩
      · cases hget.symm.trans hnone
      · cases hget.symm.trans hget'
        exact .cons hm hhint hv (stripped_unwrap v) next
    · cases hget

theorem Leads.append {type middle target : Value} {path rest : List Value}
    (h : catalog.Leads s read type path middle) :
    catalog.Leads s read middle rest target → catalog.Leads s read type (path ++ rest) target := by
  intro hrest
  induction h with
  | nil => exact hrest
  | cons declared hinted known stripped _ ih =>
    exact .cons declared hinted known stripped (ih hrest)

/-- What a path leads to, its first part leads towards. -/
theorem Leads.split {type target : Value} {path rest : List Value}
    (h : catalog.Leads s read type (path ++ rest) target) :
    ∃ middle, catalog.Leads s read type path middle ∧ catalog.Leads s read middle rest target := by
  induction path generalizing type with
  | nil => exact ⟨type, .nil type, h⟩
  | cons name path ih =>
    cases h with
    | cons declared hinted known stripped next =>
      obtain ⟨middle, hpath, hrest⟩ := ih next
      exact ⟨middle, .cons declared hinted known stripped hpath, hrest⟩

/-- A path leads to one type only. -/
theorem Leads.of_append {type middle target : Value} {path rest : List Value}
    (h : catalog.Leads s read type path middle)
    (hall : catalog.Leads s read type (path ++ rest) target) :
    catalog.Leads s read middle rest target := by
  induction h with
  | nil => exact hall
  | cons declared hinted known stripped _ ih =>
    cases hall with
    | cons declared' hinted' known' stripped' next =>
      cases declared.symm.trans declared'
      cases hinted.symm.trans hinted'
      cases known.symm.trans known'
      cases stripped_iff.mp stripped
      cases stripped_iff.mp stripped'
      exact ih next

/-! ## Checks -/

/-- The fault of a name that is not declared, as it is worded. -/
def undeclared (s : Store) (label : Value → Except Fault String) (seen : List Value)
    (type name : Value) : Except Fault Unit := do
  let pointer ← s.pointer (seen ++ [name])
  throw (.refused (.undeclared (← s.valueText name) (← label type) pointer))

/-- A check goes on from where a declared name leads. -/
theorem check_of_field {label : Value → Except Fault String} {seen rest : List Value}
    {type v : Value} {field : String} {es : Entries String Value}
    (hes : catalog.fields s read type = .ok es) (hget : es.get? field = some v) :
    catalog.check s read label seen type (.text field :: rest)
      = catalog.check s read label (seen ++ [.text field]) (unwrap v) rest := by
  simp only [check, hes, Store.unhashable?_text, bind, Except.bind]
  rw [hget]

/-- A check stops at a name that is not declared. -/
theorem check_of_no_field {label : Value → Except Fault String} {seen rest : List Value}
    {type name : Value} {es : Entries String Value} (hes : catalog.fields s read type = .ok es)
    (hname : name.isHashable = true) (hnone : ∀ field, name = .text field → es.get? field = none) :
    catalog.check s read label seen type (name :: rest) = undeclared s label seen type name := by
  have hkey : s.unhashable? name = none := by
    rw [Store.unhashable?, Option.map_eq_none_iff]
    exact Option.isNone_iff_eq_none.mp hname
  rw [check, hes, hkey]
  simp only [bind, Except.bind]
  cases name with
  | text field =>
    dsimp only
    rw [hnone field rfl]
    rfl
  | _ => rfl

/-- A path stops at a name: the names before lead to a type that does not declare it. -/
structure StopsAt (catalog : Catalog) (s : Store) (read : String → Except Fault Value)
    (type : Value) (path before : List Value) (name last : Value) : Prop where
  split : ∃ rest, path = before ++ name :: rest
  leads : catalog.Leads s read type before last
  stops : ¬ ∃ target, catalog.Leads s read type (before ++ [name]) target

/-- A path that stops leads nowhere. -/
theorem StopsAt.nowhere {type name last : Value} {path before : List Value}
    (h : catalog.StopsAt s read type path before name last) :
    ¬ ∃ target, catalog.Leads s read type path target := by
  rintro ⟨target, hleads⟩
  obtain ⟨rest, rfl⟩ := h.split
  rw [List.append_cons] at hleads
  obtain ⟨middle, hfirst, -⟩ := hleads.split
  exact h.stops ⟨middle, hfirst⟩

theorem undeclared_ne_ok {label : Value → Except Fault String} {seen : List Value}
    {type name : Value} : undeclared s label seen type name ≠ .ok () := by
  intro h
  obtain ⟨pointer, -, h⟩ := except_bind_eq_ok.mp h
  obtain ⟨shown, -, h⟩ := except_bind_eq_ok.mp h
  obtain ⟨owner, -, h⟩ := except_bind_eq_ok.mp h
  cases h

/-- A check accepts a path that leads somewhere, and else stops at the first name that does not. -/
theorem check_cases (hwell : catalog.WellFormed) (hknown : ∀ m ∈ catalog, catalog.Known s read m)
    {label : Value → Except Fault String} {path : List Value}
    (hn : ∀ name ∈ path, name.isHashable = true) (seen : List Value) (type : Value) :
    ((∃ target, catalog.Leads s read type path target) ∧
      catalog.check s read label seen type path = .ok ()) ∨
    ∃ before name last, catalog.StopsAt s read type path before name last ∧
      catalog.check s read label seen type path
        = undeclared s label (seen ++ before) last name := by
  induction path generalizing seen type with
  | nil => exact .inl ⟨⟨type, .nil type⟩, rfl⟩
  | cons name rest ih =>
    obtain ⟨es, hes, -⟩ := fields_of_known hknown type
    have hstep : ∀ target, catalog.Leads s read type [name] target ↔ _ :=
      fun target => leads_cons_iff hwell hknown hes
    by_cases hfield : ∃ field v, name = .text field ∧ es.get? field = some v
    · obtain ⟨field, v, rfl, hget⟩ := hfield
      have hlead : catalog.Leads s read type [.text field] (unwrap v) :=
        (hstep _).mpr ⟨field, v, rfl, hget, .nil _⟩
      rw [check_of_field hes hget]
      rcases ih (fun k hk => hn k (List.mem_cons_of_mem _ hk)) (seen ++ [.text field]) (unwrap v)
        with ⟨⟨target, hrest⟩, hok⟩ | ⟨before, stop, last, hstops, herror⟩
      · exact .inl ⟨⟨target, hlead.append hrest⟩, hok⟩
      · obtain ⟨⟨after, hsplit⟩, hbefore, hstop⟩ := hstops
        refine .inr ⟨.text field :: before, stop, last,
          ⟨⟨after, by rw [hsplit]; rfl⟩, hlead.append hbefore, ?_⟩, ?_⟩
        · rintro ⟨target, hall⟩
          exact hstop ⟨target, hlead.of_append hall⟩
        · rw [herror, List.append_assoc]
          rfl
    · refine .inr ⟨[], name, type, ⟨⟨rest, rfl⟩, .nil type, ?_⟩, ?_⟩
      · rintro ⟨target, hlead⟩
        obtain ⟨field, v, hfound, hget, -⟩ := (hstep target).mp hlead
        exact hfield ⟨field, v, hfound, hget⟩
      · rw [List.append_nil]
        refine check_of_no_field hes (hn name List.mem_cons_self) fun field hname => ?_
        cases hget : es.get? field with
        | none => rfl
        | some v => exact absurd ⟨field, v, hname, hget⟩ hfield

end Catalog

namespace Builder

open Build

variable {call : Caller} {id node : NodeId} {selector value model : Value} {path : List Value}
  {w w₁ : Workspace}

/-- The model of a builder is asked for the whole path. -/
theorem checkModel_of_model (hmodel : (modelOf w.store id).present = some model) :
    checkModel call id path w = Build.ofExcept
      (w.models.check w.store (read call w.models) (modelLabel w.store) [] model path) w := by
  unfold checkModel
  rw [hmodel]
  rfl

/-- A call whose path the model does not declare ends there, and changes nothing. -/
theorem add_of_undeclared {f : Fault} (hres : resolve call selector value w = .ok (path, node) w₁)
    (hp : path ≠ []) (hcheck : checkModel call id path w₁ = .error f w₁) :
    add call id selector value w = .error f w₁ := by
  have hempty : ¬ path.isEmpty = true := by simpa using hp
  rw [add, bind_of_ok hres]
  dsimp only
  rw [if_neg hempty, putRule, bind_of_error hcheck]

theorem spellable_modelLabel (s : Store) (v : Value) :
    Spellable (∃ c ∈ v.nodes, ¬ s.Whole c) (modelLabel s v) := by
  unfold modelLabel
  split
  · rename_i t
    cases t.name? with
    | some name => exact .ok name
    | none => exact s.spellable_valueText _
  · exact .ok _
  · exact .ok _
  · exact .ok _
  · exact .ok _
  · exact s.spellable_valueText _

/-- A call is refused for a name that is not declared, and changes nothing. In other words it is
refused only if the pointer, the name or the type cannot be shown: for a number in it that has too many
digits, or for a rule in it that contains itself. -/
structure RefusedFor (call : Caller) (id : NodeId) (selector value : Value) (w w₁ : Workspace)
    (before : List Value) (name last : Value) : Prop where
  refused : ∀ pointer shown owner, w₁.store.pointer (before ++ [name]) = .ok pointer →
    w₁.store.valueText name = .ok shown → modelLabel w₁.store last = .ok owner →
    add call id selector value w = .error (.refused (.undeclared shown owner pointer)) w₁
  unshown : ∃ f, add call id selector value w = .error f w₁ ∧
    ((∃ pointer shown owner, f = .refused (.undeclared shown owner pointer)) ∨
      f = .tooManyDigits Whole.digitLimit none ∨
      f = .tooDeep ∧ ∃ c ∈ Value.nodesOf (before ++ [name, last]), ¬ w₁.store.Whole c)
  /-- A path of texts can be pointed to. -/
  pointer : ∀ names : List String, before ++ [name] = names.map .text →
    w₁.store.pointer (before ++ [name]) = .ok (Pointer.encode names)

theorem refusedFor_of_undeclared {before : List Value} {name last : Value}
    (hadd : ∀ f, Catalog.undeclared w₁.store (modelLabel w₁.store) before last name = .error f →
      add call id selector value w = .error f w₁) :
    RefusedFor call id selector value w w₁ before name last where
  refused pointer shown owner hpointer hshown howner := by
    refine hadd _ ?_
    rw [Catalog.undeclared, hpointer, hshown, howner]
    rfl
  unshown := by
    let endless := ∃ c ∈ Value.nodesOf (before ++ [name, last]), ¬ w₁.store.Whole c
    have hin : ∀ v ∈ before ++ [name, last], (∃ c ∈ v.nodes, ¬ w₁.store.Whole c) → endless := by
      rintro v hv ⟨c, hc, hwhole⟩
      exact ⟨c, Value.mem_nodesOf.mpr ⟨v, hv, hc⟩, hwhole⟩
    have hpointers : Spellable endless (w₁.store.pointer (before ++ [name])) :=
      (w₁.store.spellable_pointer _).mono fun hpointer => by
        obtain ⟨c, hc, hwhole⟩ := hpointer
        obtain ⟨v, hv, hc⟩ := Value.mem_nodesOf.mp hc
        refine hin v ?_ ⟨c, hc, hwhole⟩
        rw [List.append_cons]
        exact List.mem_append_left _ hv
    have hnames : Spellable endless (w₁.store.valueText name) :=
      (w₁.store.spellable_valueText name).mono (hin name (by simp))
    have howners : Spellable endless (modelLabel w₁.store last) :=
      (spellable_modelLabel w₁.store last).mono (hin last (by simp))
    cases hpointer : w₁.store.pointer (before ++ [name]) with
    | error f =>
      exact ⟨f, hadd f (by rw [Catalog.undeclared, hpointer]; rfl), .inr (hpointers f hpointer)⟩
    | ok pointer =>
      cases hshown : w₁.store.valueText name with
      | error f =>
        exact ⟨f, hadd f (by rw [Catalog.undeclared, hpointer, hshown]; rfl),
          .inr (hnames f hshown)⟩
      | ok shown =>
        cases howner : modelLabel w₁.store last with
        | error f =>
          exact ⟨f, hadd f (by rw [Catalog.undeclared, hpointer, hshown, howner]; rfl),
            .inr (howners f howner)⟩
        | ok owner =>
          exact ⟨_, hadd _ (by rw [Catalog.undeclared, hpointer, hshown, howner]; rfl),
            .inl ⟨pointer, shown, owner, rfl⟩⟩
  pointer names hnames := by rw [hnames, Store.pointer_texts]

/-- The model of a builder declares a path exactly if the path leads somewhere. -/
theorem leads_of_checkModel (hn : ∀ name ∈ path, name.isHashable = true)
    (hmodel : (modelOf w.store id).present = some model) (hwell : w.models.WellFormed)
    (hknown : ∀ m ∈ w.models, w.models.Known w.store (read call w.models) m) :
    checkModel call id path w = .ok () w ↔
      ∃ target, w.models.Leads w.store (read call w.models) model path target := by
  rw [checkModel_of_model hmodel]
  rcases Catalog.check_cases hwell hknown hn [] model with
    ⟨hleads, hok⟩ | ⟨before, name, last, hstops, herror⟩
  · rw [hok]
    exact ⟨fun _ => hleads, fun _ => rfl⟩
  · refine ⟨fun hcheck => ?_, fun hleads => absurd hleads hstops.nowhere⟩
    rw [herror] at hcheck
    cases h : Catalog.undeclared w.store (modelLabel w.store) ([] ++ before) last name with
    | ok => exact absurd h Catalog.undeclared_ne_ok
    | error f =>
      rw [h] at hcheck
      cases hcheck

/-- Where all annotations of the declared classes are known, the model of a builder accepts a path
exactly if the path leads somewhere. Otherwise a call with it is refused for the first name that
leads nowhere, and changes nothing. Without functions among the selector and the value nothing that
there was has changed before either. -/
theorem checkModel_iff_leads (hres : resolve call selector value w = .ok (path, node) w₁)
    (hp : path ≠ []) (hn : ∀ name ∈ path, name.isHashable = true)
    (hmodel : (modelOf w₁.store id).present = some model) (hwell : w₁.models.WellFormed)
    (hknown : ∀ m ∈ w₁.models, w₁.models.Known w₁.store (read call w₁.models) m) :
    (checkModel call id path w₁ = .ok () w₁ ↔
      ∃ target, w₁.models.Leads w₁.store (read call w₁.models) model path target) ∧
    ((¬ ∃ target, w₁.models.Leads w₁.store (read call w₁.models) model path target) →
      ∃ before name last,
        w₁.models.StopsAt w₁.store (read call w₁.models) model path before name last ∧
        RefusedFor call id selector value w w₁ before name last) ∧
    (selector.isCallable = false → value.isCallable = false → w₁.store.Extends w.store) := by
  refine ⟨leads_of_checkModel hn hmodel hwell hknown, fun hnowhere => ?_, fun hs hv => ?_⟩
  · rcases Catalog.check_cases hwell hknown hn [] model with
      ⟨hleads, -⟩ | ⟨before, name, last, hstops, herror⟩
    · exact absurd hleads hnowhere
    · refine ⟨before, name, last, hstops, refusedFor_of_undeclared fun f hf => ?_⟩
      refine add_of_undeclared hres hp ?_
      rw [checkModel_of_model hmodel, herror, List.nil_append, hf]
      rfl
  · rcases resolve_cases hs hv hres with rfl | ⟨rule, -, halloc⟩
    · exact .refl _
    · cases halloc
      exact Store.extends_alloc _ _

/-- Texts can be keys. -/
theorem hashable_texts (names : List String) :
    ∀ name ∈ names.map Value.text, name.isHashable = true := by
  intro name hname
  obtain ⟨s, -, rfl⟩ := List.mem_map.mp hname
  rfl

/-- What a check comes to, it comes to without changing anything. -/
theorem checkModel_of_result {result : Except Fault Unit}
    (h : (checkModel call id path).result w = result) :
    checkModel call id path w = Build.ofExcept result w := by
  rw [← h]
  rcases checkModel_cases call id path w with hok | ⟨f, herror⟩
  · rw [Build.result, hok]
    rfl
  · rw [Build.result, herror]
    rfl

/-- A builder with the model `Base`, whose field `a` has an annotation. -/
def withField (hint : Value) : Workspace :=
  { models := [⟨base, [0], [("a", hint)]⟩]
    store := ⟨[⟨.object { ObjectRule.empty with kind := .schema, model := .type (.model base) },
      .bool true⟩]⟩
    vars := [("b", ⟨.node 0, 0⟩)] }

theorem wellFormed_withField (hint : Value) : (withField hint).models.WellFormed :=
  Catalog.wellFormed_nil.declareAll [("", "Base", [], [("a", hint)])] rfl

theorem known_withField {hint : Value} (h : (Catalog.resolve (withField hint).store
      (read Build.call (withField hint).models) hint).isOk = true) :
    ∀ m ∈ (withField hint).models, (withField hint).models.Known (withField hint).store
      (read Build.call (withField hint).models) m := by
  intro m hm
  rw [List.mem_singleton.mp hm]
  have hinherited : (withField hint).models.inherited ⟨base, [0], [("a", hint)]⟩ = [("a", hint)] :=
    rfl
  cases hv : Catalog.resolve (withField hint).store (read Build.call (withField hint).models)
    hint with
  | error f =>
    rw [hv] at h
    cases h
  | ok v =>
    refine ⟨[("a", v)], ?_⟩
    rw [hinherited, Catalog.resolveFields, hv]
    rfl

/-- A class with a field for a `Base` or nothing, written as a text. -/
def recursive : Workspace := withField (.text "Base | None")

theorem known_recursive : ∀ m ∈ recursive.models,
    recursive.models.Known recursive.store (read Build.call recursive.models) m :=
  known_withField (by decide +kernel)

/-- Any number of names `a` is accepted. No other name is declared after them. -/
theorem checkModel_iff_leads_recursive :
    (∃ target, recursive.models.Leads recursive.store (read Build.call recursive.models)
      (.type (.model base)) [.text "a", .text "a", .text "a"] target) ∧
    add Build.call 0 (.list 0 [.text "a", .text "a", .text "x"]) (.node 0) recursive
      = .error (.refused (.undeclared "x" "Base" "/a/a/x")) recursive ∧
    ∃ before name last,
      recursive.models.StopsAt recursive.store (read Build.call recursive.models)
        (.type (.model base)) [.text "a", .text "a", .text "x"] before name last ∧
      RefusedFor Build.call 0 (.list 0 [.text "a", .text "a", .text "x"]) (.node 0) recursive
        recursive before name last := by
  have hwell : recursive.models.WellFormed := wellFormed_withField _
  have hmodel : (modelOf recursive.store 0).present = some (.type (.model base)) := rfl
  have haccepted :
      resolve Build.call (.list 0 [.text "a", .text "a", .text "a"]) (.node 0) recursive
        = .ok ([.text "a", .text "a", .text "a"], 0) recursive := rfl
  have hrefused :
      resolve Build.call (.list 0 [.text "a", .text "a", .text "x"]) (.node 0) recursive
        = .ok ([.text "a", .text "a", .text "x"], 0) recursive := rfl
  have hok : (checkModel Build.call 0 [.text "a", .text "a", .text "a"]).result recursive
      = .ok () := by decide +kernel
  have herror : (checkModel Build.call 0 [.text "a", .text "a", .text "x"]).result recursive
      = .error (.refused (.undeclared "x" "Base" "/a/a/x")) := by decide +kernel
  obtain ⟨haccepts, -, -⟩ :=
    checkModel_iff_leads haccepted (by simp) (hashable_texts ["a", "a", "a"]) hmodel hwell
      known_recursive
  obtain ⟨hdeclared, hstops, -⟩ :=
    checkModel_iff_leads hrefused (by simp) (hashable_texts ["a", "a", "x"]) hmodel hwell
      known_recursive
  refine ⟨haccepts.mp (checkModel_of_result hok),
    add_of_undeclared hrefused (by simp) (checkModel_of_result herror), hstops fun hleads => ?_⟩
  cases (hdeclared.mpr hleads).symm.trans (checkModel_of_result herror)

/-- A field for a number with too many digits, written as a text. -/
def overlong : Workspace := withField (.text "10**4300")

/-- The numbers from one on, once a truth value has been put under `a` on the builder. -/
def meddling : Value :=
  .function 0 (.and
    (.call (.attr (.const (.ref "b")) "with_") [.const (.list [.text "a"]), .const (.bool true)])
    (.compare .ge .arg (.const (.int 1))))

/-- After a field for a number with too many digits nothing is declared, but this cannot be said,
since the number cannot be shown. And a value that is a function may itself have changed the builder
before the path is refused. -/
theorem checkModel_iff_leads_fails :
    ((∀ m ∈ overlong.models,
        overlong.models.Known overlong.store (read Build.call overlong.models) m) ∧
      (¬ ∃ target, overlong.models.Leads overlong.store (read Build.call overlong.models)
        (.type (.model base)) [.text "a", .text "b"] target) ∧
      ∃ w', add Build.call 0 (.list 0 [.text "a", .text "b"]) (.int 1) overlong
        = .error (.tooManyDigits Whole.digitLimit none) w') ∧
    (∀ m ∈ recursive.models,
        recursive.models.Known recursive.store (read Build.call recursive.models) m) ∧
      recursive.store.child? 0 (.text "a") = none ∧
      ∃ w', add Build.call 0 (.list 0 [.text "b"]) meddling recursive
          = .error (.refused (.undeclared "b" "Base" "/b")) w' ∧
        (w'.store.child? 0 (.text "a")).isSome = true := by
  have hknown : ∀ m ∈ overlong.models,
      overlong.models.Known overlong.store (read Build.call overlong.models) m :=
    known_withField (by decide +kernel)
  refine ⟨⟨hknown, ?_, _, error_of_result (by decide +kernel)⟩, known_recursive, rfl, _,
    error_of_result (by decide +kernel), by decide +kernel⟩
  have hmodel : (modelOf overlong.store 0).present = some (.type (.model base)) := rfl
  have herror : (checkModel Build.call 0 [.text "a", .text "b"]).result overlong
      = .error (.tooManyDigits Whole.digitLimit none) := by decide +kernel
  intro hleads
  have hok := (leads_of_checkModel (hashable_texts ["a", "b"]) hmodel (wellFormed_withField _)
    hknown).mpr hleads
  cases hok.symm.trans (checkModel_of_result herror)

end Builder

end DraftSchema
