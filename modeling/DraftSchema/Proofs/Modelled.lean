import DraftSchema.Proofs.Fallback
import DraftSchema.Proofs.History
import DraftSchema.Proofs.StoredEntries

/-!
# Builders with a model

A call asks the model of the builder that it is made on, and no other. So a builder with a model
holds declared fields as far as its own calls go; a call on another builder whose path leads through
it puts what it likes. A course of calls is followed with the objects that its paths led through
below the builders they were made on, each with the name on its level.
-/

namespace DraftSchema

namespace Catalog

/-- A name is that of a field that a type declares. -/
def Declares (catalog : Catalog) (s : Store) (read : String → Except Fault Value)
    (type name : Value) : Prop :=
  ∃ field es hint, name = .text field ∧ catalog.fields s read type = .ok es ∧
    es.get? field = some hint

variable {catalog : Catalog} {s : Store} {read : String → Except Fault Value} {type name : Value}

/-- The rules that there are do not count for which names are declared. -/
theorem Declares.congr (h : catalog.Declares s read type name) (t : Store) :
    catalog.Declares t read type name := by
  obtain ⟨field, es, hint, hname, hes, hhint⟩ := h
  exact ⟨field, es, hint, hname, fields_congr t hes, hhint⟩

theorem Accepts.declares {rest : List Value} (h : catalog.Accepts s read type (name :: rest)) :
    catalog.Declares s read type name := by
  cases h with
  | cons fields field next => exact ⟨_, _, _, rfl, fields, field⟩

end Catalog

/-- Every object rule keeps its kind, its model and its properties. Rules may be made, and be
required. -/
def Store.Spares (s s' : Store) : Prop :=
  ∀ x r, s.object? x = some r → ∃ r', s'.object? x = some r' ∧ r'.kind = r.kind ∧
    r'.model = r.model ∧ r'.properties = r.properties

theorem Store.Extends.spares {s s' : Store} (h : s'.Extends s) : s.Spares s' := by
  intro x r hr
  refine ⟨r, ?_, rfl, rfl, rfl⟩
  rw [Store.object?, h.same x (Store.lt_size_of_object? hr), ← Store.object?, hr]

namespace Builder

open Build

variable {call : Caller} {id node : NodeId} {selector value model : Value} {path : List Value}
  {w w₁ w₂ start : Workspace} {r : ObjectRule}

/-- The names that an object rule has after a call are those it had, the first one of the path if
the call was made on it and passed the check of the model, and those on its level of a way that led
through it from above. -/
theorem names_of_add (id : NodeId) (hres : resolve call selector value w = .ok (path, node) w₁)
    {x : NodeId} (hr : w₁.store.object? x = some r) :
    ∃ r', ((add call id selector value).after w).store.object? x = some r' ∧ r'.kind = r.kind ∧
      r'.model = r.model ∧ ∀ k ∈ r'.properties.keys, k ∈ r.properties.keys ∨
        (x = id ∧ path.head? = some k ∧ checkModel call id path w₁ = .ok () w₁) ∨
        (x, k) ∈ (w₁.store.stations id path).tail := by
  obtain ⟨r', hr', hkind, hmodel, hkeys⟩ := (stocked_add id hres).object? hr
  refine ⟨r', hr', hkind, hmodel, fun k hk => ?_⟩
  rcases checked_of_add hres hr hr' with hsame | hcheck
  · rw [hsame] at hk
    exact .inl hk
  rcases hkeys k hk with hold | ⟨-, hway | hnew⟩
  · exact .inl hold
  · cases path with
    | nil => cases (List.of_mem_zip hway).2
    | cons name rest =>
      obtain ⟨tail, hwalk⟩ := w₁.store.walk_eq_cons id name rest
      rw [Store.stations, hwalk] at hway ⊢
      rcases List.mem_cons.mp hway with hfirst | hlater
      · cases hfirst
        exact .inr (.inl ⟨rfl, rfl, hcheck⟩)
      · exact .inr (.inr hlater)
  · exact absurd (Store.lt_size_of_object? hr) (Nat.not_lt.mpr hnew)

theorem models_of_add (hres : resolve call selector value w = .ok (path, node) w₁) :
    ((add call id selector value).after w).models = w₁.models := by
  have hsettled : Settled call id path node w₁ (add call id selector value w) := add_settled hres
  unfold Build.after
  generalize add call id selector value w = result at hsettled
  cases hsettled <;> rfl

/-- A call brings a builder with a model to hold declared fields, apart from what it puts there on
its way from another object. -/
theorem declares_of_add (id : NodeId) (hres : resolve call selector value w = .ok (path, node) w₁)
    {x : NodeId} (hr : w₁.store.object? x = some r) (hmodel : r.model.present = some model) :
    ∃ r', ((add call id selector value).after w).store.object? x = some r' ∧ r'.kind = r.kind ∧
      r'.model = r.model ∧ ∀ k ∈ r'.properties.keys, k ∈ r.properties.keys ∨
        w₁.models.Declares w₁.store (read call w₁.models) model k ∨
        (x, k) ∈ (w₁.store.stations id path).tail := by
  obtain ⟨r', hr', hkind, hmodel', hkeys⟩ := names_of_add id hres hr
  refine ⟨r', hr', hkind, hmodel', fun k hk => ?_⟩
  rcases hkeys k hk with hold | ⟨rfl, hhead, hcheck⟩ | hlater
  · exact .inl hold
  · have hof : modelOf w₁.store x = r.model := by rw [modelOf, hr]
    have haccepts := checkModel_eq_ok.mp hcheck model (hof ▸ hmodel)
    obtain ⟨rest, rfl⟩ := List.head?_eq_some_iff.mp hhead
    exact .inr (.inl haccepts.declares)
  · exact .inr (.inr hlater)

/-- A course of calls on builders from a workspace on. `led` are the objects that the paths of calls
led through below the builder called, each with the name on its level. What else happens, functions
among the values included, is part of the course if it is a call, and spares all properties if it
is none; a call may fail. -/
inductive Passage (call : Caller) (start : Workspace) : List (NodeId × Value) → Workspace → Prop
  | start : Passage call start [] start
  | aside {led : List (NodeId × Value)} {w w' : Workspace} (before : Passage call start led w)
      (spared : w.store.Spares w'.store) (models : w'.models = w.models) :
      Passage call start led w'
  /-- A builder is called, once it is known what the call stands for. -/
  | add {led : List (NodeId × Value)} {w w₁ : Workspace} {id node : NodeId}
      {selector value : Value} {path : List Value}
      (resolved : resolve call selector value w = .ok (path, node) w₁)
      (before : Passage call start led w₁) :
      Passage call start (led ++ (w₁.store.stations id path).tail)
        ((add call id selector value).after w)

/-- To find out what a call without functions stands for makes a rule at most. -/
theorem Passage.resolve {led : List (NodeId × Value)} (h : Passage call start led w)
    (hs : selector.isCallable = false) (hv : value.isCallable = false)
    (hres : Builder.resolve call selector value w = .ok (path, node) w₁) :
    Passage call start led w₁ := by
  rcases resolve_cases hs hv hres with rfl | ⟨rule, -, halloc⟩
  · exact h
  · cases halloc
    exact .aside h (Store.extends_alloc _ _).spares rfl

/-- A call without functions that succeeds is all that happens. -/
theorem Passage.succeeds {led : List (NodeId × Value)} (h : Passage call start led w)
    (hs : selector.isCallable = false) (hv : value.isCallable = false)
    (hres : Builder.resolve call selector value w = .ok (path, node) w₁)
    (hadd : Builder.add call id selector value w = .ok () w₂) :
    Passage call start (led ++ (w₁.store.stations id path).tail) w₂ := by
  have hcalled : Passage call start (led ++ (w₁.store.stations id path).tail)
      ((Builder.add call id selector value).after w) := .add hres (h.resolve hs hv hres)
  rw [after_of_ok hadd] at hcalled
  exact hcalled

/-- To make a builder changes no other one. -/
theorem Passage.construct {c : NodeClass} {args : Arguments} {led : List (NodeId × Value)}
    (h : Passage call start led w) (hc : c = .schema ∨ c = .dictionary)
    (hmade : Construction.construct call c args w = .ok id w₁) : Passage call start led w₁ := by
  rcases hc with rfl | rfl
  · cases hmade
    exact .aside h (Store.extends_alloc _ _).spares rfl
  · cases hmade
    exact .aside h (Store.extends_alloc _ _).spares rfl

/-- A builder with a model comes to hold declared fields in a course of calls, apart from the names
under which paths led through it. -/
theorem Passage.names {led : List (NodeId × Value)} (h : Passage call start led w)
    (hr : start.store.object? id = some r) (hmodel : r.model.present = some model) :
    ∃ r', w.store.object? id = some r' ∧ r'.kind = r.kind ∧ r'.model = r.model ∧
      ∀ k ∈ r'.properties.keys, k ∈ r.properties.keys ∨
        w.models.Declares w.store (read call w.models) model k ∨ (id, k) ∈ led := by
  induction h with
  | start => exact ⟨r, hr, rfl, rfl, fun k hk => .inl hk⟩
  | @aside led w w' _ spared models ih =>
    obtain ⟨r₁, hr₁, hkind₁, hmodel₁, hkeys₁⟩ := ih
    obtain ⟨r', hr', hkind', hmodel', hsame⟩ := spared id r₁ hr₁
    refine ⟨r', hr', hkind'.trans hkind₁, hmodel'.trans hmodel₁, fun k hk => ?_⟩
    rw [hsame] at hk
    rw [models]
    rcases hkeys₁ k hk with hold | hdeclared | hled
    · exact .inl hold
    · exact .inr (.inl (hdeclared.congr w'.store))
    · exact .inr (.inr hled)
  | @add led w w₁ caller node selector value path resolved _ ih =>
    obtain ⟨r₁, hr₁, hkind₁, hmodel₁, hkeys₁⟩ := ih
    obtain ⟨r', hr', hkind', hmodel', hkeys'⟩ :=
      declares_of_add caller resolved hr₁ (hmodel₁ ▸ hmodel)
    refine ⟨r', hr', hkind'.trans hkind₁, hmodel'.trans hmodel₁, fun k hk => ?_⟩
    rw [models_of_add resolved]
    rcases hkeys' k hk with hmid | hdeclared | hlater
    · rcases hkeys₁ k hmid with hold | hdeclared | hled
      · exact .inl hold
      · exact .inr (.inl (hdeclared.congr _))
      · exact .inr (.inr (List.mem_append_left _ hled))
    · exact .inr (.inl (hdeclared.congr _))
    · exact .inr (.inr (List.mem_append_right _ hlater))

/-- The class `Base` in a session without rules. -/
def declaring : Workspace := { models := [⟨base, [0], [("x", .type (.basic "int"))]⟩] }

end Builder

end DraftSchema
