import DraftSchema.Proofs.Indifference

/-!
# Dictionaries as lifted builders

A dictionary is a builder of one object lifted under every key. A run of calls on a new dictionary
goes as it does on a new builder of one object, answer by answer, and the document that the dictionary
ends with says of every key what that of the builder says of one object. Dictionaries that are put
around one another lift a document once each.
-/

namespace DraftSchema

open Catalog (outcome)
open Store (everyKey)

namespace Builder

open Build

variable {α β : Type} {call : Caller} {id node : NodeId} {path : List Value} {w w' u u' : Workspace}

/-! ## Builders just made -/

/-- The workspace with a new builder. -/
def withBuilder (kind : ObjectKind) (args : Arguments) (w : Workspace) : Workspace :=
  { w with
    store := (w.store.alloc ⟨.object (Construction.builderRule kind args), args.required⟩).1 }

theorem construct_builder (call : Caller) (args : Arguments) (w : Workspace) :
    Construction.construct call .schema args w = .ok w.store.size (withBuilder .schema args w) ∧
      Construction.construct call .dictionary args w
        = .ok w.store.size (withBuilder .dictionary args w) :=
  ⟨rfl, rfl⟩

/-- A builder that was just made and a dictionary that was just made differ in their kind. -/
theorem lifted_withBuilder {args : Arguments} (hclosed : w.store.Closed)
    (hargs : ∀ c ∈ (Construction.builderRule .schema args).references, c < w.store.size) :
    Lifted w.store.size (withBuilder .schema args w) (withBuilder .dictionary args w) where
  store := by
    refine Store.ext_get? fun x => ?_
    simp only [withBuilder, Store.recast, Store.get?_modifyObject, Store.get?_alloc, if_pos]
    split <;> rfl
  models := rfl
  builder := ⟨Construction.builderRule .schema args,
    by rw [withBuilder, Store.object?_alloc, if_pos rfl], rfl⟩
  aside x hx := by
    by_cases hnew : x = w.store.size
    · have hr : (withBuilder .schema args w).store.object? x
          = some (Construction.builderRule .schema args) := by
        rw [withBuilder, Store.object?_alloc, if_pos hnew]
      exact Nat.lt_irrefl _ (hargs _ (Store.references_of_object? hr ▸ hx))
    · have hget : (withBuilder .schema args w).store.get? x = w.store.get? x := by
        rw [withBuilder, Store.get?_alloc, if_neg hnew]
      have hold : w.store.size ∈ w.store.references x := Store.references_congr hget ▸ hx
      exact Nat.lt_irrefl _ (hclosed x (Store.lt_size_of_mem_references hold) _ hold)

/-! ## Dictionaries around one another -/

/-- A selector that stands for every key, and leaves the rules as they are. -/
def ForEveryKey (call : Caller) (selector : Value) : Prop :=
  ∀ w, ∃ w', Selector.path call selector w = .ok [] w' ∧ w'.store = w.store

/-- Puts dictionaries around a rule, each one under every key of the next. The outermost one is
given. -/
def nest (call : Caller) (selector : Value) : Nat → NodeId → Build NodeId
  | 0, node => pure node
  | n + 1, node => do
    let outer ← Construction.construct call .dictionary []
    add call outer selector (.node node)
    nest call selector n outer

/-- A rule that does not contain itself, has a document and can be shown. -/
structure Sound (s : Store) (node : NodeId) (d : Value) : Prop where
  whole : s.Whole node
  shown : ∃ text, s.nodeText node = .ok text
  document : s.document node = .ok d

/-- A dictionary that holds nothing but a rule for every key. -/
def wrapping (node : NodeId) : Node :=
  ⟨.object { Construction.builderRule .dictionary [] with additional := some (.node node) },
    .bool true⟩

theorem shownOf_wrapping {plain : NodeId → Except Fault String} {text : String}
    (htext : plain node = .ok text) (inner : NodeId → Except Fault String) :
    Store.shownOf plain inner false (wrapping node).rule
      = .ok (partsText NodeClass.dictionary.name [("additional_properties", text)]) := by
  show (do
    let rest ← shownParts (Value.shown plain inner) [("additional_properties", .node node)]
    return partsText NodeClass.dictionary.name rest) = _
  simp only [shownParts, Value.shown, htext]
  rfl

/-- A new dictionary around a rule has its document one level down. -/
theorem Sound.wrap {s t : Store} {d : Value} (h : Sound s node d) (ht : t.Extends s)
    (hsize : t.size = s.size + 1) (hnew : t.get? s.size = some (wrapping node)) :
    Sound t s.size (everyKey d) := by
  have hagree : s.Agree t node := h.whole.agree ht
  have hrefs : t.references s.size = [node] := Store.references_of_get? hnew
  have hacyclic : t.Acyclic s.size := .of_children fun c hc => by
    rw [hrefs, List.mem_singleton] at hc
    exact hc ▸ hagree.acyclic h.whole.acyclic
  refine ⟨⟨hacyclic, fun x hx => ?_⟩, ?_, ?_⟩
  · cases hx with
    | refl => exact hsize ▸ Nat.lt_succ_self _
    | step hc hx =>
      rw [hrefs, List.mem_singleton] at hc
      exact (h.whole.extends ht).inside x (hc ▸ hx)
  · obtain ⟨text, htext⟩ := h.shown
    have hinner : Store.textReading.read t node false = .ok text := by
      rw [← Store.nodeText_eq, ← htext, Store.nodeText_congr h.whole.acyclic hagree]
    refine ⟨partsText NodeClass.dictionary.name [("additional_properties", text)], ?_⟩
    rw [Store.nodeText_eq, Store.textReading.read_eq hacyclic hnew]
    exact shownOf_wrapping hinner _
  · have hdocument := (Store.document_congr h.whole.acyclic hagree).symm.trans h.document
    rw [Store.document_eq hacyclic hnew]
    show everyKey <$> t.document node = _
    rw [hdocument]
    rfl

theorem nest_step {selector d : Value} (hselector : ForEveryKey call selector)
    (h : Sound w.store node d) : ∃ outer u v,
      Construction.construct call .dictionary [] w = .ok outer u ∧
      add call outer selector (.node node) u = .ok () v ∧ Sound v.store outer (everyKey d) := by
  generalize hu : withBuilder .dictionary [] w = u
  obtain ⟨u', hpath, hstore⟩ := hselector u
  have hres : resolve call selector (.node node) u = .ok ([], node) u' := bind_of_ok hpath
  have hextends : u.store.Extends w.store := hu ▸ Store.extends_alloc w.store _
  obtain ⟨text, htext⟩ := h.shown
  have hshown : u'.store.nodeText node = .ok text := by
    rw [hstore, ← htext, Store.nodeText_congr h.whole.acyclic (h.whole.agree hextends)]
  refine ⟨w.store.size, u, _, hu ▸ (construct_builder call [] w).2,
    (add_nil_eq_ok hres).mpr ⟨text, hshown, rfl⟩, ?_⟩
  have hget : ∀ x, (u'.store.putAdditional w.store.size (.node node)).get? x
      = if x = w.store.size then some (wrapping node) else w.store.get? x := by
    intro x
    rw [hstore, ← hu, withBuilder, Store.putAdditional, Store.get?_modifyObject]
    simp only [Store.get?_alloc, if_pos]
    split <;> rfl
  have hsize : (u'.store.putAdditional w.store.size (.node node)).size = w.store.size + 1 := by
    rw [Store.putAdditional, Store.size_modifyObject, hstore, ← hu]
    exact Store.size_alloc w.store _
  refine h.wrap ⟨hsize ▸ Nat.le_succ _, fun x hx => ?_⟩ hsize ?_
  · rw [hget, if_neg (Nat.ne_of_lt hx)]
  · rw [hget, if_pos rfl]

/-- Dictionaries can be put around a sound rule, and lift its document once each. -/
theorem nest_sound {selector d : Value} (hselector : ForEveryKey call selector) (n : Nat)
    (h : Sound w.store node d) : ∃ top u, nest call selector n node w = .ok top u ∧
      Sound u.store top (everyKey^[n] d) := by
  induction n generalizing node d w with
  | zero => exact ⟨node, w, rfl, h⟩
  | succ n ih =>
    obtain ⟨outer, u, v, hmade, hadd, hsound⟩ := nest_step hselector h
    obtain ⟨top, w', hnest, htop⟩ := ih hsound
    exact ⟨top, w', (bind_of_ok hmade).trans ((bind_of_ok hadd).trans hnest), htop⟩

/-! ## The lift -/

/-- A declared class with one field. -/
def oneField : Workspace :=
  { models := [⟨⟨0, "oracle_models", "M"⟩, [0], [("a", .type (.basic "int"))]⟩] }

/-- The class as the model of a builder. -/
def asModel : Arguments := [(.model, .type (.model ⟨0, "oracle_models", "M"⟩))]

/-- A path and a bound that are given by functions, a name that is not declared, and a rule for every
key. -/
def threeCalls : List (Value × Value) :=
  [(.function 0 (Accessor.chain [.attr "a"]), atLeastTen), (.list 0 [.text "b"], .bool true),
   (.list 0 [], .text "t")]

theorem indifferent_threeCalls : ∀ c ∈ threeCalls,
    IndifferentSelector Build.call id c.1 ∧ IndifferentValue Build.call id c.2 := by
  intro c h
  simp only [threeCalls, List.mem_cons, List.not_mem_nil, or_false] at h
  rcases h with rfl | rfl | rfl
  · exact ⟨indifferent_chain (by decide +kernel) 0,
      indifferent_comparison rfl rfl List.mem_cons_self 0⟩
  · exact ⟨indifferentSelector_of_explicit rfl, indifferentValue_of_explicit rfl (by simp)⟩
  · exact ⟨indifferentSelector_of_explicit rfl, indifferentValue_of_explicit rfl (by simp)⟩

/-- `x >= 1 if b.accepts_properties else None`, of the builder `b` in a variable. -/
def askingKind : Value :=
  .function 0 (.cond (.attr (.const (.ref "b")) "accepts_properties")
    (.compare .ge .arg (.const (.int 1))) (.const .null))

end Builder

end DraftSchema
