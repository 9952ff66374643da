import DraftSchema.Proofs.Growth
import DraftSchema.Proofs.Reading

/-!
# What texts show of rules

A text names the properties of an object and says nothing of the rules that they hold. So it depends
on a store without these rules, in which growth along a path of texts adds no references at all.
-/

namespace DraftSchema

/-- An object rule with nothing under its names. -/
def ObjectRule.bare (r : ObjectRule) : ObjectRule :=
  { r with model := .null, properties := r.properties.keys.map fun k => (k, .null) }

/-- A rule with nothing under the names of properties. -/
def Rule.bare : Rule → Rule
  | .object r => .object r.bare
  | rule => rule

def Node.bare (node : Node) : Node := { node with rule := node.rule.bare }

namespace ObjectRule

theorem keys_bare (r : ObjectRule) : r.bare.properties.keys = r.properties.keys := by
  simp [bare, Entries.keys, Function.comp_def]

/-- What is left of the references of an object rule. -/
theorem mem_references_bare {r : ObjectRule} {c : NodeId} : c ∈ r.bare.references ↔
    c ∈ Value.nodesOf r.properties.keys ∨ c ∈ Value.nodesOf r.required ∨
      c ∈ Value.nodesOf r.additional.toList := by
  have hnames : ∀ names : List Value,
      Value.nodesUnder (names.map fun k => (k, Value.null)) = Value.nodesOf names := by
    intro names
    induction names with
    | nil => rfl
    | cons k names ih =>
      rw [List.map_cons, Value.nodesUnder, ih]
      rfl
  simp only [references, bare, hnames, List.mem_append]

theorem references_bare_sub (r : ObjectRule) {c : NodeId} (h : c ∈ r.bare.references) :
    c ∈ r.references := by
  simp only [references, List.mem_append]
  rcases mem_references_bare.mp h with h | h
  · obtain ⟨k, hk, hc⟩ := Value.mem_nodesOf.mp h
    obtain ⟨e, he, rfl⟩ := List.mem_map.mp hk
    exact .inl (Value.mem_nodesUnder.mpr ⟨e, he, .inl hc⟩)
  · exact .inr h

/-- A name without rules in it adds no references, whatever is put under it. -/
theorem mem_references_bare_setProperty {r : ObjectRule} {name v : Value} (hname : name.nodes = [])
    {c : NodeId} (h : c ∈ (r.setProperty name v).bare.references) : c ∈ r.bare.references := by
  rw [mem_references_bare] at h ⊢
  refine h.imp (fun h => ?_) fun h => h
  obtain ⟨k, hk, hc⟩ := Value.mem_nodesOf.mp h
  rw [setProperty_properties, Entries.keys_set] at hk
  split at hk
  · exact Value.mem_nodesOf.mpr ⟨k, hk, hc⟩
  · rcases List.mem_append.mp hk with hk | hk
    · exact Value.mem_nodesOf.mpr ⟨k, hk, hc⟩
    · rw [List.mem_singleton.mp hk, hname] at hc
      cases hc

theorem mem_references_bare_mark {r : ObjectRule} {flag : Bool} {name : Value}
    (hname : name.nodes = []) {c : NodeId} (h : c ∈ (r.mark flag name).bare.references) :
    c ∈ r.bare.references := by
  rw [mem_references_bare] at h ⊢
  rw [mark_properties, mark_additional, mark_required] at h
  refine h.imp id fun h => h.imp (fun h => ?_) id
  split at h
  · obtain ⟨k, hk, hc⟩ := Value.mem_nodesOf.mp h
    rcases List.mem_append.mp hk with hk | hk
    · exact Value.mem_nodesOf.mpr ⟨k, hk, hc⟩
    · rw [List.mem_singleton.mp hk, hname] at hc
      cases hc
  · exact h

end ObjectRule

theorem Rule.references_bare_sub {rule : Rule} {c : NodeId} (h : c ∈ rule.bare.references) :
    c ∈ rule.references := by
  cases rule with
  | object r => exact r.references_bare_sub h
  | _ => exact h

namespace Store

/-- A store with nothing under the names of properties. -/
def bare (s : Store) : Store := ⟨s.nodes.map Node.bare⟩

variable {s t s' : Store}

theorem get?_bare (s : Store) (id : NodeId) : s.bare.get? id = (s.get? id).map Node.bare :=
  List.getElem?_map

@[simp] theorem size_bare (s : Store) : s.bare.size = s.size := List.length_map _

theorem references_bare_of_get? {id : NodeId} {node : Node} (h : s.get? id = some node) :
    s.bare.references id = node.rule.bare.references := by
  have hbare : s.bare.get? id = some node.bare := by rw [get?_bare, h, Option.map_some]
  rw [references_of_get? hbare]
  rfl

theorem mem_references_of_bare {id c : NodeId} (h : c ∈ s.bare.references id) :
    c ∈ s.references id := by
  have hid := lt_size_of_mem_references h
  rw [size_bare] at hid
  obtain ⟨node, hnode⟩ : ∃ node, s.get? id = some node := ⟨_, List.getElem?_eq_getElem hid⟩
  rw [references_bare_of_get? hnode] at h
  rw [references_of_get? hnode]
  exact Rule.references_bare_sub h

theorem reaches_of_bare {id x : NodeId} (h : s.bare.Reaches id x) : s.Reaches id x := by
  induction h with
  | refl => exact .refl _
  | step hc _ ih => exact .step (mem_references_of_bare hc) ih

theorem Acyclic.bare {id : NodeId} (h : s.Acyclic id) : s.bare.Acyclic id := by
  obtain ⟨n, hn⟩ := h
  refine ⟨n, ?_⟩
  induction n generalizing id with
  | zero => exact hn
  | succ n ih => exact fun c hc => ih (hn c (mem_references_of_bare hc))

/-! ## Texts -/

theorem shownOf_bare (plain inner : NodeId → Except Fault String) (detail : Bool) (rule : Rule) :
    shownOf plain inner detail rule.bare = shownOf plain inner detail rule := by
  cases rule with
  | object r => simp only [Rule.bare, shownOf, r.keys_bare]; rfl
  | _ => rfl

theorem shownWithin_bare (s : Store) (n : Nat) (detail : Bool) (id : NodeId) :
    s.bare.shownWithin n detail id = s.shownWithin n detail id := by
  induction n generalizing detail id with
  | zero => rfl
  | succ n ih =>
    rw [shownWithin, shownWithin, get?_bare]
    cases s.get? id with
    | none => rfl
    | some node =>
      rw [show s.bare.shownWithin n false = s.shownWithin n false from funext (ih false),
        show s.bare.shownWithin n true = s.shownWithin n true from funext (ih true)]
      exact shownOf_bare ..

/-- A text does not depend on the rules that properties hold. -/
theorem nodeText_bare (s : Store) (id : NodeId) : s.bare.nodeText id = s.nodeText id := by
  rw [nodeText, nodeText, size_bare, shownWithin_bare]

/-- Stores that show the same of a rule, and of those that it refers to, show it alike. -/
theorem shownWithin_same {id : NodeId} (hid : s.bare.Acyclic id) (h : s.bare.Agree t.bare id)
    (detail : Bool) :
    s.shownWithin (s.size + 1) detail id = t.shownWithin (t.size + 1) detail id := by
  rw [← shownWithin_bare s, ← shownWithin_bare t, shownWithin_eq, shownWithin_eq, ← size_bare s,
    ← size_bare t]
  exact congrFun (textReading.read_congr hid h) detail

/-- A value is shown alike in stores that show the same of the rules in it. -/
theorem valueText_same (v : Value) (hv : ∀ c ∈ v.nodes, s.bare.Acyclic c)
    (h : ∀ c ∈ v.nodes, s.bare.Agree t.bare c) : s.valueText v = t.valueText v :=
  Value.shown_congr v (fun c hc => shownWithin_same (hv c hc) (h c hc) false)
    fun c hc => shownWithin_same (hv c hc) (h c hc) true

/-- Rules of which the same is shown have the same text, wherever they are, if the stores show the
same of the rules that they refer to. -/
theorem nodeText_same {x y : NodeId} {node : Node} (hx : s.bare.get? x = some node)
    (hy : t.bare.get? y = some node) (hs : s.bare.Acyclic x)
    (h : ∀ c ∈ node.rule.references, s.bare.Agree t.bare c) : s.nodeText x = t.nodeText y := by
  have ht : t.bare.Acyclic y := by
    refine .of_children fun c hc => ?_
    rw [references_of_get? hy] at hc
    refine (h c hc).acyclic (hs.child ?_)
    rw [references_of_get? hx]
    exact hc
  rw [← nodeText_bare s, ← nodeText_bare t, nodeText_eq, nodeText_eq,
    textReading.read_same hx hy hs ht h]

/-! ## Growth -/

section Growth

variable {flag : Bool} {m : NodeId} {id x : NodeId} {path : List Value} {P : Node → Prop}

theorem modifyObject_keeps {f : ObjectRule → ObjectRule}
    (hf : ∀ r required, P ⟨.object r, required⟩ → P ⟨.object (f r), required⟩) {node : Node}
    (hx : s.get? x = some node) (hP : P node) :
    ∃ node', (s.modifyObject id f).get? x = some node' ∧ P node' := by
  rw [get?_modifyObject]
  split
  · rename_i hid
    subst hid
    rw [hx]
    refine ⟨_, rfl, ?_⟩
    obtain ⟨rule, required⟩ := node
    cases rule with
    | object r => exact hf r required hP
    | _ => exact hP
  · exact ⟨node, hx, hP⟩

/-- Growth keeps what is kept of a rule when rules are put under the names of the path and when
these are listed. -/
theorem Grows.keeps (hset : ∀ name ∈ path, ∀ c r required,
      P ⟨.object r, required⟩ → P ⟨.object (r.setProperty name (.node c)), required⟩)
    (hmark : ∀ name ∈ path, ∀ r required,
      P ⟨.object r, required⟩ → P ⟨.object (r.mark flag name), required⟩)
    (h : Grows flag (.node m) s id path s') {node : Node} (hx : s.get? x = some node)
    (hP : P node) : ∃ node', s'.get? x = some node' ∧ P node' := by
  induction h generalizing node with
  | @last s id r name _ =>
    have hname : name ∈ [name] := by simp
    exact modifyObject_keeps (fun r required hP => hmark name hname _ _ (hset name hname m _ _ hP))
      hx hP
  | @more s s₁ s' id c r name rest hr hentered _ _ ih =>
    have hname : name ∈ name :: rest := by simp
    obtain ⟨node₁, hx₁, hP₁⟩ : ∃ node₁, s₁.get? x = some node₁ ∧ P node₁ := by
      cases hentered with
      | there => exact ⟨node, hx, hP⟩
      | made =>
        refine modifyObject_keeps (hset name hname _) ?_ hP
        rw [get?_alloc_lt s _ (lt_size_of_get? hx), hx]
    obtain ⟨node₂, hx₂, hP₂⟩ := modifyObject_keeps (hmark name hname) hx₁ hP₁
    exact ih (fun n hn => hset n (by simp [hn])) (fun n hn => hmark n (by simp [hn])) hx₂ hP₂

/-- Growth along names without rules in them adds no references but those of properties. -/
theorem Grows.references_bare (h : Grows flag (.node m) s id path s')
    (hnames : ∀ name ∈ path, name.nodes = []) (hx : x < s.size) {c : NodeId}
    (hc : c ∈ s'.bare.references x) : c ∈ s.bare.references x := by
  obtain ⟨node, hnode⟩ : ∃ node, s.get? x = some node := ⟨_, List.getElem?_eq_getElem hx⟩
  have hobject : ∀ r : ObjectRule, (Rule.object r).bare.references = r.bare.references :=
    fun _ => rfl
  obtain ⟨node', hnode', hsub⟩ : ∃ node', s'.get? x = some node' ∧
      ∀ d ∈ node'.rule.bare.references, d ∈ node.rule.bare.references := by
    refine h.keeps (fun name hn c r required hP d hd => hP d ?_)
      (fun name hn r required hP d hd => hP d ?_) hnode fun d hd => hd
    · rw [hobject] at hd ⊢
      exact ObjectRule.mem_references_bare_setProperty (hnames name hn) hd
    · rw [hobject] at hd ⊢
      exact ObjectRule.mem_references_bare_mark (hnames name hn) hd
  rw [references_bare_of_get? hnode'] at hc
  rw [references_bare_of_get? hnode]
  exact hsub c hc

/-- Growth has no say in whether a rule is required. -/
theorem Grows.requirement (h : Grows flag (.node m) s id path s') (hx : x < s.size) :
    s'.requirement x = s.requirement x := by
  obtain ⟨node, hnode⟩ : ∃ node, s.get? x = some node := ⟨_, List.getElem?_eq_getElem hx⟩
  obtain ⟨node', hnode', hreq⟩ := h.keeps (P := fun node' => node'.required = node.required)
    (fun _ _ _ _ _ hP => hP) (fun _ _ _ _ hP => hP) hnode rfl
  rw [Store.requirement, Store.requirement, hnode, hnode']
  exact hreq

end Growth

end Store

end DraftSchema
