import DraftSchema.Proofs.Declared
import DraftSchema.Proofs.Listing
import DraftSchema.Proofs.Output
import DraftSchema.Proofs.Placement
import DraftSchema.Proofs.Sharing
import DraftSchema.Proofs.Twin
import DraftSchema.Proofs.Uniform

/-!
# Calls made twice

A call that succeeded can be made again, and then changes nothing that a document says: every object
along its path is there and lists its name already, so all that is put is the rule under the last
name, in the place of one that says the same.
-/

namespace DraftSchema

/-- Setting a key to the value that it has changes nothing. -/
theorem Entries.set_of_get? {es : Entries Value Value} {key v : Value}
    (h : es.get? key = some v) : es.set key v = es := by
  induction es with
  | nil => cases h
  | cons e es ih =>
    obtain ⟨k, w⟩ := e
    rw [get?_cons] at h
    unfold set
    split
    · rename_i hk
      rw [if_pos hk] at h
      cases h
      rfl
    · rename_i hk
      rw [if_neg hk] at h
      rw [ih h]

namespace ObjectRule

/-- Whether a name is listed already where a flag asks for it, and can be looked for. -/
def Lists (r : ObjectRule) (flag : Bool) (name : Value) : Prop :=
  flag = true → r.requires name = true ∧ r.searchable name = true

theorem Lists.mark_eq {r : ObjectRule} {flag : Bool} {name : Value} (h : r.Lists flag name) :
    r.mark flag name = r := by
  cases flag with
  | false => rfl
  | true => rw [mark, if_pos rfl, addRequired, if_pos (h rfl).1]

/-- A name that can be looked for is listed once it is marked. -/
theorem lists_mark {r : ObjectRule} {flag : Bool} {name : Value} (hname : name.isHashable = true)
    (h : flag = true → r.searchable name = true) : (r.mark flag name).Lists flag name := by
  intro hflag
  refine ⟨?_, ?_⟩
  · rw [hflag]
    exact r.requires_mark name
  · rw [Store.searchable_mark r flag name (Store.isOperand_of_isHashable hname)]
    exact h hflag

end ObjectRule

namespace Store

variable {s t s' : Store} {flag : Bool} {id m x : NodeId} {path : List Value} {last : Value}

/-- Only what a change makes of the object rule at an address counts. -/
theorem modifyObject_congr {r : ObjectRule} {f g : ObjectRule → ObjectRule}
    (hr : s.object? id = some r) (h : f r = g r) : s.modifyObject id f = s.modifyObject id g := by
  obtain ⟨required, hget⟩ := object?_eq_some.mp hr
  simp only [modifyObject, hget, h]

theorem modifyObject_same {r : ObjectRule} {f : ObjectRule → ObjectRule}
    (hr : s.object? id = some r) (h : f r = r) : s.modifyObject id f = s := by
  obtain ⟨required, hget⟩ := object?_eq_some.mp hr
  refine ext_get? fun y => ?_
  rw [get?_modifyObject]
  split
  · rename_i hy
    rw [hy, hget, Option.map_some, Node.mapObject, h]
  · rfl

/-! ## Paths that something was put along -/

/-- The rule `m` was put along a path: every object on the way is there and lists its name if the
flag says so, and the one at `x` holds the rule under the last name. -/
inductive Laid (s : Store) (flag : Bool) (m : NodeId) :
    NodeId → List Value → NodeId → Value → Prop
  | last {x : NodeId} {r : ObjectRule} {name : Value} (object : s.object? x = some r)
      (child : r.properties.get? name = some (.node m)) (lists : r.Lists flag name) :
      Laid s flag m x [name] x name
  | more {id c x : NodeId} {r rc : ObjectRule} {name last : Value} {rest : List Value}
      (more : rest ≠ []) (object : s.object? id = some r)
      (child : r.properties.get? name = some (.node c)) (lists : r.Lists flag name)
      (entered : s.object? c = some rc) (accepts : rc.kind.acceptsProperties = true)
      (next : Laid s flag m c rest x last) : Laid s flag m id (name :: rest) x last

/-- Growth leaves its path laid. -/
theorem Grows.laid (h : Grows flag (.node m) s id path s') (ha : s.Acyclic id)
    (hn : ∀ name ∈ path, name.isHashable = true)
    (hl : flag = true → s.listable id path = true) : ∃ x last, s'.Laid flag m id path x last := by
  induction h with
  | @last s id r name hr =>
    have hsearch : flag = true → r.searchable name = true := fun hf => by
      simpa [listable, hr] using hl hf
    refine ⟨id, name, .last (object?_modifyObject_of_some _ hr) ?_
      (ObjectRule.lists_mark (hn name (by simp)) hsearch)⟩
    rw [ObjectRule.mark_properties, ObjectRule.setProperty_properties, Entries.get?_set_self]
  | @more s s₁ s' id c r name rest hr hentered hrest hnext ih =>
    have hname := hn name (by simp)
    have hlist : flag = true → r.searchable name = true ∧ s₁.listable c rest = true := fun hf => by
      simpa [listable_entered hentered hrest hr] using hl hf
    obtain ⟨x, last, hlaid⟩ := ih (hentered.acyclic hr ha flag).1 (fun n hm => hn n (by simp [hm]))
      fun hf => by rw [listable_mark _ _ _ _ _ (isOperand_of_isHashable hname), (hlist hf).2]
    -- the object that was entered still accepts properties when the growth below it is over
    obtain ⟨rc, hrc, haccepts⟩ := hentered.object?_entered hr
    obtain ⟨rc', hrc', hframe⟩ := hnext.object? (object?_mark_of_some flag id name hrc)
    have hkind : rc'.kind.acceptsProperties = true := by
      rw [hframe.kind]
      split
      · rw [ObjectRule.mark_kind, haccepts]
      · exact haccepts
    refine ⟨x, last, ?_⟩
    rcases hnext.object?_of_entered hentered hr ha with ⟨hobj, hchild⟩ | ⟨hobj, -⟩
    · refine .more hrest hobj ?_ (ObjectRule.lists_mark hname fun hf => (hlist hf).1) hrc' hkind hlaid
      rw [ObjectRule.mark_properties]
      exact get?_of_child? hr hchild
    · refine .more hrest hobj ?_ (ObjectRule.lists_mark hname fun hf => (hlist hf).1) hrc' hkind hlaid
      rw [ObjectRule.mark_properties, ObjectRule.setProperty_properties, Entries.get?_set_self]

section Laid

variable (h : s.Laid flag m id path x last)

include h

/-- What holds the rule under the last name. -/
theorem Laid.holder : ∃ r, s.object? x = some r ∧ r.properties.get? last = some (.node m) ∧
    r.Lists flag last := by
  induction h with
  | last hr hchild hlists => exact ⟨_, hr, hchild, hlists⟩
  | more _ _ _ _ _ _ _ ih => exact ih

theorem Laid.reaches : s.Reaches id x := by
  induction h with
  | last => exact .refl _
  | more _ hr hchild _ _ _ _ ih =>
    exact .step (mem_references_of_child? (child?_of_get? hr hchild)) ih

/-- The rule that was put is below where the path starts. -/
theorem Laid.reaches_put : s.Reaches id m := by
  obtain ⟨r, hr, hchild, -⟩ := h.holder
  exact h.reaches.trans (.step (mem_references_of_child? (child?_of_get? hr hchild)) (.refl m))

theorem Laid.extends (ht : t.Extends s) : t.Laid flag m id path x last := by
  have same : ∀ {y r}, s.object? y = some r → t.object? y = some r := fun {y r} hr => by
    rw [object?, ht.same y (lt_size_of_object? hr), ← object?, hr]
  induction h with
  | last hr hchild hlists => exact .last (same hr) hchild hlists
  | more hmore hr hchild hlists hc haccepts _ ih =>
    exact .more hmore (same hr) hchild hlists (same hc) haccepts ih

/-- Nothing is in the way along a path that is laid. -/
theorem Laid.passes (hn : ∀ name ∈ path, name.isHashable = true) : s.Passes id path := by
  induction h with
  | last => exact .last _ _
  | more hmore hr hchild _ hc haccepts _ ih =>
    exact .through hmore (hn _ (by simp)) (child?_of_get? hr hchild) hc haccepts
      (ih fun n hm => hn n (by simp [hm]))

theorem Laid.listable (hflag : flag = true) : s.listable id path = true := by
  induction h with
  | last hr _ hlists => simp [Store.listable, hr, (hlists hflag).2]
  | more hmore hr hchild hlists hc haccepts _ ih =>
    rw [listable_entered (.there (child?_of_get? hr hchild) hc haccepts) hmore hr,
      (hlists hflag).2, ih, Bool.true_and]

/-- Growth along a path that is laid puts a value under its last name and changes nothing else. -/
theorem Laid.grow_eq (v : Value) :
    s.grow flag v id path = s.modifyObject x fun r => r.setProperty last v := by
  induction h with
  | @last x r name hr _ hlists =>
    refine modifyObject_congr hr ?_
    rw [ObjectRule.mark_setProperty, hlists.mark_eq]
  | @more id c x r rc name last rest hmore hr hchild hlists _ _ _ ih =>
    have hmark : s.mark flag id name = s :=
      modifyObject_same (f := fun r => r.mark flag name) hr hlists.mark_eq
    rw [grow_of_enter flag v hmore (enter_of_child (child?_of_get? hr hchild)), hmark, ih]

end Laid

/-! ## The same rule once more -/

/-- In a store `t` the rule `n` says what `m` says in `s`: it is the same one, or one of the same
content that refers to no other. -/
inductive Renewed (s t : Store) (m n : NodeId) : Prop
  | same (eq : n = m)
  | made {node : Node} (old : s.get? m = some node) (new : t.get? n = some node)
      (leaf : ∀ r, node.rule ≠ .object r) (alone : node.rule.references = [])

/-- Changes of object rules do not touch other rules. -/
theorem get?_modifyObject_leaf {y : NodeId} {node : Node} (hy : t.get? y = some node)
    (hleaf : ∀ r, node.rule ≠ .object r) (x : NodeId) (f : ObjectRule → ObjectRule) :
    (t.modifyObject x f).get? y = some node := by
  rw [get?_modifyObject]
  split
  · rename_i hx
    subst hx
    obtain ⟨rule, required⟩ := node
    rw [hy]
    cases rule with
    | object r => exact absurd rfl (hleaf r)
    | _ => rfl
  · exact hy

theorem Renewed.modifyObject {n : NodeId} (h : s.Renewed t m n) (x : NodeId)
    (f : ObjectRule → ObjectRule) : s.Renewed (t.modifyObject x f) m n := by
  cases h with
  | same heq => exact .same heq
  | made hold hnew hleaf halone =>
    exact .made hold (get?_modifyObject_leaf hnew hleaf x f) hleaf halone

section

variable {n : NodeId} (h : s.Renewed t m n) (hm : s.Acyclic m) (hagree : n = m → s.Agree t m)

include h hm hagree

theorem Renewed.acyclic : t.Acyclic n := by
  cases h with
  | same heq =>
    subst heq
    exact (hagree rfl).acyclic hm
  | made _ hnew _ halone =>
    refine .of_children fun c hc => ?_
    rw [references_of_get? hnew, halone] at hc
    cases hc

theorem Renewed.read_eq {β : Type} (R : Reading β) : R.read t n = R.read s m := by
  have hn := h.acyclic hm hagree
  cases h with
  | same heq =>
    subst heq
    exact (R.read_congr hm (hagree rfl)).symm
  | made hold hnew _ halone =>
    refine R.read_same hnew hold hn hm fun c hc => ?_
    rw [halone] at hc
    cases hc

end

theorem Renewed.requirement_eq {n : NodeId} (h : s.Renewed t m n) (ht : t.Extends s)
    (hm : m < s.size) : t.requirement n = s.requirement m := by
  cases h with
  | same heq => rw [heq, Store.requirement, ht.same m hm, Store.requirement]
  | made hold hnew => rw [Store.requirement, Store.requirement, hold, hnew]

/-- Two lists of properties say the same if what one name holds is exchanged for what is paired with
it. -/
theorem moved_set {E : Pairing} {es : Entries Value Value} {name : Value} {m n : NodeId}
    (h : es.get? name = some (.node m)) (hpair : E m n)
    (hinside : ∀ c ∈ Value.nodesUnder es, E c c) : es.Moved E (es.set name (.node n)) := by
  have refl : ∀ e ∈ es, e.1 = e.1 ∧ e.2.Moved E e.2 := fun e he =>
    ⟨rfl, .same fun c hc => hinside c (Value.mem_nodesUnder.mpr ⟨e, he, .inr hc⟩)⟩
  induction es with
  | nil => cases h
  | cons e es ih =>
    obtain ⟨k, v⟩ := e
    rw [Entries.get?_cons] at h
    unfold Entries.set
    split
    · rename_i hk
      rw [if_pos hk] at h
      cases h
      exact .cons ⟨rfl, .node hpair⟩ (List.forall₂_same.mpr fun e he => refl e (by simp [he]))
    · rename_i hk
      rw [if_neg hk] at h
      exact .cons (refl _ (by simp)) (ih h
        (fun c hc => hinside c (by simp [Value.nodesUnder, hc])) fun e he => refl e (by simp [he]))

/-- The store in which a rule is put under a name once more. -/
def renew (t : Store) (x : NodeId) (last : Value) (n : NodeId) : Store :=
  t.modifyObject x fun r => r.setProperty last (.node n)

section Renewed

variable {n : NodeId} (h : s.Laid flag m id path x last) (ht : t.Extends s)

include h ht

theorem Laid.object?_extends : ∃ r, t.object? x = some r ∧ s.object? x = some r ∧
    r.properties.get? last = some (.node m) := by
  obtain ⟨r, hr, hchild, -⟩ := h.holder
  refine ⟨r, ?_, hr, hchild⟩
  rw [object?, ht.same x (lt_size_of_object? hr), ← object?, hr]

/-- Nothing is put in place of what there was if the rule is the same. -/
theorem Laid.renew_same : t.renew x last m = t := by
  obtain ⟨r, hr, -, hchild⟩ := h.object?_extends ht
  refine modifyObject_same hr ?_
  rw [ObjectRule.setProperty, Entries.set_of_get? hchild]

/-- Of the rules that there were the same is shown. -/
theorem Laid.get?_bare_renew {y : NodeId} (hy : y < s.size) :
    (t.renew x last n).bare.get? y = s.bare.get? y := by
  obtain ⟨r, hrt, hr, hchild⟩ := h.object?_extends ht
  rw [get?_bare, get?_bare, renew, get?_modifyObject, ← ht.same y hy]
  split
  · rename_i hyx
    subst hyx
    obtain ⟨required, hget⟩ := object?_eq_some.mp hrt
    have hbare : (r.setProperty last (.node n)).bare = r.bare := by
      simp only [ObjectRule.bare, ObjectRule.setProperty, Entries.keys_set, Entries.has_keys, hchild,
        Option.isSome_some, if_true]
    rw [hget]
    simp only [Option.map_some, Node.mapObject, Node.bare, Rule.bare, hbare]
  · rfl

/-- Names are pointed to as before. -/
theorem Laid.pointer_renew {names : List Value}
    (hnames : ∀ name ∈ names, ∀ c ∈ name.nodes, s.Whole c) :
    (t.renew x last n).pointer names = s.pointer names := by
  have hshown : ∀ name ∈ names, (t.renew x last n).valueText name = s.valueText name :=
    fun name hname => (valueText_same name (fun c hc => (hnames name hname c hc).acyclic.bare)
      fun c hc y hy => (h.get?_bare_renew ht
        ((hnames name hname c hc).inside y (reaches_of_bare hy))).symm).symm
  rw [pointer, pointer, mapM_congr names hshown]

variable (hid : s.Whole id) (hsame : s.Renewed t m n)

include hid hsame

/-- The text of the rule that is put once more is what it was. -/
theorem Laid.nodeText_renew : (t.renew x last n).nodeText n = s.nodeText m := by
  have hm := hid.reaches h.reaches_put
  have hrenewed : s.Renewed (t.renew x last n) m n := hsame.modifyObject x _
  rw [nodeText_eq, nodeText_eq, hrenewed.read_eq hm.acyclic ?_ textReading]
  rintro rfl
  rw [h.renew_same ht]
  exact hm.agree ht

/-- Putting a rule once more under a path that it was put along changes no document. -/
theorem Laid.document_renew (d : Value) :
    (t.renew x last n).document id = .ok d ↔ s.document id = .ok d := by
  obtain ⟨r, hrt, hr, hchild⟩ := h.object?_extends ht
  obtain ⟨required, hget⟩ := object?_eq_some.mp hr
  -- the rules below the builder are paired with themselves, and what was put with what is put now
  let E : Pairing := fun a b => s.Reaches id a ∧ a = b ∨ a = m ∧ b = n
  have below : ∀ {y node}, s.Reaches id y → s.get? y = some node → ∀ c ∈ node.rule.references,
      E c c := fun hy hnode c hc =>
    .inl ⟨hy.trans (.step (references_of_get? hnode ▸ hc) (.refl c)), rfl⟩
  have self : ∀ y, s.Reaches id y → ∃ node node', s.get? y = some node ∧
      (t.renew x last n).get? y = some node' ∧ node.required = node'.required ∧
        node.rule.Moved E node'.rule := by
    intro y hy
    rw [renew, get?_modifyObject, ht.same x (lt_size_of_get? hget), hget]
    by_cases hyx : y = x
    · subst hyx
      rw [if_pos rfl]
      refine ⟨_, _, hget, rfl, rfl, .object ⟨?_, rfl, rfl, .inl rfl, fun c hc => ?_⟩⟩
      · exact moved_set hchild (.inr ⟨rfl, rfl⟩) fun c hc =>
          below hy hget c (List.mem_append_right _ (List.mem_append_left _ hc))
      · have hc : c ∈ (Rule.object r).bare.references := hc
        exact below hy hget c (Rule.references_bare_sub hc)
    · obtain ⟨node, hnode⟩ : ∃ node, s.get? y = some node :=
        ⟨_, List.getElem?_eq_getElem (hid.inside y hy)⟩
      rw [if_neg hyx, ht.same y (hid.inside y hy)]
      exact ⟨node, node, hnode, hnode, rfl, .refl (below hy hnode)⟩
  have hmatch : s.Matches E (t.renew x last n) := by
    rintro a b (⟨ha, rfl⟩ | ⟨rfl, rfl⟩)
    · exact self a ha
    · cases hsame.modifyObject x _ with
      | same heq =>
        subst heq
        exact self _ h.reaches_put
      | @made node hold hnew hleaf halone =>
        refine ⟨node, node, hold, hnew, rfl, .other hleaf fun c hc => ?_⟩
        rw [halone] at hc
        cases hc
  have hroot : E id id := .inl ⟨.refl id, rfl⟩
  exact ⟨hmatch.symm.document hroot, hmatch.document hroot⟩

end Renewed

/-! ## Rules for every key -/

/-- The document of an object rule depends on those of its properties and of its rule for every
key. -/
theorem documentOf_additional {f g : NodeId → Except Fault Value} {m n : NodeId}
    (kind : ObjectKind) (model : Value) {properties : Entries Value Value} (required : List Value)
    (hproperties : ∀ c ∈ Value.nodesUnder properties, s.get? c = t.get? c ∧ f c = g c)
    (hadditional : f m = g n) :
    s.documentOf f (.object ⟨kind, model, properties, required, some (.node m)⟩)
      = t.documentOf g (.object ⟨kind, model, properties, required, some (.node n)⟩) := by
  have hobject : s.objectDocument f ⟨kind, model, properties, required, some (.node m)⟩
      = t.objectDocument g ⟨kind, model, properties, required, some (.node n)⟩ := by
    simp only [objectDocument, additionalDocument, hadditional,
      propertyDocuments_congr properties hproperties]
    rfl
  have hschema : s.schemaDocument f ⟨kind, model, properties, required, some (.node m)⟩
      = t.schemaDocument g ⟨kind, model, properties, required, some (.node n)⟩ := by
    cases properties with
    | nil => exact hadditional
    | cons => exact hobject
  cases kind <;> simp only [documentOf, hobject, hschema]

/-- Setting a rule for every key once more changes no document. -/
theorem document_putAdditional {n : NodeId} {r : ObjectRule} (hr : s.object? id = some r)
    (hput : r.additional = some (.node m)) (hid : s.Whole id) (ht : t.Extends s)
    (hsame : s.Renewed t m n) : (t.putAdditional id (.node n)).document id = s.document id := by
  generalize hu : t.putAdditional id (.node n) = u
  obtain ⟨required, hget⟩ := object?_eq_some.mp hr
  obtain ⟨kind, model, properties, listed, additional⟩ := r
  obtain rfl : additional = some (.node m) := hput
  have hnew : u.get? id
      = some ⟨.object ⟨kind, model, properties, listed, some (.node n)⟩, required⟩ := by
    rw [← hu, putAdditional, get?_modifyObject, if_pos rfl, ht.same id (lt_size_of_get? hget), hget]
    rfl
  have hrefs : ∀ {v : Value} {c : NodeId},
      c ∈ (Rule.object ⟨kind, model, properties, listed, some v⟩).references ↔
        (c ∈ Value.nodesUnder properties ∨ c ∈ Value.nodesOf listed) ∨ c ∈ v.nodes := by
    intro v c
    simp [Rule.references, Rule.parts, ObjectRule.references, Value.nodesOf, or_assoc]
  have hmem : ∀ {c}, (c ∈ Value.nodesUnder properties ∨ c ∈ Value.nodesOf listed) ∨ c = m →
      c ∈ s.references id := fun {c} hc => by
    rw [references_of_get? hget]
    exact hrefs.mpr (hc.imp_right fun hc => by simp [Value.nodes, hc])
  -- what the rule refers to does not lead back to it, and so is not touched
  have hagree : ∀ c ∈ s.references id, s.Agree u c := by
    intro c hc y hy
    have hne : id ≠ y := by
      rintro rfl
      exact hid.acyclic.not_reaches hc hy
    rw [← hu, putAdditional, get?_modifyObject_ne t _ hne, ht.same y (hid.inside y (.step hc hy))]
  have hm := hid.acyclic.child (hmem (.inr rfl))
  have hrenewed : s.Renewed u m n := hu ▸ hsame.modifyObject id _
  have hmagree : n = m → s.Agree u m := fun _ => hagree m (hmem (.inr rfl))
  have hacyclic : u.Acyclic id := by
    refine .of_children fun c hc => ?_
    rw [references_of_get? hnew] at hc
    rcases hrefs.mp hc with hc | hc
    · exact (hagree c (hmem (.inl hc))).acyclic (hid.acyclic.child (hmem (.inl hc)))
    · cases List.mem_singleton.mp hc
      exact hrenewed.acyclic hm hmagree
  rw [document_eq hacyclic hnew, document_eq hid.acyclic hget]
  refine (documentOf_additional kind model listed (fun c hc => ?_) ?_).symm
  · have hc := hmem (.inl (.inl hc))
    exact ⟨(hagree c hc).self, document_congr (hid.acyclic.child hc) (hagree c hc)⟩
  · have hread := hrenewed.read_eq hm hmagree documentReading
    rw [document, document, documentWithin_eq, documentWithin_eq]
    exact hread.symm

end Store

namespace Builder

open Build Store

variable {call : Caller} {id m n : NodeId} {selector value : Value} {path : List Value}
  {w w₁ w₂ w' : Workspace}

/-- In the workspace `w` a selector and a value stand for the path that they once stood for, and for
a rule that says what `m` said in the store `s`. The functions among the two leave alone the rules
that are there and the declared classes. -/
structure StandsAgain (call : Caller) (selector value : Value) (path : List Value) (m : NodeId)
    (s : Store) (w w' : Workspace) (n : NodeId) : Prop where
  resolved : resolve call selector value w = .ok (path, n) w'
  kept : w'.store.Extends w.store
  models : w'.models = w.models
  content : n = m ∨ w'.store.get? n = s.get? m

/-- A call of which selector and value stand for the same everywhere stands again for what it stood
for, whenever it is made. -/
theorem standsAgain_of_uniform (hs : (Selector.path call selector).Uniform)
    (hv : (Construction.ruleOf call .pattern value).Uniform)
    (hres : resolve call selector value w = .ok (path, m) w₁) (t : Workspace) :
    ∃ w₂ n, StandsAgain call selector value path m w₁.store t w₂ n := by
  rcases resolve_again hs hv hres with hagain | ⟨rule, -, hagain⟩
  · obtain ⟨next, ht⟩ := hagain t
    exact ⟨_, m, ht, .refl _, rfl, .inl rfl⟩
  · obtain ⟨next, hw⟩ := hagain w
    obtain ⟨next', ht⟩ := hagain t
    cases hres.symm.trans hw
    refine ⟨_, _, ht, extends_alloc _ _, rfl, .inr ?_⟩
    exact (get?_alloc_self t.store _).trans (get?_alloc_self w.store _).symm

/-- A call stands for a rule that is given, or for a new one that refers to no other. -/
theorem given_or_made (hres : resolve call selector value w = .ok (path, m) w₁) :
    value = .node m ∨ ∃ node, w₁.store.get? m = some node ∧ (∀ r, node.rule ≠ .object r) ∧
      node.rule.references = [] := by
  by_cases hnode : ∃ given, value = .node given
  · obtain ⟨given, rfl⟩ := hnode
    exact .inl (by rw [resolve_node hres])
  · obtain ⟨found, w₂, -, hrest⟩ := bind_eq_ok.mp hres
    obtain ⟨made, w₃, hmade, hpure⟩ := bind_eq_ok.mp hrest
    cases hpure
    unfold Construction.compile at hmade
    split at hmade
    · exact absurd ⟨_, rfl⟩ hnode
    · obtain ⟨rule, w₄, hrule, halloc⟩ := bind_eq_ok.mp hmade
      cases halloc
      refine .inr ⟨_, get?_alloc_self w₄.store _, fun r hr => ?_,
        Construction.references_of_ruleOf hrule⟩
      subst hr
      exact Construction.ruleOf_ne_object hrule

/-- A call stands again for the rule that it stood for, as it is once the call was made. -/
theorem StandsAgain.renewed {s : Store} (hres : resolve call selector value w = .ok (path, m) w₁)
    (hagain : StandsAgain call selector value path m w₁.store w' w₂ n)
    (hleaf : ∀ node, w₁.store.get? m = some node → (∀ r, node.rule ≠ .object r) →
      s.get? m = some node) : s.Renewed w₂.store m n := by
  rcases hagain.content with heq | hcontent
  · exact .same heq
  · rcases given_or_made hres with rfl | ⟨node, hnode, hobject, halone⟩
    · exact .same (resolve_node hagain.resolved)
    · exact .made (hleaf node hnode hobject) (hcontent.trans hnode) hobject halone

section Again

variable (hres : resolve call selector value w = .ok (path, m) w₁) (hm : m < w₁.store.size)
  (hbuilder : isBuilder w₁.store id = true) (hadd : add call id selector value w = .ok () w')
  (hid : w'.store.Whole id)
  (hagain : StandsAgain call selector value path m w₁.store w' w₂ n)

include hres hbuilder hadd hid hagain

/-- A rule for every key can be set once more, which changes no document. -/
theorem add_additional_again (hp : path = []) : ∃ w'', add call id selector value w' = .ok () w'' ∧
    w''.store.document id = w'.store.document id := by
  subst hp
  obtain ⟨shown, htext, rfl⟩ := (add_nil_eq_ok hres).mp hadd
  obtain ⟨r, hr, -⟩ := object?_of_isBuilder hbuilder
  have hobj : (w₁.store.putAdditional id (.node m)).object? id
      = some { r with additional := some (.node m) } := object?_modifyObject_of_some _ hr
  obtain ⟨required, hget⟩ := object?_eq_some.mp hobj
  have hrenewed : (w₁.store.putAdditional id (.node m)).Renewed w₂.store m n :=
    hagain.renewed hres fun _ hnode hleaf => get?_modifyObject_leaf hnode hleaf id _
  -- the rule is below the builder and so as it was before it was set
  have hmem : m ∈ (w₁.store.putAdditional id (.node m)).references id := by
    rw [references_of_get? hget]
    simp [Rule.references, ObjectRule.references, Value.nodesOf, Value.nodes]
  have hwhole := hid.child hmem
  have hold : (w₁.store.putAdditional id (.node m)).Agree w₁.store m := fun y hy =>
    get?_modifyObject_ne _ _ fun hne => hid.acyclic.not_reaches hmem (hne ▸ hy)
  have hshown : w₂.store.nodeText n = .ok shown := by
    rw [← htext, nodeText_eq, hrenewed.read_eq hwhole.acyclic (fun _ => hwhole.agree hagain.kept),
      ← nodeText_eq]
    exact nodeText_congr hwhole.acyclic hold
  exact ⟨_, (add_nil_eq_ok hagain.resolved).mpr ⟨shown, hshown, rfl⟩,
    document_putAdditional hobj rfl hid hagain.kept hrenewed⟩

include hm

/-- A rule can be put once more under a path, which changes no document. -/
theorem add_path_again (hp : path ≠ []) (hacyclic : w₁.store.Acyclic id)
    (hnames : ∀ name ∈ path, ∀ c ∈ name.nodes, w'.store.Whole c) :
    ∃ w'', add call id selector value w' = .ok () w'' ∧
      ∀ d, w''.store.document id = .ok d ↔ w'.store.document id = .ok d := by
  obtain ⟨s, shown, pointer, hcheck, hclear, hput, htext, hpoint, rfl⟩ :=
    (add_path_eq_ok hres hp).mp hadd
  obtain ⟨r, hr, -⟩ := object?_of_isBuilder hbuilder
  have hn := isHashable_of_put hput
  have hpasses := (conflict?_eq_none_iff hp).mp hclear
  obtain ⟨b, hb, hlist, hs⟩ := (put_eq_ok_iff hpasses hn hr).mp hput
  have hgrows : Grows b (.node m) w₁.store id path s := hs ▸ grows_grow b _ hpasses hn hr
  obtain ⟨x, last, hlaid⟩ := hgrows.laid hacyclic hn hlist
  have hrenewed : s.Renewed w₂.store m n := hagain.renewed hres fun node hnode hleaf => by
    obtain ⟨node', hnode', rfl⟩ := hgrows.keeps (P := fun node' => node' = node)
      (fun _ _ _ r _ heq => absurd (congrArg Node.rule heq).symm (hleaf r))
      (fun _ _ r _ heq => absurd (congrArg Node.rule heq).symm (hleaf r)) hnode rfl
    exact hnode'
  -- the model of the builder is the same, and so is the flag of the rule
  obtain ⟨r', hr', hframe⟩ := hgrows.object? hr
  have hr₂ : w₂.store.object? id = some r' := by
    rw [object?, hagain.kept.same id (lt_size_of_object? hr'), ← object?, hr']
  have hmodels : w₂.models = w₁.models := hagain.models
  have hcheck' : checkModel call id path w₂ = .ok () w₂ := by
    refine checkModel_congr hmodels ?_ hcheck
    rw [modelOf, modelOf, hr₂, hr]
    exact hframe.model
  have hflag : w₂.store.requirement n = w₁.store.requirement m :=
    (hrenewed.requirement_eq hagain.kept (hid.inside m hlaid.reaches_put)).trans
      (hgrows.requirement hm)
  have hlaid₂ := hlaid.extends hagain.kept
  have hput' : w₂.store.put id path (w₂.store.requirement n) (.node n)
      = (w₂.store.renew x last n, .ok ()) :=
    (put_eq_ok_iff (hlaid₂.passes hn) hn hr₂).mpr
      ⟨b, hflag ▸ hb, fun hflag => hlaid₂.listable hflag, (hlaid₂.grow_eq _).symm⟩
  exact ⟨_, (add_path_eq_ok hagain.resolved hp).mpr ⟨_, shown, pointer, hcheck',
      (conflict?_eq_none_iff hp).mpr (hlaid₂.passes hn), hput',
      (hlaid.nodeText_renew hagain.kept hid hrenewed).trans htext,
      (hlaid.pointer_renew hagain.kept hnames).trans hpoint, rfl⟩,
    hlaid.document_renew hagain.kept hid hrenewed⟩

end Again

/-- Repeating a call changes nothing. A call that succeeded and left the builder's rules acyclic can
be made again right away, if its functions stand for the same then; and the builder's document stays
the same, to the order of its keys and of the required names. -/
theorem add_again (hres : resolve call selector value w = .ok (path, m) w₁)
    (hm : m < w₁.store.size) (hbuilder : isBuilder w₁.store id = true)
    (hacyclic : w₁.store.Acyclic id) (hadd : add call id selector value w = .ok () w')
    (hid : w'.store.Whole id) (hnames : ∀ name ∈ path, ∀ c ∈ name.nodes, w'.store.Whole c)
    (hagain : StandsAgain call selector value path m w₁.store w' w₂ n) :
    ∃ w'', add call id selector value w' = .ok () w'' ∧
      ∀ d, w''.store.document id = .ok d ↔ w'.store.document id = .ok d := by
  by_cases hp : path = []
  · obtain ⟨w'', hadd', hdocument⟩ := add_additional_again hres hbuilder hadd hid hagain hp
    exact ⟨w'', hadd', fun d => by rw [hdocument]⟩
  · exact add_path_again hres hm hbuilder hadd hid hagain hp hacyclic hnames

/-- `x >= 10`, put by its builder under the path `m.a.b`. -/
def nestedFloor : Build Unit :=
  add Build.call 0 (.function 1 (Accessor.chain [.attr "a", .attr "b"]))
    (.function 0 (.compare .ge .arg (.const (.int 10))))

/-- A predicate may be put twice under a path that a function accesses. There is a document. -/
theorem add_again_nested : ∃ w' w'' d, nestedFloor alone = .ok () w' ∧
    nestedFloor w' = .ok () w'' ∧ w'.store.document 0 = .ok d ∧ w''.store.document 0 = .ok d := by
  have hres : resolve Build.call (.function 1 (Accessor.chain [.attr "a", .attr "b"]))
      (.function 0 (.compare .ge .arg (.const (.int 10)))) alone
        = .ok ([.text "a", .text "b"], 1) _ := rfl
  have hadd : nestedFloor alone = .ok () (nestedFloor.after alone) := rfl
  have hwhole : (nestedFloor.after alone).store.Whole 0 :=
    Store.Closed.whole (by unfold Store.Closed; decide)
      (Store.acyclic_of_rank (fun x => if x = 0 then 2 else if x = 2 then 1 else 0) (by decide) 0)
      (by decide)
  obtain ⟨d, hd⟩ : ∃ d, (nestedFloor.after alone).store.document 0 = .ok d := ⟨_, rfl⟩
  obtain ⟨w₂, n, hagain⟩ := standsAgain_of_uniform (Spells.function 1 rfl (by decide +kernel)).uniform
    (Construction.uniform_ruleOf_of_spelling rfl rfl List.mem_cons_self 0) hres
    (nestedFloor.after alone)
  obtain ⟨w'', hadd', hsame⟩ := add_again hres (by decide) rfl
    (Store.acyclic_of_rank (fun _ => 0) (by decide) 0) hadd hwhole (by simp [Value.nodes]) hagain
  exact ⟨_, w'', d, hadd, hadd', hd, (hsame d).mpr hd⟩

/-- `x >= len(b.properties)`, of the builder `b` in a variable. -/
def counting : Value :=
  .function 0 (.compare .ge .arg (.length (.attr (.const (.ref "b")) "properties")))

/-- A predicate may look at the builder, where it finds one more name the second time. -/
theorem add_again_fails : ∃ w' w'', alone.store.Acyclic 0 ∧
    add Build.call 0 (.list 0 [.text "x"]) counting alone = .ok () w' ∧ w'.store.Acyclic 0 ∧
    add Build.call 0 (.list 0 [.text "x"]) counting w' = .ok () w'' ∧
    ∃ d d', w'.store.document 0 = .ok d ∧ w''.store.document 0 = .ok d' ∧ d ≠ d' := by
  have hadd : add Build.call 0 (.list 0 [.text "x"]) counting alone
      = .ok () ((add Build.call 0 (.list 0 [.text "x"]) counting).after alone) :=
    ok_of_result (by decide +kernel)
  refine ⟨_, _, Store.acyclic_of_rank (fun _ => 0) (by decide) 0, hadd,
    Store.acyclic_of_rank (fun x => if x = 0 then 1 else 0) (by decide +kernel) 0,
    ok_of_result (by decide +kernel), documents_differ (by decide +kernel)⟩

end Builder

end DraftSchema
