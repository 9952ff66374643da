import DraftSchema.Proofs.Document
import DraftSchema.Proofs.NodeText

/-!
# Stores that match under a pairing

Two stores match when some rules of one are paired with rules of the other that say the same: the
rules under equal properties are paired again, and everything else that they refer to is paired with
itself. Paired rules have the same documents, and the same paths can be gone along from them. Growth
along a path from one of them is followed by growth along it from the other, after which the stores
match again, with the objects that were made paired as well.
-/

namespace DraftSchema

/-- Pairs of rules of two stores. -/
abbrev Pairing := NodeId → NodeId → Prop

/-- A pairing with one more pair. -/
def Pairing.add (E : Pairing) (x y : NodeId) : Pairing := fun a b => E a b ∨ a = x ∧ b = y

/-! ## Rules that say the same -/

section Moved

variable (E : Pairing)

/-- What two properties hold is paired, or the same throughout. -/
inductive Value.Moved : Value → Value → Prop
  | same {v : Value} (inside : ∀ c ∈ v.nodes, E c c) : Moved v v
  | node {a b : NodeId} (pair : E a b) : Moved (.node a) (.node b)

/-- Two lists of properties have the same names, and what these hold has moved. -/
abbrev Entries.Moved (es es' : Entries Value Value) : Prop :=
  List.Forall₂ (fun e e' => e.1 = e'.1 ∧ e.2.Moved E e'.2) es es'

/-- Two object rules say the same, the rules under their names being paired. The kind of an object
counts only if it is written otherwise for it. -/
structure ObjectRule.Moved (r r' : ObjectRule) : Prop where
  properties : r.properties.Moved E r'.properties
  required : r.required = r'.required
  additional : r.additional = r'.additional
  kind : r.kind = r'.kind ∨ r.additional = none ∧
    r.kind.acceptsProperties = true ∧ r'.kind.acceptsProperties = true
  inside : ∀ c ∈ r.bare.references, E c c

/-- Two rules say the same. -/
inductive Rule.Moved : Rule → Rule → Prop
  | object {r r' : ObjectRule} (moved : r.Moved E r') : Moved (.object r) (.object r')
  | other {rule : Rule} (different : ∀ r, rule ≠ .object r)
      (inside : ∀ c ∈ rule.references, E c c) : Moved rule rule

/-- Paired rules are there and say the same. -/
def Store.Matches (s t : Store) : Prop := ∀ x y, E x y → ∃ node node',
  s.get? x = some node ∧ t.get? y = some node' ∧ node.required = node'.required ∧
    node.rule.Moved E node'.rule

end Moved

variable {E E' : Pairing}

theorem Value.Moved.mono {v v' : Value} (h : v.Moved E v') (hE : ∀ a b, E a b → E' a b) :
    v.Moved E' v' := by
  cases h with
  | same inside => exact .same fun c hc => hE c c (inside c hc)
  | node pair => exact .node (hE _ _ pair)

/-- Entries that are related one by one under the same names have the same names. -/
theorem Entries.keys_eq_of_forall₂ {R : Value → Value → Prop} {es es' : Entries Value Value}
    (h : List.Forall₂ (fun e e' => e.1 = e'.1 ∧ R e.2 e'.2) es es') : es.keys = es'.keys := by
  induction h with
  | nil => rfl
  | cons he _ ih => rw [Entries.keys_cons, Entries.keys_cons, ih, he.1]

namespace Entries.Moved

variable {es es' : Entries Value Value}

theorem keys (h : es.Moved E es') : es.keys = es'.keys := keys_eq_of_forall₂ h

/-- Under a name either both hold nothing, or what they hold has moved. -/
theorem get? (h : es.Moved E es') (name : Value) :
    es.get? name = none ∧ es'.get? name = none ∨
      ∃ v v', es.get? name = some v ∧ es'.get? name = some v' ∧ v.Moved E v' := by
  induction h with
  | nil => exact .inl ⟨rfl, rfl⟩
  | @cons e e' es es' he _ ih =>
    obtain ⟨k, v⟩ := e
    obtain ⟨k', v'⟩ := e'
    obtain ⟨rfl, hv⟩ := he
    rw [Entries.get?_cons, Entries.get?_cons]
    split
    · exact .inr ⟨v, v', rfl, rfl, hv⟩
    · exact ih

theorem set (h : es.Moved E es') (name : Value) {v v' : Value} (hv : v.Moved E v') :
    (es.set name v).Moved E (es'.set name v') := by
  induction h with
  | nil => exact .cons ⟨rfl, hv⟩ .nil
  | @cons e e' es es' he hrest ih =>
    obtain ⟨k, u⟩ := e
    obtain ⟨k', u'⟩ := e'
    obtain ⟨rfl, hu⟩ := he
    unfold Entries.set
    split
    · exact .cons ⟨rfl, hv⟩ hrest
    · exact .cons ⟨rfl, hu⟩ ih

end Entries.Moved

namespace ObjectRule.Moved

variable {r r' : ObjectRule} {name : Value}

theorem mono (h : r.Moved E r') (hE : ∀ a b, E a b → E' a b) : r.Moved E' r' where
  properties := h.properties.imp fun _ _ he => ⟨he.1, he.2.mono hE⟩
  required := h.required
  additional := h.additional
  kind := h.kind
  inside c hc := hE c c (h.inside c hc)

theorem accepts (h : r.Moved E r') : r.kind.acceptsProperties = r'.kind.acceptsProperties := by
  rcases h.kind with h | ⟨-, h, h'⟩
  · rw [h]
  · rw [h, h']

theorem searchable (h : r.Moved E r') (name : Value) : r.searchable name = r'.searchable name := by
  rw [ObjectRule.searchable, ObjectRule.searchable, h.required]

theorem setProperty (h : r.Moved E r') (hname : name.nodes = []) {v v' : Value}
    (hv : v.Moved E v') : (r.setProperty name v).Moved E (r'.setProperty name v') where
  properties := h.properties.set name hv
  required := h.required
  additional := h.additional
  kind := h.kind
  inside c hc := h.inside c (mem_references_bare_setProperty hname hc)

theorem mark (h : r.Moved E r') (flag : Bool) (hname : name.nodes = []) :
    (r.mark flag name).Moved E (r'.mark flag name) where
  properties := by
    rw [mark_properties, mark_properties]
    exact h.properties
  required := by rw [mark_required, mark_required, requires, requires, h.required]
  additional := by rw [mark_additional, mark_additional, h.additional]
  kind := by
    rw [mark_kind, mark_kind, mark_additional]
    exact h.kind
  inside c hc := h.inside c (mem_references_bare_mark hname hc)

end ObjectRule.Moved

theorem Rule.Moved.mono {rule rule' : Rule} (h : rule.Moved E rule')
    (hE : ∀ a b, E a b → E' a b) : rule.Moved E' rule' := by
  cases h with
  | object moved => exact .object (moved.mono hE)
  | other different inside => exact .other different fun c hc => hE c c (inside c hc)

/-! ### The same rule -/

/-- A rule says the same as itself where all that it refers to is paired with itself. -/
theorem Rule.Moved.refl {rule : Rule} (h : ∀ c ∈ rule.references, E c c) : rule.Moved E rule := by
  cases rule with
  | object r =>
    refine .object ⟨?_, rfl, rfl, .inl rfl, fun c hc => h c (r.references_bare_sub hc)⟩
    refine List.forall₂_same.mpr fun e he => ⟨rfl, .same fun c hc => ?_⟩
    have hmem : c ∈ r.references :=
      List.mem_append_left _ (Value.mem_nodesUnder.mpr ⟨e, he, .inr hc⟩)
    exact h c hmem
  | _ => exact .other (fun _ heq => nomatch heq) h

/-! ### The other way round -/

theorem Value.Moved.symm {v v' : Value} (h : v.Moved E v') : v'.Moved (fun a b => E b a) v := by
  cases h with
  | same inside => exact .same inside
  | node pair => exact .node pair

theorem Entries.Moved.symm {es es' : Entries Value Value} (h : es.Moved E es') :
    es'.Moved (fun a b => E b a) es :=
  (List.Forall₂.flip h).imp fun _ _ he => ⟨he.1.symm, he.2.symm⟩

theorem ObjectRule.Moved.symm {r r' : ObjectRule} (h : r.Moved E r') :
    r'.Moved (fun a b => E b a) r where
  properties := h.properties.symm
  required := h.required.symm
  additional := h.additional.symm
  kind := h.kind.imp Eq.symm fun ⟨hadditional, haccepts, haccepts'⟩ =>
    ⟨h.additional ▸ hadditional, haccepts', haccepts⟩
  inside c hc := by
    rw [mem_references_bare, ← h.properties.keys, ← h.required, ← h.additional] at hc
    exact h.inside c (mem_references_bare.mpr hc)

theorem Rule.Moved.symm {rule rule' : Rule} (h : rule.Moved E rule') :
    rule'.Moved (fun a b => E b a) rule := by
  cases h with
  | object moved => exact .object moved.symm
  | other different inside => exact .other different inside

/-! ### What is shown -/

/-- Rules that say the same and are of the same class show the same. -/
theorem Rule.Moved.bare_eq {rule rule' : Rule} (h : rule.Moved E rule')
    (hclass : rule.nodeClass = rule'.nodeClass) : rule.bare = rule'.bare := by
  cases h with
  | object moved =>
    rename_i r r'
    have hkind : r.kind = r'.kind := by
      simp only [nodeClass] at hclass
      cases hr : r.kind <;> cases hr' : r'.kind <;>
        simp [hr, hr', ObjectKind.nodeClass] at hclass ⊢
    simp only [bare, ObjectRule.bare, moved.properties.keys, moved.required, moved.additional,
      hkind]
  | other => rfl

theorem Rule.Moved.inside {rule rule' : Rule} (h : rule.Moved E rule') {c : NodeId}
    (hc : c ∈ rule.bare.references) : E c c := by
  cases h with
  | object moved => exact moved.inside c hc
  | other _ inside => exact inside c (Rule.references_bare_sub hc)

namespace Store

variable {s t s' t' : Store} {root x y a b c m m' : NodeId} {name : Value} {path : List Value}

/-! ## Documents -/

section Document

variable {f g : NodeId → Except Fault Value}

/-- The document of a rule depends on the documents of the rules that it refers to. -/
theorem documentOf_of_references {rule : Rule} {d : Value}
    (h : ∀ c ∈ rule.references, ∀ d, f c = .ok d → g c = .ok d)
    (hd : s.documentOf f rule = .ok d) : s.documentOf g rule = .ok d := by
  -- what `f` gives for other rules does not count, so it may as well fail there
  have hrestrict : s.documentOf f rule
      = s.documentOf (fun c => if c ∈ rule.references then f c else .error .tooDeep) rule :=
    documentOf_congr rule fun c hc => ⟨rfl, by rw [if_pos hc]⟩
  rw [hrestrict] at hd
  refine documentOf_mono (fun c d hc => ?_) hd
  split at hc
  · exact h c ‹_› d hc
  · cases hc

theorem propertyDocuments_moved {es es' ds : Entries Value Value} (h : es.Moved E es')
    (hfg : ∀ a b, E a b → ∀ d, f a = .ok d → g b = .ok d)
    (hd : s.propertyDocuments f es = .ok ds) : t.propertyDocuments g es' = .ok ds := by
  induction h generalizing ds with
  | nil => exact hd
  | @cons e e' es es' he _ ih =>
    obtain ⟨k, v⟩ := e
    obtain ⟨k', v'⟩ := e'
    obtain ⟨rfl, hv⟩ := he
    obtain ⟨d, hfirst, hd⟩ := except_bind_eq_ok.mp hd
    obtain ⟨rest, hrest, hd⟩ := except_bind_eq_ok.mp hd
    cases hd
    obtain ⟨c, rfl, hc⟩ := memberDocument_eq_ok.mp hfirst
    obtain ⟨c', rfl, hpair⟩ : ∃ c', v' = .node c' ∧ E c c' := by
      cases hv with
      | same inside => exact ⟨c, rfl, inside c (by simp [Value.nodes])⟩
      | node pair => exact ⟨_, rfl, pair⟩
    exact except_bind_eq_ok.mpr ⟨d, memberDocument_eq_ok.mpr ⟨c', rfl, hfg c c' hpair d hc⟩,
      except_bind_eq_ok.mpr ⟨rest, ih hrest, rfl⟩⟩

theorem objectDocument_moved {r r' : ObjectRule} {d : Value} (h : r.Moved E r')
    (hfg : ∀ a b, E a b → ∀ d, f a = .ok d → g b = .ok d)
    (hd : s.objectDocument f r = .ok d) : t.objectDocument g r' = .ok d := by
  obtain ⟨properties, hps, hd⟩ := except_bind_eq_ok.mp hd
  obtain ⟨additional, hadd, hd⟩ := except_bind_eq_ok.mp hd
  cases hd
  refine except_bind_eq_ok.mpr ⟨properties, propertyDocuments_moved h.properties hfg hps,
    except_bind_eq_ok.mpr ⟨additional, ?_, ?_⟩⟩
  · rw [← h.additional]
    unfold additionalDocument at hadd ⊢
    split at hadd
    · rename_i c hc
      obtain ⟨dc, hdc, hsome⟩ := except_map_eq_ok.mp hadd
      have hpair : E c c := h.inside c (ObjectRule.mem_references_bare.mpr
        (.inr (.inr (by simp [hc, Value.nodesOf, Value.nodes]))))
      exact except_map_eq_ok.mpr ⟨dc, hfg c c hpair dc hdc, hsome⟩
    · exact hadd
  · rw [ObjectRule.requiredPart, ObjectRule.requiredPart, h.required]
    rfl

/-- A builder that holds nothing but one rule for every key is written as that rule, and otherwise
like any object. -/
theorem schemaDocument_cases (r : ObjectRule) :
    (∃ c, r.properties = [] ∧ r.additional = some (.node c) ∧
      ∀ (s : Store) f, s.schemaDocument f r = f c) ∨
    (∀ c, ¬ (r.properties = [] ∧ r.additional = some (.node c))) ∧
      ∀ (s : Store) f, s.schemaDocument f r = s.objectDocument f r := by
  by_cases h : ∃ c, r.properties = [] ∧ r.additional = some (.node c)
  · obtain ⟨c, hproperties, hadditional⟩ := h
    exact .inl ⟨c, hproperties, hadditional, fun s f => by
      rw [schemaDocument, hproperties, hadditional]⟩
  · refine .inr ⟨fun c hc => h ⟨c, hc⟩, fun s f => ?_⟩
    unfold schemaDocument
    split
    · exact absurd ⟨_, ‹_›, ‹_›⟩ h
    · rfl

theorem schemaDocument_moved {r r' : ObjectRule} {d : Value} (h : r.Moved E r')
    (hfg : ∀ a b, E a b → ∀ d, f a = .ok d → g b = .ok d)
    (hd : s.schemaDocument f r = .ok d) : t.schemaDocument g r' = .ok d := by
  have hnil : r.properties = [] ↔ r'.properties = [] := by
    have hkeys := h.properties.keys
    simp only [Entries.keys] at hkeys
    rw [← List.map_eq_nil_iff, hkeys, List.map_eq_nil_iff]
  rcases schemaDocument_cases r with ⟨c, hproperties, hadditional, hform⟩ | ⟨hnot, hform⟩
  · rcases schemaDocument_cases r' with ⟨c', -, hadditional', hform'⟩ | ⟨hnot', -⟩
    · rw [← h.additional, hadditional] at hadditional'
      cases hadditional'
      rw [hform] at hd
      rw [hform']
      exact hfg c c (h.inside c (ObjectRule.mem_references_bare.mpr
        (.inr (.inr (by simp [hadditional, Value.nodesOf, Value.nodes]))))) d hd
    · exact absurd ⟨hnil.mp hproperties, h.additional ▸ hadditional⟩ (hnot' c)
  · rcases schemaDocument_cases r' with ⟨c', hproperties', hadditional', -⟩ | ⟨-, hform'⟩
    · exact absurd ⟨hnil.mpr hproperties', h.additional ▸ hadditional'⟩ (hnot c')
    · rw [hform] at hd
      rw [hform']
      exact objectDocument_moved h hfg hd

/-- An object that paths may lead through, and that says nothing of further keys, is written
property by property, whatever its kind. -/
theorem documentOf_object {r : ObjectRule} (hkind : r.kind.acceptsProperties = true)
    (hadditional : r.additional = none) : s.documentOf f (.object r) = s.objectDocument f r := by
  cases h : r.kind with
  | plain => simp only [documentOf, h]
  | schema =>
    rcases schemaDocument_cases r with ⟨c, -, hsome, -⟩ | ⟨-, hform⟩
    · rw [hadditional] at hsome
      cases hsome
    · simp only [documentOf, h, hform]
  | dictionary =>
    rw [h] at hkind
    cases hkind

/-- Rules that say the same have the same document if paired rules have. -/
theorem documentOf_moved {rule rule' : Rule} {d : Value} (h : rule.Moved E rule')
    (hfg : ∀ a b, E a b → ∀ d, f a = .ok d → g b = .ok d) (hd : s.documentOf f rule = .ok d) :
    t.documentOf g rule' = .ok d := by
  cases h with
  | @object r r' moved =>
    rcases moved.kind with hkind | ⟨hadditional, haccepts, haccepts'⟩
    · -- they are of one kind, and written alike
      cases hr : r.kind with
      | plain =>
        simp only [documentOf, ← hkind, hr] at hd ⊢
        exact objectDocument_moved moved hfg hd
      | schema =>
        simp only [documentOf, ← hkind, hr] at hd ⊢
        exact schemaDocument_moved moved hfg hd
      | dictionary =>
        simp only [documentOf, ← hkind, hr] at hd ⊢
        obtain ⟨inner, hinner, hd⟩ := except_bind_eq_ok.mp hd
        exact except_bind_eq_ok.mpr ⟨inner, schemaDocument_moved moved hfg hinner, hd⟩
    · rw [documentOf_object haccepts hadditional] at hd
      rw [documentOf_object haccepts' (moved.additional ▸ hadditional)]
      exact objectDocument_moved moved hfg hd
  | other different inside =>
    have hg := documentOf_of_references (fun c hc => hfg c c (inside c hc)) hd
    cases rule with
    | object r => exact absurd rfl (different r)
    | _ => exact hg

end Document

/-- Paired rules have the same document. -/
theorem Matches.document (h : s.Matches E t) (hxy : E x y) {d : Value}
    (hd : s.document x = .ok d) : t.document y = .ok d := by
  -- with equal fuel, which may be too little or too much in the other store
  have within : ∀ n a b, E a b → ∀ d, s.documentWithin n a = .ok d →
      t.documentWithin n b = .ok d := by
    intro n
    induction n with
    | zero => exact fun _ _ _ _ hd => nomatch hd
    | succ n ih =>
      intro a b hab d hd
      obtain ⟨node, node', ha, hb, -, hmoved⟩ := h a b hab
      rw [documentWithin, ha] at hd
      rw [documentWithin, hb]
      exact documentOf_moved hmoved ih hd
  exact document_of_documentWithin (within _ x y hxy d hd)

theorem Matches.symm (h : s.Matches E t) : t.Matches (fun a b => E b a) s := by
  intro y x hxy
  obtain ⟨node, node', hx, hy, hrequired, hmoved⟩ := h x y hxy
  exact ⟨node', node, hy, hx, hrequired.symm, hmoved.symm⟩

theorem Matches.object? (h : s.Matches E t) (hxy : E x y) {r : ObjectRule}
    (hr : s.object? x = some r) : ∃ r', t.object? y = some r' ∧ r.Moved E r' := by
  obtain ⟨node, node', hx, hy, -, hmoved⟩ := h x y hxy
  obtain ⟨required, hget⟩ := object?_eq_some.mp hr
  cases hx.symm.trans hget
  obtain ⟨rule', required'⟩ := node'
  cases hmoved with
  | object moved => exact ⟨_, object?_eq_some.mpr ⟨required', hy⟩, moved⟩
  | other different => exact absurd rfl (different r)

theorem Matches.object?_none (h : s.Matches E t) (hxy : E x y) (hr : s.object? x = none) :
    t.object? y = none := by
  cases hr' : t.object? y with
  | none => rfl
  | some r' =>
    obtain ⟨r, hsome, -⟩ := h.symm.object? hxy hr'
    rw [hr] at hsome
    cases hsome

theorem Matches.requirement (h : s.Matches E t) (hxy : E x y) :
    s.requirement x = t.requirement y := by
  obtain ⟨node, node', hx, hy, hrequired, -⟩ := h x y hxy
  rw [Store.requirement, Store.requirement, hx, hy]
  exact hrequired

/-- Under a name paired objects either both hold nothing, or what they hold has moved. -/
theorem Matches.child? (h : s.Matches E t) (hxy : E x y) (name : Value) :
    s.child? x name = none ∧ t.child? y name = none ∨
      ∃ v v', s.child? x name = some v ∧ t.child? y name = some v' ∧ v.Moved E v' := by
  cases hr : s.object? x with
  | none => exact .inl ⟨by rw [Store.child?, hr], by rw [Store.child?, h.object?_none hxy hr]⟩
  | some r =>
    obtain ⟨r', hr', hmoved⟩ := h.object? hxy hr
    rw [child?_of_object? hr, child?_of_object? hr']
    rcases hmoved.properties.get? name with ⟨hnone, hnone'⟩ | ⟨v, v', hv, hv', hpair⟩
    · exact .inl ⟨by rw [hnone, Option.bind_none], by rw [hnone', Option.bind_none]⟩
    · rw [hv, hv', Option.bind_some, Option.bind_some]
      cases hpair with
      | node pair => exact .inr ⟨_, _, rfl, rfl, .node pair⟩
      | same inside =>
        cases hpresent : v.present with
        | none => exact .inl ⟨rfl, rfl⟩
        | some u =>
          obtain rfl : v = u := by cases v <;> simp_all [Value.present]
          exact .inr ⟨v, v, rfl, rfl, .same inside⟩

/-- Under a name where an object holds a rule, the object paired with it holds the paired rule. -/
theorem Matches.child?_node (h : s.Matches E t) (hxy : E x y)
    (hchild : s.child? x name = some (.node a)) :
    ∃ b, t.child? y name = some (.node b) ∧ E a b := by
  rcases h.child? hxy name with ⟨hnone, -⟩ | ⟨v, v', hv, hv', hpair⟩
  · rw [hchild] at hnone
    cases hnone
  · cases hchild.symm.trans hv
    cases hpair with
    | same inside => exact ⟨a, hv', inside a (by simp [Value.nodes])⟩
    | node pair => exact ⟨_, hv', pair⟩

theorem Matches.child?_none (h : s.Matches E t) (hxy : E x y) (hchild : s.child? x name = none) :
    t.child? y name = none := by
  rcases h.child? hxy name with ⟨-, hnone⟩ | ⟨v, v', hv, -, -⟩
  · exact hnone
  · rw [hchild] at hv
    cases hv

/-! ## Paths -/

/-- From paired rules the same paths can be gone along. -/
theorem Matches.passes (h : s.Matches E t) (hxy : E x y) (hp : s.Passes x path) :
    t.Passes y path := by
  induction hp generalizing y with
  | last id name => exact .last y name
  | missing hmore hname hchild => exact .missing hmore hname (h.child?_none hxy hchild)
  | through hmore hname hchild hobject haccepts _ ih =>
    obtain ⟨c', hchild', hpair⟩ := h.child?_node hxy hchild
    obtain ⟨r', hr', hmoved⟩ := h.object? hpair hobject
    exact .through hmore hname hchild' hr' (hmoved.accepts ▸ haccepts) (ih hpair)

/-- Along the paths from paired rules the same names can be listed. -/
theorem Matches.listable (h : s.Matches E t) (hxy : E x y) (path : List Value) :
    s.listable x path = t.listable y path := by
  have here : ∀ {a b : NodeId}, E a b → ∀ name : Value,
      (s.object? a).all (·.searchable name) = (t.object? b).all (·.searchable name) := by
    intro a b hab name
    cases hr : s.object? a with
    | none => rw [h.object?_none hab hr]
    | some r =>
      obtain ⟨r', hr', hmoved⟩ := h.object? hab hr
      rw [hr', Option.all_some, Option.all_some, hmoved.searchable]
  induction path generalizing x y with
  | nil => rfl
  | cons name rest ih =>
    by_cases hrest : rest = []
    · subst hrest
      exact here hxy name
    rw [listable.eq_3 _ x name rest fun h => hrest h, listable.eq_3 _ y name rest fun h => hrest h,
      here hxy]
    rcases h.child? hxy name with ⟨hnone, hnone'⟩ | ⟨v, v', hv, hv', hpair⟩
    · rw [hnone, hnone']
    · rw [hv, hv']
      cases hpair with
      | node pair => exact congrArg (_ && ·) (ih pair)
      | same inside =>
        cases v with
        | node a => exact congrArg (_ && ·) (ih (inside a (by simp [Value.nodes])))
        | _ => rfl

/-! ## Twins -/

/-- Two stores that match one to one. Paired rules are of one class, except for one rule, which has
moved. -/
structure Twin (E : Pairing) (root : NodeId) (s t : Store) : Prop where
  pairs : s.Matches E t
  unique : ∀ {x y x' y' : NodeId}, E x y → E x' y' → (x = x' ↔ y = y')
  classes : ∀ {x y : NodeId}, E x y → x ≠ root →
    (s.get? x).map (·.rule.nodeClass) = (t.get? y).map (·.rule.nodeClass)
  moved : ¬ E root root
  there : root < s.size

namespace Twin

theorem lt_size (h : Twin E root s t) (hxy : E x y) : x < s.size ∧ y < t.size := by
  obtain ⟨node, node', hx, hy, -⟩ := h.pairs x y hxy
  exact ⟨lt_size_of_get? hx, lt_size_of_get? hy⟩

/-- Only the rules that are paired count. -/
theorem congr (h : Twin E root s t) (hs : ∀ x y, E x y → s'.get? x = s.get? x)
    (ht : ∀ x y, E x y → t'.get? y = t.get? y) (hsize : s.size ≤ s'.size) :
    Twin E root s' t' where
  pairs x y hxy := by
    rw [hs x y hxy, ht x y hxy]
    exact h.pairs x y hxy
  unique := h.unique
  classes hxy hx := by
    rw [hs _ _ hxy, ht _ _ hxy]
    exact h.classes hxy hx
  moved := h.moved
  there := h.there.trans_le hsize

theorem of_extends (h : Twin E root s t) (hs : s'.Extends s) (ht : t'.Extends t) :
    Twin E root s' t' :=
  h.congr (fun _ _ hxy => hs.same _ (h.lt_size hxy).1) (fun _ _ hxy => ht.same _ (h.lt_size hxy).2)
    hs.size

/-- Two rules that were not paired become a pair. -/
theorem add (h : Twin E root s t) {node node' : Node} (hx : s.get? x = some node)
    (hy : t.get? y = some node') (hrequired : node.required = node'.required)
    (hmoved : node.rule.Moved (E.add x y) node'.rule)
    (hclass : x ≠ root → node.rule.nodeClass = node'.rule.nodeClass) (hnew : ∀ b, ¬ E x b)
    (hnew' : ∀ a, ¬ E a y) (hne : ¬ (root = x ∧ root = y)) : Twin (E.add x y) root s t where
  pairs a b hab := by
    rcases hab with hab | ⟨rfl, rfl⟩
    · obtain ⟨n, n', ha, hb, hreq, hrule⟩ := h.pairs a b hab
      exact ⟨n, n', ha, hb, hreq, hrule.mono fun _ _ => .inl⟩
    · exact ⟨node, node', hx, hy, hrequired, hmoved⟩
  unique := by
    rintro a b a' b' (hab | ⟨rfl, rfl⟩) (hab' | ⟨rfl, rfl⟩)
    · exact h.unique hab hab'
    · exact ⟨fun heq => absurd (heq ▸ hab) (hnew b), fun heq => absurd (heq ▸ hab) (hnew' a)⟩
    · exact ⟨fun heq => absurd (heq ▸ hab') (hnew b'), fun heq => absurd (heq ▸ hab') (hnew' a')⟩
    · exact ⟨fun _ => rfl, fun _ => rfl⟩
  classes := by
    rintro a b (hab | ⟨rfl, rfl⟩) ha
    · exact h.classes hab ha
    · rw [hx, hy, Option.map_some, Option.map_some, hclass ha]
  moved := by
    rintro (hself | hself)
    · exact h.moved hself
    · exact hne hself
  there := h.there

theorem nodeClass_modifyObject (s : Store) (id x : NodeId) {f : ObjectRule → ObjectRule}
    (hf : ∀ r, (f r).kind = r.kind) :
    ((s.modifyObject id f).get? x).map (·.rule.nodeClass) = (s.get? x).map (·.rule.nodeClass) := by
  rw [get?_modifyObject]
  split
  · subst x
    rw [Option.map_map]
    refine congrArg (Option.map · _) (funext fun node => ?_)
    obtain ⟨rule, required⟩ := node
    cases rule <;> simp [Node.mapObject, Rule.nodeClass, hf]
  · rfl

/-- Paired objects are changed alike. -/
theorem modifyObject (h : Twin E root s t) (hxy : E x y) {f g : ObjectRule → ObjectRule}
    (hfg : ∀ r r', r.Moved E r' → (f r).Moved E (g r')) (hf : ∀ r, (f r).kind = r.kind)
    (hg : ∀ r, (g r).kind = r.kind) :
    Twin E root (s.modifyObject x f) (t.modifyObject y g) where
  pairs a b hab := by
    obtain ⟨node, node', ha, hb, hrequired, hmoved⟩ := h.pairs a b hab
    rw [get?_modifyObject, get?_modifyObject]
    -- rules are paired one to one, so one of the pair is changed exactly if the other one is
    by_cases hax : a = x
    · have hby : b = y := (h.unique hab hxy).mp hax
      subst hax hby
      rw [if_pos rfl, if_pos rfl, ha, hb]
      refine ⟨_, _, rfl, rfl, ?_⟩
      obtain ⟨rule, required⟩ := node
      obtain ⟨rule', required'⟩ := node'
      cases hmoved with
      | object moved => exact ⟨hrequired, .object (hfg _ _ moved)⟩
      | other different inside =>
        cases rule with
        | object r => exact absurd rfl (different r)
        | _ => exact ⟨hrequired, .other different inside⟩
    · have hby : b ≠ y := fun heq => hax ((h.unique hab hxy).mpr heq)
      rw [if_neg hax, if_neg hby]
      exact ⟨node, node', ha, hb, hrequired, hmoved⟩
  unique := h.unique
  classes hab ha := by
    rw [nodeClass_modifyObject s x _ hf, nodeClass_modifyObject t y _ hg]
    exact h.classes hab ha
  moved := h.moved
  there := by
    rw [size_modifyObject]
    exact h.there

theorem setProperty (h : Twin E root s t) (hxy : E x y) (hname : name.nodes = []) (hm : E m m') :
    Twin E root (s.modifyObject x fun r => r.setProperty name (.node m))
      (t.modifyObject y fun r => r.setProperty name (.node m')) :=
  h.modifyObject hxy (fun _ _ hr => hr.setProperty hname (.node hm)) (fun _ => rfl) fun _ => rfl

theorem mark (h : Twin E root s t) (hxy : E x y) (flag : Bool) (hname : name.nodes = []) :
    Twin E root (s.mark flag x name) (t.mark flag y name) :=
  h.modifyObject hxy (fun _ _ hr => hr.mark flag hname) (fun r => r.mark_kind flag name)
    fun r => r.mark_kind flag name

/-- Rules that say the same are put at new addresses, where they become a pair. -/
theorem alloc (h : Twin E root s t) {node node' : Node} (hrequired : node.required = node'.required)
    (hmoved : node.rule.Moved E node'.rule) (hclass : node.rule.nodeClass = node'.rule.nodeClass) :
    Twin (E.add s.size t.size) root (s.alloc node).1 (t.alloc node').1 :=
  (h.of_extends (extends_alloc s node) (extends_alloc t node')).add (get?_alloc_self s node)
    (get?_alloc_self t node') hrequired (hmoved.mono fun _ _ => .inl) (fun _ => hclass)
    (fun _ hb => Nat.lt_irrefl _ (h.lt_size hb).1) (fun _ ha => Nat.lt_irrefl _ (h.lt_size ha).2)
    fun hroot => Nat.ne_of_lt h.there hroot.1

theorem moved_empty : ObjectRule.empty.Moved E .empty where
  properties := .nil
  required := rfl
  additional := rfl
  kind := .inl rfl
  inside _ hc := nomatch hc

theorem fill (h : Twin E root s t) (hxy : E x y) (hname : name.nodes = []) :
    Twin (E.add s.size t.size) root (s.fill x name) (t.fill y name) :=
  (h.alloc rfl (.object moved_empty) rfl).setProperty (.inl hxy) hname (.inr ⟨rfl, rfl⟩)

end Twin

/-! ## Growth -/

/-- A pairing and the store that it leads to have grown: there may be new pairs with rules that are
new, and what was not paired has not changed. -/
structure Outgrown (E : Pairing) (t : Store) (E' : Pairing) (t' : Store) : Prop where
  kept : ∀ a b, E a b → E' a b
  new : ∀ a b, E' a b → E a b ∨ t.size ≤ b
  size : t.size ≤ t'.size
  apart : ∀ z, z < t.size → (∀ a, ¬ E a z) → t'.get? z = t.get? z

theorem Outgrown.refl (E : Pairing) (t : Store) : Outgrown E t E t :=
  ⟨fun _ _ h => h, fun _ _ h => .inl h, Nat.le_refl _, fun _ _ _ => rfl⟩

theorem Outgrown.trans {E₁ : Pairing} {t₁ : Store} (h : Outgrown E t E₁ t₁)
    (h' : Outgrown E₁ t₁ E' t') : Outgrown E t E' t' where
  kept a b hab := h'.kept a b (h.kept a b hab)
  new a b hab := by
    rcases h'.new a b hab with hab | hb
    · exact h.new a b hab
    · exact .inr (h.size.trans hb)
  size := h.size.trans h'.size
  apart z hz hapart := by
    refine (h'.apart z (hz.trans_le h.size) fun a ha => ?_).trans (h.apart z hz hapart)
    rcases h.new a z ha with ha | hz'
    · exact hapart a ha
    · exact absurd hz (Nat.not_lt.mpr hz')

/-- A change of a paired object. -/
theorem outgrown_modifyObject (hxy : E x y) (f : ObjectRule → ObjectRule) :
    Outgrown E t E (t.modifyObject y f) where
  kept _ _ h := h
  new _ _ h := .inl h
  size := (size_modifyObject t y f).ge
  apart _ _ hapart := get?_modifyObject_ne t f fun heq => hapart x (heq ▸ hxy)

theorem outgrown_fill (hxy : E x y) : Outgrown E t (E.add a t.size) (t.fill y name) where
  kept _ _ := .inl
  new := by
    rintro c b (hab | ⟨-, rfl⟩)
    · exact .inl hab
    · exact .inr (Nat.le_refl _)
  size := (size_fill t y name).ge.trans' (Nat.le_succ _)
  apart _ hz hapart := get?_fill_lt t name hz fun heq => hapart x (heq ▸ hxy)

/-- Where a path enters an object, it enters the paired one. -/
theorem Twin.entered (h : Twin E root s t) (hxy : E x y) (hname : name.nodes = [])
    (hentered : s.Entered x name s' c) : ∃ t' c' E', t.Entered y name t' c' ∧
      Twin E' root s' t' ∧ E' c c' ∧ Outgrown E t E' t' := by
  cases hentered with
  | there child object accepts =>
    obtain ⟨c', hchild, hpair⟩ := h.pairs.child?_node hxy child
    obtain ⟨r', hr', hmoved⟩ := h.pairs.object? hpair object
    exact ⟨t, c', E, .there hchild hr' (hmoved.accepts ▸ accepts), h, hpair, .refl E t⟩
  | made child =>
    exact ⟨_, _, _, .made (h.pairs.child?_none hxy child), h.fill hxy hname, .inr ⟨rfl, rfl⟩,
      outgrown_fill hxy⟩

/-- Growth along a path from a rule is followed by growth from the paired one. -/
theorem Twin.grows {flag : Bool} (h : Twin E root s t) (hxy : E x y) (hm : E m m')
    (hnames : ∀ name ∈ path, name.nodes = []) (hgrows : Grows flag (.node m) s x path s') :
    ∃ t' E', Grows flag (.node m') t y path t' ∧ Twin E' root s' t' ∧ Outgrown E t E' t' := by
  generalize hv : Value.node m = v at hgrows
  -- along the path, with a pairing that grows where an object is made
  induction hgrows generalizing t y E with
  | @last s x r name hr =>
    subst hv
    have hname := hnames name (by simp)
    obtain ⟨r', hr', -⟩ := h.pairs.object? hxy hr
    refine ⟨_, E, .last hr', ?_, outgrown_modifyObject hxy _⟩
    have hboth := (h.setProperty hxy hname hm).mark hxy flag hname
    rwa [Store.mark, Store.mark, modifyObject_modifyObject, modifyObject_modifyObject] at hboth
  | @more s s₁ s' x c r name rest hr hentered hrest _ ih =>
    have hname := hnames name (by simp)
    obtain ⟨r', hr', -⟩ := h.pairs.object? hxy hr
    obtain ⟨t₁, c', E₁, hentered', htwin, hpair, hout⟩ := h.entered hxy hname hentered
    have hxy₁ := hout.kept x y hxy
    obtain ⟨t', E', hgrows', htwin', hout'⟩ := ih (htwin.mark hxy₁ flag hname) hpair
      (hout.kept m m' hm) fun n hn => hnames n (by simp [hn])
    exact ⟨t', E', .more hr' hentered' hrest hgrows', htwin',
      (hout.trans (outgrown_modifyObject hxy₁ _)).trans hout'⟩

/-! ## Texts -/

/-- Of paired rules the same is shown, unless they have moved. -/
theorem Twin.get?_bare (h : Twin E root s t) (hxy : E x y) (hx : x ≠ root) :
    s.bare.get? x = t.bare.get? y := by
  obtain ⟨node, node', hget, hget', hrequired, hmoved⟩ := h.pairs x y hxy
  have hclass := h.classes hxy hx
  rw [hget, hget', Option.map_some, Option.map_some, Option.some.injEq] at hclass
  rw [Store.get?_bare, Store.get?_bare, hget, hget', Option.map_some, Option.map_some, Node.bare,
    Node.bare, hrequired, hmoved.bare_eq hclass]

theorem Twin.inside (h : Twin E root s t) (hxy : E x y) (hc : c ∈ s.bare.references x) : E c c := by
  obtain ⟨node, node', hget, -, -, hmoved⟩ := h.pairs x y hxy
  rw [references_bare_of_get? hget] at hc
  exact hmoved.inside hc

/-- Twins show the same of a rule that is paired with itself, and of all that it refers to. -/
theorem Twin.agree (h : Twin E root s t) (hc : E c c) : s.bare.Agree t.bare c := by
  intro x hx
  have hself : E x x := by
    induction hx with
    | refl => exact hc
    | step hd _ ih => exact ih (h.inside hc hd)
  exact h.get?_bare hself fun heq => h.moved (heq ▸ hself)

/-- Paired rules have the same text, unless they have moved. -/
theorem Twin.nodeText (h : Twin E root s t) (hxy : E x y) (hx : x ≠ root)
    (hacyclic : s.bare.Acyclic x) : s.nodeText x = t.nodeText y := by
  obtain ⟨node, -, hget, -⟩ := h.pairs x y hxy
  have hbare : s.bare.get? x = some node.bare := by rw [Store.get?_bare, hget, Option.map_some]
  refine nodeText_same hbare ((h.get?_bare hxy hx).symm.trans hbare) hacyclic fun c hc => ?_
  refine h.agree (h.inside hxy ?_)
  rw [references_of_get? hbare]
  exact hc

end Store

end DraftSchema
