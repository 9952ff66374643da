import DraftSchema.Proofs.Reading
import DraftSchema.Proofs.Run

/-!
# What builders give

The document and the JSON text of a builder depend on the rules at and below it alone. The text names
the types of rules that stand where a document cannot hold them, so it matters as well which rules
occur in a document: no others than the rule refers to.
-/

namespace DraftSchema

/-! ## The rules in a document -/

namespace Store

/-- The rules that may occur in what is made from the documents of some rules: these rules, and
those that occur in their documents. -/
def Occurs (document : NodeId → Except Fault Value) (ids : List NodeId) (c : NodeId) : Prop :=
  c ∈ ids ∨ ∃ x ∈ ids, ∃ d, document x = .ok d ∧ c ∈ d.nodes

variable {s : Store} {f : NodeId → Except Fault Value} {c : NodeId}

theorem Occurs.mono {ids more : List NodeId} (h : Occurs f ids c) (hm : ∀ x ∈ ids, x ∈ more) :
    Occurs f more c := by
  rcases h with h | ⟨x, hx, d, hd, hc⟩
  · exact .inl (hm c h)
  · exact .inr ⟨x, hm x hx, d, hd, hc⟩

theorem mem_nodes_record {members : Entries String Value} (h : c ∈ (Value.record members).nodes) :
    ∃ e ∈ members, c ∈ e.2.nodes := by
  obtain ⟨e, he, hc⟩ := Value.mem_nodesUnder.mp h
  obtain ⟨m, hm, rfl⟩ := List.mem_map.mp he
  exact ⟨m, hm, by simpa [Value.nodes] using hc⟩

theorem mem_nodes_typedDocument {type : String} {members : Entries String Value}
    (h : c ∈ (typedDocument type members).nodes) : ∃ e ∈ members, c ∈ e.2.nodes := by
  obtain ⟨e, he, hc⟩ := mem_nodes_record h
  rcases List.mem_cons.mp he with rfl | he
  · simp [Value.nodes] at hc
  · exact ⟨e, he, hc⟩

theorem memberDocument_occurs {v d : Value} (h : s.memberDocument f v = .ok d) (hc : c ∈ d.nodes) :
    Occurs f v.nodes c := by
  unfold memberDocument at h
  split at h
  · exact .inr ⟨_, by simp [Value.nodes], d, h, hc⟩
  · cases h
  · cases h

theorem propertyDocuments_occurs {es ds : Entries Value Value}
    (h : s.propertyDocuments f es = .ok ds) (hc : c ∈ Value.nodesUnder ds) :
    Occurs f (Value.nodesUnder es) c := by
  induction es generalizing ds with
  | nil =>
    cases h
    cases hc
  | cons e es ih =>
    obtain ⟨name, v⟩ := e
    obtain ⟨d, hd, h⟩ := except_bind_eq_ok.mp h
    obtain ⟨rest, hrest, h⟩ := except_bind_eq_ok.mp h
    cases h
    simp only [Value.nodesUnder, List.mem_append] at hc
    rcases hc with hc | hc | hc
    · exact .inl (by simp [Value.nodesUnder, hc])
    · exact (memberDocument_occurs hd hc).mono fun x hx => by simp [Value.nodesUnder, hx]
    · exact (ih hrest hc).mono fun x hx => by simp [Value.nodesUnder, hx]

theorem childDocuments_occurs {ids : List NodeId} {ds : List Value}
    (h : childDocuments f ids = .ok ds) (hc : c ∈ Value.nodesOf ds) : Occurs f ids c := by
  induction ids generalizing ds with
  | nil =>
    cases h
    cases hc
  | cons id ids ih =>
    obtain ⟨d, hd, h⟩ := except_bind_eq_ok.mp h
    obtain ⟨rest, hrest, h⟩ := except_bind_eq_ok.mp h
    cases h
    simp only [Value.nodesOf, List.mem_append] at hc
    rcases hc with hc | hc
    · exact .inr ⟨id, by simp, d, hd, hc⟩
    · exact (ih hrest hc).mono fun x hx => by simp [hx]

theorem additionalDocument_occurs {v d : Option Value} (h : additionalDocument f v = .ok d)
    (hc : c ∈ Value.nodesOf d.toList) : Occurs f (Value.nodesOf v.toList) c := by
  unfold additionalDocument at h
  split at h
  · rename_i id
    obtain ⟨doc, hd, rfl⟩ := except_map_eq_ok.mp h
    exact .inr ⟨id, by simp [Value.nodesOf, Value.nodes], doc, hd, by
      simpa [Value.nodesOf] using hc⟩
  · cases h
    exact .inl hc

theorem itemsDocument_occurs {items : Items} {d : Option Value}
    (h : itemsDocument f items = .ok d) (hc : c ∈ Value.nodesOf d.toList) :
    Occurs f items.children c := by
  cases items with
  | free =>
    cases h
    cases hc
  | every child =>
    obtain ⟨doc, hd, rfl⟩ := except_map_eq_ok.mp h
    exact .inr ⟨child, by simp [Items.children], doc, hd, by simpa [Value.nodesOf] using hc⟩
  | each children =>
    obtain ⟨docs, hd, rfl⟩ := except_map_eq_ok.mp h
    exact childDocuments_occurs hd (by simpa [Value.nodesOf, Value.listing, Value.nodes] using hc)

theorem objectDocument_occurs {r : ObjectRule} {d : Value} (h : s.objectDocument f r = .ok d)
    (hc : c ∈ d.nodes) : Occurs f r.references c := by
  obtain ⟨properties, hps, h⟩ := except_bind_eq_ok.mp h
  obtain ⟨additional, hadd, h⟩ := except_bind_eq_ok.mp h
  cases h
  obtain ⟨e, he, hc⟩ := mem_nodes_typedDocument hc
  simp only [List.mem_append] at he
  rcases he with (he | he) | he
  · cases List.mem_singleton.mp he
    exact (propertyDocuments_occurs hps hc).mono fun x hx => by simp [ObjectRule.references, hx]
  · rw [ObjectRule.nodes_requiredPart (Keyword.mem_member he)] at hc
    exact .inl (by simp [ObjectRule.references, hc])
  · have hc : c ∈ Value.nodesOf additional.toList := by
      simp [Keyword.mem_member he, Value.nodesOf, hc]
    exact (additionalDocument_occurs hadd hc).mono fun x hx => by
      simp [ObjectRule.references, hx]

theorem schemaDocument_occurs {r : ObjectRule} {d : Value} (h : s.schemaDocument f r = .ok d)
    (hc : c ∈ d.nodes) : Occurs f r.references c := by
  unfold schemaDocument at h
  split at h
  · rename_i id _ hadd
    exact .inr ⟨id, by simp [ObjectRule.references, hadd, Value.nodesOf, Value.nodes], d, h, hc⟩
  · exact objectDocument_occurs h hc

/-- No other rules occur in a document than the rule refers to, and those in their documents. -/
theorem documentOf_occurs {rule : Rule} {d : Value} (h : s.documentOf f rule = .ok d)
    (hc : c ∈ d.nodes) : Occurs f rule.references c := by
  cases rule with
  | string r =>
    cases h
    obtain ⟨e, he, hc⟩ := mem_nodes_typedDocument hc
    exact .inl (mem_nodesOf_parts (StringRule.mem_keywords he) hc)
  | number r =>
    cases h
    obtain ⟨e, he, hc⟩ := mem_nodes_typedDocument hc
    exact .inl (mem_nodesOf_parts (NumberRule.mem_keywords he) hc)
  | boolean allowed =>
    cases h
    obtain ⟨e, he, hc⟩ := mem_nodes_typedDocument hc
    exact .inl (mem_nodesOf_parts (by simp [Rule.parts, Keyword.mem_member he]) hc)
  | array r =>
    obtain ⟨items, hitems, h⟩ := except_bind_eq_ok.mp h
    cases h
    obtain ⟨e, he, hc⟩ := mem_nodes_typedDocument hc
    simp only [List.mem_append] at he
    -- all but the elements are written as they are
    have plain : some e.2 ∈ (Rule.array r).parts → Occurs f (Rule.array r).references c :=
      fun hmem => .inl (mem_nodesOf_parts hmem hc)
    rcases he with (((he | he) | he) | he) | he
    · exact plain (by simp [Rule.parts, Keyword.mem_member he])
    · exact plain (by simp [Rule.parts, Keyword.mem_member he])
    · exact plain (by simp [Rule.parts, Keyword.mem_member he])
    · have hc : c ∈ Value.nodesOf items.toList := by
        simp [Keyword.mem_member he, Value.nodesOf, hc]
      exact (itemsDocument_occurs hitems hc).mono fun x hx => by simp [Rule.references, hx]
    · exact plain (by simp [Rule.parts, Keyword.mem_member he])
  | object r =>
    have hr : ∀ x ∈ r.references, x ∈ (Rule.object r).references := fun x hx => by
      simp [Rule.references, hx]
    cases hkind : r.kind with
    | plain =>
      simp only [documentOf, hkind] at h
      exact (objectDocument_occurs h hc).mono hr
    | schema =>
      simp only [documentOf, hkind] at h
      exact (schemaDocument_occurs h hc).mono hr
    | dictionary =>
      simp only [documentOf, hkind] at h
      obtain ⟨inner, hinner, h⟩ := except_bind_eq_ok.mp h
      cases h
      obtain ⟨e, he, hc⟩ := mem_nodes_typedDocument hc
      cases List.mem_singleton.mp he
      exact (schemaDocument_occurs hinner hc).mono hr
  | combinator kind children =>
    obtain ⟨ds, hds, h⟩ := except_bind_eq_ok.mp h
    cases h
    obtain ⟨e, he, hc⟩ := mem_nodes_record hc
    cases List.mem_singleton.mp he
    exact (childDocuments_occurs hds hc).mono fun x hx => by simp [Rule.references, hx]
  | negation child =>
    obtain ⟨d', hd, h⟩ := except_bind_eq_ok.mp h
    cases h
    obtain ⟨e, he, hc⟩ := mem_nodes_record hc
    cases List.mem_singleton.mp he
    exact .inr ⟨child, by simp [Rule.references], d', hd, hc⟩

/-- Every rule that occurs in a document is below the rule that it is the document of. -/
theorem reaches_of_mem_document {n : Nat} {id : NodeId} {d : Value}
    (h : s.documentWithin n id = .ok d) (hc : c ∈ d.nodes) : s.Reaches id c := by
  induction n generalizing id d with
  | zero => cases h
  | succ n ih =>
    rw [documentWithin] at h
    split at h
    · cases h
    · rename_i node hnode
      have hrefs := references_of_get? hnode
      rcases documentOf_occurs h hc with hc | ⟨x, hx, dx, hdx, hc⟩
      · exact .step (hrefs ▸ hc) (.refl c)
      · exact .step (hrefs ▸ hx) (ih hdx hc)

end Store

/-! ## The JSON text -/

namespace Json

variable {f g : Value → String}

theorem nameChars_congr {key : Value} (h : f key = g key) : nameChars f key = nameChars g key := by
  cases key <;> first | rfl | simp only [nameChars, h]

mutual

/-- The text of a document depends on the names of the types of the rules in it alone. -/
theorem chars_congr (layout : Layout) (depth : Nat) : (v : Value) →
    (∀ x : Value, (∀ c ∈ x.nodes, c ∈ v.nodes) → f x = g x) →
    chars f layout depth v = chars g layout depth v
  | .list _ xs, h => by
    rw [chars, chars, elementChars_congr layout (depth + 1) xs fun x hx => h x hx]
  | .tuple xs, h => by
    rw [chars, chars, elementChars_congr layout (depth + 1) xs fun x hx => h x hx]
  | .dict _ es, h => by
    rw [chars, chars, memberChars_congr layout (depth + 1) es fun x hx => h x hx]
  | .null, _ | .bool _, _ | .int _, _ | .float _, _ | .text _, _ => by simp only [chars]
  | .bytes s, h => by simp only [chars, h (.bytes s) fun _ hc => hc]
  | .regex r, h => by simp only [chars, h (.regex r) fun _ hc => hc]
  | .function id body, h => by simp only [chars, h (.function id body) fun _ hc => hc]
  | .range b, h => by simp only [chars, h (.range b) fun _ hc => hc]
  | .node id, h => by simp only [chars, h (.node id) fun _ hc => hc]
  | .type t, h => by simp only [chars, h (.type t) fun _ hc => hc]
  | .nodeClass c, h => by simp only [chars, h (.nodeClass c) fun _ hc => hc]
  | .builtin name, h => by simp only [chars, h (.builtin name) fun _ hc => hc]
  | .foreign id kind, h => by simp only [chars, h (.foreign id kind) fun _ hc => hc]
  | .sized n, h => by simp only [chars, h (.sized n) fun _ hc => hc]
  | .recorder id path, h => by simp only [chars, h (.recorder id path) fun _ hc => hc]
  | .operand id b, h => by simp only [chars, h (.operand id b) fun _ hc => hc]
  | .comparison i o b op v, h => by simp only [chars, h (.comparison i o b op v) fun _ hc => hc]
  | .method owner name, h => by simp only [chars, h (.method owner name) fun _ hc => hc]
  | .classMethod c name, h => by simp only [chars, h (.classMethod c name) fun _ hc => hc]

theorem elementChars_congr (layout : Layout) (depth : Nat) : (xs : List Value) →
    (∀ x : Value, (∀ c ∈ x.nodes, c ∈ Value.nodesOf xs) → f x = g x) →
    elementChars f layout depth xs = elementChars g layout depth xs
  | [], _ => rfl
  | x :: xs, h => by
    rw [elementChars, elementChars,
      chars_congr layout depth x fun y hy => h y fun c hc => by simp [Value.nodesOf, hy c hc],
      elementChars_congr layout depth xs fun y hy => h y fun c hc => by
        simp [Value.nodesOf, hy c hc]]

theorem memberChars_congr (layout : Layout) (depth : Nat) : (es : List (Value × Value)) →
    (∀ x : Value, (∀ c ∈ x.nodes, c ∈ Value.nodesUnder es) → f x = g x) →
    memberChars f layout depth es = memberChars g layout depth es
  | [], _ => rfl
  | (k, x) :: es, h => by
    rw [memberChars, memberChars,
      nameChars_congr (h k fun c hc => by simp [Value.nodesUnder, hc]),
      chars_congr layout depth x fun y hy => h y fun c hc => by simp [Value.nodesUnder, hy c hc],
      memberChars_congr layout depth es fun y hy => h y fun c hc => by
        simp [Value.nodesUnder, hy c hc]]

end

theorem write_congr (layout : Layout) (v : Value)
    (h : ∀ x : Value, (∀ c ∈ x.nodes, c ∈ v.nodes) → f x = g x) :
    write f layout v = write g layout v := by
  rw [write, write, chars_congr layout 0 v h]

theorem Layout.ofIndent_congr {indent : Value} (h : f indent = g indent) :
    Layout.ofIndent f indent = Layout.ofIndent g indent := by
  unfold Layout.ofIndent
  split
  · rfl
  · rfl
  · rw [h]

end Json

/-! ## Builds -/

/-- Naming the draft adds no rule to a document. -/
theorem mem_nodes_withDraft {d : Value} {c : NodeId} (h : c ∈ (withDraft d).nodes) : c ∈ d.nodes := by
  have fold : ∀ (members acc : Entries Value Value),
      c ∈ Value.nodesUnder (members.foldl (fun es e => Entries.set es e.1 e.2) acc) →
      c ∈ Value.nodesUnder acc ∨ c ∈ Value.nodesUnder members := by
    intro members
    induction members with
    | nil => exact fun _ h => .inl h
    | cons e members ih =>
      intro acc h
      obtain ⟨k, v⟩ := e
      simp only [Value.nodesUnder, List.mem_append]
      rcases ih _ h with h | h
      · exact (Value.mem_nodesUnder_set h).imp_right fun h => h.imp_right .inl
      · exact .inr (.inr (.inr h))
  cases d with
  | dict id members =>
    rcases fold members _ h with h | h
    · simp [Value.nodesUnder, Value.nodes] at h
    · exact h
  | _ => exact h

namespace Build

variable {α β : Type}

/-- What a build gives, whatever it leaves behind. -/
def result (b : Build α) (w : Workspace) : Except Fault α :=
  match b w with
  | .ok a _ => .ok a
  | .error f _ => .error f

theorem ok_of_result {b : Build α} {w : Workspace} {a : α} (h : b.result w = .ok a) :
    b w = .ok a (b.after w) := by
  unfold result at h
  unfold after
  split at h <;> cases h
  simp [*]

theorem error_of_result {b : Build α} {w : Workspace} {f : Fault} (h : b.result w = .error f) :
    b w = .error f (b.after w) := by
  unfold result at h
  unfold after
  split at h <;> cases h
  simp [*]

/-- A build gives something with a property as soon as a test of what it gives says so. -/
theorem ok_of_result_any {b : Build α} {w : Workspace} {p : α → Bool}
    (h : (b.result w).toOption.any p = true) : ∃ a, b w = .ok a (b.after w) ∧ p a = true := by
  cases hresult : b.result w with
  | ok a =>
    rw [hresult] at h
    exact ⟨a, ok_of_result hresult, h⟩
  | error f =>
    rw [hresult] at h
    cases h

theorem result_fromStore_bind (g : Store → Except Fault α) (k : α → Build β) (w : Workspace) :
    (fromStore g >>= k).result w = (g w.store >>= fun a => (k a).result w) := by
  cases h : g w.store with
  | ok a => rw [result, bind_of_ok (fromStore_of_ok h)]; rfl
  | error f => rw [result, bind_of_error (fromStore_of_error h)]; rfl

end Build

namespace Builder

open Build

theorem documents_differ {x y : Except Fault Value}
    (h : (x >>= fun d => y >>= fun d' => .ok (d == d')) = .ok false) :
    ∃ d d', x = .ok d ∧ y = .ok d' ∧ d ≠ d' := by
  obtain ⟨d, hd, h⟩ := except_bind_eq_ok.mp h
  obtain ⟨d', hd', h⟩ := except_bind_eq_ok.mp h
  refine ⟨d, d', hd, hd', ?_⟩
  rintro rfl
  rw [BEq.rfl] at h
  cases h

/-- A build gives the document with its draft, provided that the builder can be shown. -/
theorem result_build (id : NodeId) (w : Workspace) :
    (build id).result w = (do
      let document ← w.store.document id
      let _ ← w.store.nodeText id
      return withDraft document) := by
  rw [build, result_fromStore_bind]
  refine congrArg (w.store.document id >>= ·) (funext fun document => ?_)
  rw [result_fromStore_bind]
  rfl

theorem store_of_build {id : NodeId} {w w' : Workspace} {d : Value} (h : build id w = .ok d w') :
    w'.store = w.store := by
  obtain ⟨document, w₁, hdocument, hrest⟩ := bind_eq_ok.mp h
  obtain ⟨text, w₂, htext, hlog⟩ := bind_eq_ok.mp hrest
  obtain ⟨-, rfl⟩ := fromStore_eq_ok.mp hdocument
  obtain ⟨-, rfl⟩ := fromStore_eq_ok.mp htext
  cases hlog
  rfl

/-- The JSON text of a builder is that of the document it gives. -/
theorem result_json (id : NodeId) (indent : Value) (w : Workspace) :
    (json id indent).result w = (do
      let document ← (build id).result w
      let layout ← Json.Layout.ofIndent w.store.kindName indent
      Json.write w.store.typeName layout document) := by
  cases hbuild : build id w with
  | error f w' =>
    rw [json, result, bind_of_error hbuild, result, hbuild]
    rfl
  | ok d w' =>
    have hrest : ∀ k : Value → Build String, (build id >>= k).result w = (k d).result w' := fun k => by
      rw [result, bind_of_ok hbuild, result]
    rw [json, hrest, result_fromStore_bind, store_of_build hbuild, result, hbuild]
    refine congrArg (Json.Layout.ofIndent w.store.kindName indent >>= ·) (funext fun layout => ?_)
    rw [← store_of_build hbuild]
    cases htext : Json.write w'.store.typeName layout d with
    | ok text => rw [result, fromStore_of_ok htext]
    | error f => rw [result, fromStore_of_error htext]

/-- What a build gives holds no rule that is not below the builder. -/
theorem reaches_of_mem_build {id : NodeId} {w : Workspace} {d : Value} {c : NodeId}
    (h : (build id).result w = .ok d) (hc : c ∈ d.nodes) : w.store.Reaches id c := by
  rw [result_build] at h
  obtain ⟨document, hdocument, h⟩ := except_bind_eq_ok.mp h
  obtain ⟨text, -, h⟩ := except_bind_eq_ok.mp h
  cases h
  exact Store.reaches_of_mem_document hdocument (mem_nodes_withDraft hc)

variable {w w' : Workspace} {id : NodeId}

/-- A builder gives the same document in workspaces that agree on it. -/
theorem result_build_congr (hid : w.store.Acyclic id) (h : w.store.Agree w'.store id) :
    (build id).result w' = (build id).result w := by
  rw [result_build, result_build, Store.document_congr hid h, Store.nodeText_congr hid h]

/-- A builder gives the same JSON text in workspaces that agree on it and on the indentation. -/
theorem result_json_congr {indent : Value} (hid : w.store.Acyclic id)
    (h : w.store.Agree w'.store id)
    (hindent : ∀ c ∈ indent.nodes, w.store.get? c = w'.store.get? c) :
    (json id indent).result w' = (json id indent).result w := by
  rw [result_json, result_json, result_build_congr hid h,
    Json.Layout.ofIndent_congr (Store.kindName_congr indent hindent).symm]
  cases hbuild : (build id).result w with
  | error => rfl
  | ok d =>
    have hwrite : ∀ layout, Json.write w'.store.typeName layout d
        = Json.write w.store.typeName layout d := fun layout =>
      Json.write_congr layout d fun x hx => (Store.typeName_congr x fun c hc =>
        h c (reaches_of_mem_build hbuild (hx c hc))).symm
    show (_ >>= fun layout => Json.write w'.store.typeName layout d)
      = (_ >>= fun layout => Json.write w.store.typeName layout d)
    simp only [hwrite]

end Builder

end DraftSchema
