import DraftSchema.Proofs.Reference

/-!
# Reading rules

A reading is something that is computed for a rule from the readings of the rules it refers to, such
as its document or its text. Two stores that agree at and below an acyclic rule give the same
reading of it, whatever else they hold and whatever fuel is spent.
-/

namespace DraftSchema

namespace Value

variable {f g : NodeId → Except Fault String}

mutual

/-- How a value is shown depends on the rules in it alone. -/
theorem quoted_congr : (v : Value) → (∀ c ∈ v.nodes, f c = g c) → v.quoted f = v.quoted g
  | .list _ xs, h => by rw [quoted, quoted, quotedAll_congr xs h]
  | .tuple xs, h => by rw [quoted, quoted, quotedAll_congr xs h]
  | .dict _ es, h => by rw [quoted, quoted, quotedEntries_congr es h]
  | .range bounds, h => by rw [quoted, quoted, quotedBounds_congr bounds h]
  | .node id, h => h id (by simp [nodes])
  | .type t, h => by simp only [quoted, memberText_congr t h]
  | .method owner name, h => by rw [quoted, quoted, quoted_congr owner h]
  | .null, _ | .bool _, _ | .int _, _ | .float _, _ | .text _, _ | .bytes _, _ | .regex _, _
  | .function .., _ | .nodeClass _, _ | .builtin _, _ | .foreign .., _ | .sized _, _
  | .recorder .., _ | .operand .., _ | .comparison .., _ | .classMethod .., _ => rfl

theorem quotedAll_congr : (xs : List Value) → (∀ c ∈ nodesOf xs, f c = g c) →
    quotedAll f xs = quotedAll g xs
  | [], _ => rfl
  | x :: xs, h => by
    simp only [nodesOf, List.mem_append] at h
    rw [quotedAll, quotedAll, quoted_congr x fun c hc => h c (.inl hc),
      quotedAll_congr xs fun c hc => h c (.inr hc)]

theorem quotedEntries_congr : (es : List (Value × Value)) → (∀ c ∈ nodesUnder es, f c = g c) →
    quotedEntries f es = quotedEntries g es
  | [], _ => rfl
  | (k, x) :: es, h => by
    simp only [nodesUnder, List.mem_append] at h
    rw [quotedEntries, quotedEntries, quoted_congr k fun c hc => h c (.inl hc),
      quoted_congr x fun c hc => h c (.inr (.inl hc)),
      quotedEntries_congr es fun c hc => h c (.inr (.inr hc))]

theorem quotedBounds_congr : (b : Bounds Value) → (∀ c ∈ boundsNodes b, f c = g c) →
    quotedBounds f b = quotedBounds g b
  | ⟨min, max, minExclusive, maxExclusive, ofLength⟩, h => by
    simp only [boundsNodes, List.mem_append] at h
    rw [quotedBounds, quotedBounds, quoted_congr min fun c hc => h c (.inl hc),
      quoted_congr max fun c hc => h c (.inr (.inl hc)),
      quoted_congr minExclusive fun c hc => h c (.inr (.inr (.inl hc))),
      quoted_congr maxExclusive fun c hc => h c (.inr (.inr (.inr (.inl hc)))),
      quoted_congr ofLength fun c hc => h c (.inr (.inr (.inr (.inr hc))))]

theorem memberText_congr : (t : TypeForm Value) → (∀ c ∈ typeNodes t, f c = g c) →
    memberText f t = memberText g t
  | .list t, h => by rw [memberText, memberText, memberText_congr t h]
  | .dict k v, h => by
    simp only [typeNodes, List.mem_append] at h
    rw [memberText, memberText, memberText_congr k fun c hc => h c (.inl hc),
      memberText_congr v fun c hc => h c (.inr hc)]
  | .generic _ ts, h => by rw [memberText, memberText, memberTexts_congr ts h]
  | .annotated t _, h => by rw [memberText, memberText, memberText_congr t h]
  | .union _ ts, h => by rw [memberText, memberText, memberTexts_congr ts h]
  | .other v, h => by
    have hv := quoted_congr v h
    unfold memberText
    split
    · rfl
    · rfl
    · exact hv
  | .basic _, _ | .any, _ | .model _, _ | .reference _, _ => rfl

theorem memberTexts_congr : (ts : List (TypeForm Value)) → (∀ c ∈ typeNodesOf ts, f c = g c) →
    memberTexts f ts = memberTexts g ts
  | [], _ => rfl
  | t :: ts, h => by
    simp only [typeNodesOf, List.mem_append] at h
    rw [memberTexts, memberTexts, memberText_congr t fun c hc => h c (.inl hc),
      memberTexts_congr ts fun c hc => h c (.inr hc)]

end

/-- How a value is shown alone depends on the rules in it alone. -/
theorem shown_congr {f' g' : NodeId → Except Fault String} (v : Value)
    (h : ∀ c ∈ v.nodes, f c = g c) (h' : ∀ c ∈ v.nodes, f' c = g' c) :
    v.shown f f' = v.shown g g' := by
  unfold shown
  split
  · rfl
  · exact h _ (by simp [nodes])
  · exact quoted_congr v h'

end Value

namespace Store

variable {s t : Store}

theorem className_congr {id : NodeId} (h : s.get? id = t.get? id) :
    s.className id = t.className id := by
  rw [className, className, h]

theorem typeName_congr (v : Value) (h : ∀ c ∈ v.nodes, s.get? c = t.get? c) :
    s.typeName v = t.typeName v := by
  cases v <;> try rfl
  exact className_congr (h _ (by simp [Value.nodes]))

theorem kindName_congr (v : Value) (h : ∀ c ∈ v.nodes, s.get? c = t.get? c) :
    s.kindName v = t.kindName v := by
  have hname := typeName_congr v h
  unfold kindName Value.longTypeName
  split <;> first | rfl | exact hname

theorem missingOfType_congr (name : String) : (ty : TypeForm Value) →
    (∀ c ∈ Value.typeNodes ty, s.get? c = t.get? c) →
    s.missingOfType ty name = t.missingOfType ty name
  | .annotated ty _, h => by
    simp only [missingOfType, missingOfType_congr name ty h]
  | .other v, h => by simp only [missingOfType, kindName_congr v h]
  | .union barred _, _ => by cases barred <;> rfl
  | .basic _, _ | .any, _ | .model _, _ | .list _, _ | .dict .., _ | .generic .., _
  | .reference _, _ => rfl

/-- The fault of a missing attribute depends on the rules in a value alone. -/
theorem missing_congr (v : Value) (name : String) (h : ∀ c ∈ v.nodes, s.get? c = t.get? c) :
    s.missing v name = t.missing v name := by
  have hkind := kindName_congr v h
  unfold missing
  split
  · exact missingOfType_congr name _ h
  · rfl
  · rw [hkind]

/-! ## Documents -/

variable {f g : NodeId → Except Fault Value}

theorem memberDocument_congr (v : Value) (h : ∀ c ∈ v.nodes, s.get? c = t.get? c ∧ f c = g c) :
    s.memberDocument f v = t.memberDocument g v := by
  have hmissing := missing_congr v "to_dict" fun c hc => (h c hc).1
  unfold memberDocument
  split
  · exact (h _ (by simp [Value.nodes])).2
  · rfl
  · rw [hmissing]

theorem propertyDocuments_congr (es : Entries Value Value)
    (h : ∀ c ∈ Value.nodesUnder es, s.get? c = t.get? c ∧ f c = g c) :
    s.propertyDocuments f es = t.propertyDocuments g es := by
  induction es with
  | nil => rfl
  | cons e es ih =>
    obtain ⟨k, v⟩ := e
    simp only [Value.nodesUnder, List.mem_append] at h
    rw [propertyDocuments, propertyDocuments,
      memberDocument_congr v fun c hc => h c (.inr (.inl hc)),
      ih fun c hc => h c (.inr (.inr hc))]

theorem childDocuments_congr (ids : List NodeId) (h : ∀ c ∈ ids, f c = g c) :
    childDocuments f ids = childDocuments g ids := by
  induction ids with
  | nil => rfl
  | cons id ids ih =>
    rw [childDocuments, childDocuments, h id (by simp), ih fun c hc => h c (by simp [hc])]

theorem additionalDocument_congr (v : Option Value)
    (h : ∀ c ∈ Value.nodesOf v.toList, f c = g c) :
    additionalDocument f v = additionalDocument g v := by
  unfold additionalDocument
  split
  · rw [h _ (by simp [Value.nodesOf, Value.nodes])]
  · rfl

theorem itemsDocument_congr (items : Items) (h : ∀ c ∈ items.children, f c = g c) :
    itemsDocument f items = itemsDocument g items := by
  cases items with
  | free => rfl
  | every child => rw [itemsDocument, itemsDocument, h child (by simp [Items.children])]
  | each children => rw [itemsDocument, itemsDocument, childDocuments_congr children h]

theorem objectDocument_congr (r : ObjectRule)
    (h : ∀ c ∈ r.references, s.get? c = t.get? c ∧ f c = g c) :
    s.objectDocument f r = t.objectDocument g r := by
  simp only [ObjectRule.references, List.mem_append] at h
  rw [objectDocument, objectDocument,
    propertyDocuments_congr r.properties fun c hc => h c (.inl hc),
    additionalDocument_congr r.additional fun c hc => (h c (.inr (.inr hc))).2]

theorem schemaDocument_congr (r : ObjectRule)
    (h : ∀ c ∈ r.references, s.get? c = t.get? c ∧ f c = g c) :
    s.schemaDocument f r = t.schemaDocument g r := by
  have hadd : ∀ c, r.additional = some (.node c) → f c = g c := fun c hc =>
    (h c (by simp [ObjectRule.references, hc, Value.nodesOf, Value.nodes])).2
  unfold schemaDocument
  split
  · exact hadd _ ‹_›
  · exact objectDocument_congr r h

theorem documentOf_congr (rule : Rule)
    (h : ∀ c ∈ rule.references, s.get? c = t.get? c ∧ f c = g c) :
    s.documentOf f rule = t.documentOf g rule := by
  cases rule with
  | string | number | boolean => rfl
  | array r =>
    have hitems := itemsDocument_congr r.items fun c hc => (h c (by simp [Rule.references, hc])).2
    simp only [documentOf, hitems]
  | object r =>
    have hr : ∀ c ∈ r.references, s.get? c = t.get? c ∧ f c = g c := fun c hc =>
      h c (by simp [Rule.references, hc])
    simp only [documentOf, objectDocument_congr r hr, schemaDocument_congr r hr]
  | combinator kind children =>
    have hchildren := childDocuments_congr children fun c hc =>
      (h c (by simp [Rule.references, hc])).2
    simp only [documentOf, hchildren]
  | negation child =>
    have hchild := (h child (by simp [Rule.references])).2
    simp only [documentOf, hchild]

end Store

/-! ## Texts -/

theorem Keyword.mem_member {k : Keyword} {v : Option Value} {e : String × Value}
    (h : e ∈ k.member v) : v = some e.2 := by
  cases v <;> simp_all [member]

/-- The values that a rule for texts shows are its parts. -/
theorem StringRule.mem_keywords {r : StringRule} {e : String × Value} (h : e ∈ r.keywords) :
    some e.2 ∈ (Rule.string r).parts := by
  simp only [keywords, List.mem_append] at h
  rcases h with (((h | h) | h) | h) | h <;> simp [Rule.parts, Keyword.mem_member h]

/-- The values that a rule for numbers shows are among its parts. -/
theorem NumberRule.mem_keywords {r : NumberRule} {e : String × Value} (h : e ∈ r.keywords) :
    some e.2 ∈ (Rule.number r).parts := by
  simp only [keywords, List.mem_append] at h
  rcases h with (h | h) | h
  · simp [Rule.parts, Keyword.mem_member h]
  · split at h
    · rcases List.mem_append.mp h with h | h <;> simp [Rule.parts, Keyword.mem_member h]
    · cases h
  · split at h
    · rcases List.mem_append.mp h with h | h <;> simp [Rule.parts, Keyword.mem_member h]
    · cases h

theorem mem_partEntry {name : String} {v : Option Value} {e : String × Value}
    (h : e ∈ partEntry name v) : v = some e.2 := by
  cases v <;> simp_all [partEntry]

section Texts

variable {plain plain' inner inner' : NodeId → Except Fault String}

theorem mapM_congr {α β ε : Type} {f g : α → Except ε β} (xs : List α)
    (h : ∀ x ∈ xs, f x = g x) : xs.mapM f = xs.mapM g := by
  induction xs with
  | nil => rfl
  | cons x xs ih =>
    rw [List.mapM_cons, List.mapM_cons, h x (by simp), ih fun y hy => h y (by simp [hy])]

theorem shownParts_congr (es : Entries String Value)
    (h : ∀ e ∈ es, ∀ c ∈ e.2.nodes, plain c = plain' c ∧ inner c = inner' c) :
    shownParts (Value.shown plain inner) es = shownParts (Value.shown plain' inner') es := by
  induction es with
  | nil => rfl
  | cons e es ih =>
    have he := h e (by simp)
    rw [shownParts, shownParts,
      Value.shown_congr e.2 (fun c hc => (he c hc).1) fun c hc => (he c hc).2,
      ih fun e' he' => h e' (by simp [he'])]

namespace Store

theorem itemsParts_congr (items : Items)
    (h : ∀ c ∈ items.children, plain c = plain' c ∧ inner c = inner' c) :
    itemsParts plain inner items = itemsParts plain' inner' items := by
  cases items with
  | free => rfl
  | every child => rw [itemsParts, itemsParts, (h child (by simp [Items.children])).1]
  | each children => rw [itemsParts, itemsParts, mapM_congr children fun c hc => (h c hc).2]

theorem propertyParts_congr (names : List Value)
    (h : ∀ c ∈ Value.nodesOf names, inner c = inner' c) :
    propertyParts inner names = propertyParts inner' names := by
  rw [propertyParts, propertyParts, Value.quotedAll_congr names h]

theorem childrenText_congr (detail : Bool) (children : List NodeId)
    (h : ∀ c ∈ children, plain c = plain' c) :
    childrenText plain detail children = childrenText plain' detail children := by
  rw [childrenText, childrenText, mapM_congr children h]

theorem mem_nodesOf_parts {rule : Rule} {v : Value} {c : NodeId} (hv : some v ∈ rule.parts)
    (hc : c ∈ v.nodes) : c ∈ rule.references := by
  refine List.mem_append_left _ (Value.mem_nodesOf.mpr ⟨v, ?_, hc⟩)
  exact List.mem_filterMap.mpr ⟨some v, hv, rfl⟩

/-- How a rule is shown depends on how the rules it refers to are shown. -/
theorem shownOf_congr (detail : Bool) (rule : Rule)
    (h : ∀ c ∈ rule.references, plain c = plain' c ∧ inner c = inner' c) :
    shownOf plain inner detail rule = shownOf plain' inner' detail rule := by
  cases rule with
  | string r =>
    have hparts := shownParts_congr r.keywords fun e he c hc =>
      h c (mem_nodesOf_parts (StringRule.mem_keywords he) hc)
    simp only [shownOf, hparts]
  | number r =>
    have hparts := shownParts_congr r.keywords fun e he c hc =>
      h c (mem_nodesOf_parts (NumberRule.mem_keywords he) hc)
    simp only [shownOf, hparts]
  | boolean allowed =>
    have hparts := shownParts_congr (allowedKeywords allowed) fun e he c hc =>
      h c (mem_nodesOf_parts (by simp [Rule.parts, Keyword.mem_member he]) hc)
    simp only [shownOf, hparts]
  | array r =>
    have hlengths := shownParts_congr (partEntry "min_items" r.minItems
        ++ partEntry "max_items" r.maxItems ++ partEntry "unique_items" r.uniqueItems)
      fun e he c hc => h c (mem_nodesOf_parts (by
        simp only [List.mem_append] at he
        rcases he with (he | he) | he <;> simp [Rule.parts, mem_partEntry he]) hc)
    have hadditional := shownParts_congr (partEntry "additional_items" r.additionalItems)
      fun e he c hc => h c (mem_nodesOf_parts (by simp [Rule.parts, mem_partEntry he]) hc)
    have hitems := itemsParts_congr r.items fun c hc => h c (by simp [Rule.references, hc])
    simp only [shownOf, hlengths, hadditional, hitems]
  | object r =>
    have hr : ∀ c ∈ r.references, plain c = plain' c ∧ inner c = inner' c := fun c hc =>
      h c (by simp [Rule.references, hc])
    simp only [ObjectRule.references, List.mem_append] at hr
    have hnames := propertyParts_congr r.properties.keys fun c hc => by
      obtain ⟨k, hk, hck⟩ := Value.mem_nodesOf.mp hc
      obtain ⟨e, he, rfl⟩ := List.mem_map.mp hk
      exact (hr c (.inl (Value.mem_nodesUnder.mpr ⟨e, he, .inl hck⟩))).2
    have hrest := shownParts_congr (partEntry "required" r.requiredPart
        ++ partEntry "additional_properties" r.additional) fun e he c hc => by
      rcases List.mem_append.mp he with he | he
      · rw [ObjectRule.nodes_requiredPart (mem_partEntry he)] at hc
        exact hr c (.inr (.inl hc))
      · exact hr c (.inr (.inr (by simp [mem_partEntry he, Value.nodesOf, hc])))
    simp only [shownOf, hnames, hrest]
  | combinator kind children =>
    have hchildren := childrenText_congr detail children fun c hc =>
      (h c (by simp [Rule.references, hc])).1
    simp only [shownOf, hchildren]
  | negation child =>
    have hchild := (h child (by simp [Rule.references])).1
    simp only [shownOf, hchild]

end Store

end Texts

/-! ## Results -/

section Results

variable {ε α β : Type}

/-- A computation in two parts gives what the second part makes of the first one's result. -/
theorem except_bind_eq_ok {x : Except ε α} {k : α → Except ε β} {b : β} :
    (x >>= k) = .ok b ↔ ∃ a, x = .ok a ∧ k a = .ok b := by
  cases x <;> simp [bind, Except.bind]

theorem except_map_eq_ok {x : Except ε α} {f : α → β} {b : β} :
    (f <$> x) = .ok b ↔ ∃ a, x = .ok a ∧ f a = b := by
  cases x <;> simp [Functor.map, Except.map]

end Results

/-! ## Readings -/

/-- Something that is computed for a rule from what is computed for the rules it refers to. -/
structure Reading (β : Type) where
  /-- What is read where there is no rule, or no fuel. -/
  bottom : β
  /-- What is read of a rule, given what is read of the rules it refers to. -/
  step : Store → (NodeId → β) → Rule → β
  /-- Only the rules that a rule refers to count. -/
  congr : ∀ {s t : Store} {f g : NodeId → β} (rule : Rule),
    (∀ c ∈ rule.references, s.get? c = t.get? c ∧ f c = g c) → step s f rule = step t g rule

namespace Reading

variable {β : Type}

/-- What is read at an address; `fuel` bounds how deep rules are nested. -/
def within (R : Reading β) (s : Store) : (fuel : Nat) → NodeId → β
  | 0, _ => R.bottom
  | fuel + 1, id =>
    match s.get? id with
    | none => R.bottom
    | some node => R.step s (R.within s fuel) node.rule

/-- Stores that agree on a rule give the same reading of it, with any fuel that suffices. -/
theorem within_eq (R : Reading β) {s t : Store} {m n : Nat} {id : NodeId} (h : s.Agree t id)
    (hm : s.Shallow m id) (hn : t.Shallow n id) : R.within s m id = R.within t n id := by
  induction m generalizing n id with
  | zero => exact absurd hm (by simp [Store.Shallow])
  | succ m ih =>
    cases n with
    | zero => exact absurd hn (by simp [Store.Shallow])
    | succ n =>
      have hid := h.self
      cases hnode : s.get? id with
      | none => rw [within, within, ← hid, hnode]
      | some node =>
        rw [within, within, ← hid, hnode]
        refine R.congr node.rule fun c hc => ?_
        have hs : c ∈ s.references id := Store.references_of_get? hnode ▸ hc
        have ht : c ∈ t.references id := Store.references_congr hid ▸ hs
        exact ⟨(h.child hs).self, ih (h.child hs) (hm c hs) (hn c ht)⟩

/-- What is read at an address. -/
def read (R : Reading β) (s : Store) (id : NodeId) : β := R.within s (s.size + 1) id

/-- Stores that agree on an acyclic rule give the same reading of it. -/
theorem read_congr (R : Reading β) {s t : Store} {id : NodeId} (hid : s.Acyclic id)
    (h : s.Agree t id) : R.read s id = R.read t id :=
  R.within_eq h hid.shallow (h.acyclic hid).shallow

/-- The reading of an acyclic rule is made from the readings of the rules it refers to. -/
theorem read_eq (R : Reading β) {s : Store} {id : NodeId} {node : Node}
    (hid : s.Acyclic id) (hnode : s.get? id = some node) :
    R.read s id = R.step s (R.read s) node.rule := by
  rw [read, within, hnode]
  refine R.congr node.rule fun c hc => ⟨rfl, ?_⟩
  have hc' : c ∈ s.references id := Store.references_of_get? hnode ▸ hc
  exact R.within_eq (fun _ _ => rfl) (hid.shallow c hc') (hid.child hc').shallow

/-- Rules of the same content have the same reading, wherever they are, if the stores agree on the
rules that they refer to. -/
theorem read_same (R : Reading β) {s t : Store} {m n : NodeId} {node : Node}
    (hm : s.get? m = some node) (hn : t.get? n = some node) (hs : s.Acyclic m) (ht : t.Acyclic n)
    (h : ∀ c ∈ node.rule.references, s.Agree t c) : R.read s m = R.read t n := by
  rw [R.read_eq hs hm, R.read_eq ht hn]
  refine R.congr node.rule fun c hc => ⟨(h c hc).self, R.read_congr (hs.child ?_) (h c hc)⟩
  rw [Store.references_of_get? hm]
  exact hc

end Reading

namespace Store

/-- Documents as a reading. -/
def documentReading : Reading (Except Fault Value) where
  bottom := .error .tooDeep
  step s := s.documentOf
  congr := documentOf_congr

/-- Texts, alone and in detail, as a reading. -/
def textReading : Reading (Bool → Except Fault String) where
  bottom _ := .error .tooDeep
  step _ shown rule detail := shownOf (shown · false) (shown · true) detail rule
  congr rule h := funext fun detail => shownOf_congr detail rule fun c hc =>
    ⟨congrFun (h c hc).2 false, congrFun (h c hc).2 true⟩

theorem documentWithin_eq (s : Store) (n : Nat) (id : NodeId) :
    s.documentWithin n id = documentReading.within s n id := by
  induction n generalizing id with
  | zero => rfl
  | succ n ih =>
    rw [documentWithin, Reading.within, show s.documentWithin n = documentReading.within s n from
      funext ih]
    rfl

theorem shownWithin_eq (s : Store) (n : Nat) (detail : Bool) (id : NodeId) :
    s.shownWithin n detail id = textReading.within s n id detail := by
  induction n generalizing id detail with
  | zero => rfl
  | succ n ih =>
    rw [shownWithin, Reading.within,
      show s.shownWithin n false = (textReading.within s n · false) from funext (ih false),
      show s.shownWithin n true = (textReading.within s n · true) from funext (ih true)]
    cases s.get? id <;> rfl

/-- Stores that agree on an acyclic rule give it the same document. -/
theorem document_congr {s t : Store} {id : NodeId} (hid : s.Acyclic id) (h : s.Agree t id) :
    s.document id = t.document id := by
  rw [document, document, documentWithin_eq, documentWithin_eq]
  exact documentReading.read_congr hid h

theorem nodeText_eq (s : Store) (id : NodeId) : s.nodeText id = textReading.read s id false := by
  rw [nodeText, shownWithin_eq]
  rfl

/-- Stores that agree on an acyclic rule show it alike. -/
theorem nodeText_congr {s t : Store} {id : NodeId} (hid : s.Acyclic id) (h : s.Agree t id) :
    s.nodeText id = t.nodeText id := by
  rw [nodeText_eq, nodeText_eq, textReading.read_congr hid h]

/-- The document of an acyclic rule, from the documents of the rules it refers to. -/
theorem document_eq {s : Store} {id : NodeId} {node : Node} (hid : s.Acyclic id)
    (hnode : s.get? id = some node) : s.document id = s.documentOf s.document node.rule := by
  have hread : s.document = documentReading.read s := funext fun x => s.documentWithin_eq _ x
  rw [hread]
  exact documentReading.read_eq hid hnode

end Store

end DraftSchema
