import DraftSchema.Proofs.Assembly
import DraftSchema.Proofs.Metaschema

/-!
# Documents that the draft allows

A tidy rule is written as a document that the draft allows exactly when it is filled and the rules
inside are written as such documents; so an acyclic rule of a tidy store is when all rules below are
filled. Assembled rules need not be: nothing is asked of how many rules a list has, or whether a number
is finite. What such a document is written as in JSON is JSON.
-/

namespace DraftSchema

open Draft04

/-- The texts, which names of properties are in documents. -/
def Value.IsText (v : Value) : Prop := ∃ s, v = .text s

/-- Distinct texts are different texts. -/
theorem texts_of_distinct {vs : List Value} (h : Distinct vs) (htext : ∀ v ∈ vs, v.IsText) :
    ∃ names : List String, vs = names.map .text ∧ names.Nodup := by
  induction vs with
  | nil => exact ⟨[], rfl, List.nodup_nil⟩
  | cons v vs ih =>
    obtain ⟨hv, hrest⟩ := List.pairwise_cons.mp h
    obtain ⟨name, rfl⟩ := htext v List.mem_cons_self
    obtain ⟨names, rfl, hnames⟩ := ih hrest fun x hx => htext x (List.mem_cons_of_mem _ hx)
    refine ⟨name :: names, rfl, List.nodup_cons.mpr ⟨fun hname => ?_, hnames⟩⟩
    have hne := hv _ (List.mem_map_of_mem hname)
    rw [Value.text_beq_text] at hne
    exact absurd rfl (of_decide_eq_false hne)

theorem nodesOf_texts {vs : List Value} (h : ∀ v ∈ vs, v.IsText) : Value.nodesOf vs = [] := by
  refine List.eq_nil_iff_forall_not_mem.mpr fun c hc => ?_
  obtain ⟨v, hv, hc⟩ := Value.mem_nodesOf.mp hc
  obtain ⟨name, rfl⟩ := h v hv
  cases hc

/-- Whatever document a rule has, it is allowed. -/
def Allows (f : NodeId → Except Fault Value) (c : NodeId) : Prop := ∀ d, f c = .ok d → Legal d

namespace Store

variable {bound : Nat} {s : Store} {f : NodeId → Except Fault Value}

theorem childDocuments_legal_iff {ids : List NodeId} {ds : List Value}
    (h : childDocuments f ids = .ok ds) :
    (ds = [] ↔ ids = []) ∧ ((∀ d ∈ ds, Legal d) ↔ ∀ c ∈ ids, Allows f c) := by
  induction ids generalizing ds with
  | nil =>
    cases h
    simp
  | cons c ids ih =>
    obtain ⟨d, hd, hrest⟩ := except_bind_eq_ok.mp h
    obtain ⟨ds', hds', hmade⟩ := except_bind_eq_ok.mp hrest
    cases hmade
    have hc : Legal d ↔ Allows f c := by simp [Allows, hd]
    simp [hc, (ih hds').2]

theorem itemsDocument_legal_iff {items : Items} {o : Option Value}
    (h : itemsDocument f items = .ok o)
    (hrecords : ∀ c ∈ items.children, ∀ ds, f c ≠ .ok (.listing ds)) :
    (∀ v, o = some v → v ≠ .listing [] ∧ Keyword.items.Inside Legal v) ↔
      items ≠ .each [] ∧ ∀ c ∈ items.children, Allows f c := by
  cases items with
  | free =>
    cases h
    simp [Items.children]
  | every child =>
    obtain ⟨d, hd, hmade⟩ := except_map_eq_ok.mp h
    cases hmade
    have hsingle : ∀ ds, d ≠ .listing ds := by
      rintro ds rfl
      exact hrecords child List.mem_cons_self ds hd
    simp [Items.children, Allows, Keyword.Inside, hd, hsingle]
  | each children =>
    obtain ⟨ds, hds, hmade⟩ := except_map_eq_ok.mp h
    cases hmade
    obtain ⟨hempty, hlegal⟩ := childDocuments_legal_iff hds
    simp [Items.children, Keyword.Inside, Value.listing, ← hlegal, hempty]

theorem propertyDocuments_legal_iff {es ds : Entries Value Value}
    (h : s.propertyDocuments f es = .ok ds)
    (hes : ∀ k v, (k, v) ∈ es → k.IsText ∧ ∃ c, v = .node c) :
    ∃ ps : Entries String Value, Value.mapping ds = .record ps ∧ ps.keys.map .text = es.keys ∧
      ((∀ e ∈ ps, Legal e.2) ↔ ∀ c ∈ Value.nodesUnder es, Allows f c) := by
  induction es generalizing ds with
  | nil =>
    cases h
    exact ⟨[], rfl, rfl, by simp [Value.nodesUnder]⟩
  | cons e es ih =>
    obtain ⟨k, v⟩ := e
    obtain ⟨⟨name, rfl⟩, c, rfl⟩ := hes k v List.mem_cons_self
    obtain ⟨d, hd, hrest⟩ := except_bind_eq_ok.mp h
    obtain ⟨ds', hds', hmade⟩ := except_bind_eq_ok.mp hrest
    cases hmade
    obtain ⟨ps, hps, hkeys, hlegal⟩ := ih hds' fun k v hv => hes k v (List.mem_cons_of_mem _ hv)
    cases hps
    have hd : f c = .ok d := hd
    refine ⟨(name, d) :: ps, rfl, by rw [Entries.keys_cons, Entries.keys_cons, List.map_cons, hkeys], ?_⟩
    have hc : Legal d ↔ Allows f c := by simp [Allows, hd]
    simp only [Value.nodesUnder, Value.nodes, List.nil_append, List.cons_append, List.forall_mem_cons,
      hc, hlegal]

section

variable {r : ObjectRule} {d : Value}
  (hproperties : ∀ k v, (k, v) ∈ r.properties → k.IsText ∧ ∃ c, v = .node c)
  (hadditional : ∀ v, r.additional = some v → ∃ c, v = .node c) (htexts : ∀ k ∈ r.required, k.IsText)
  (hkeys : Distinct r.properties.keys) (hrequired : Distinct r.required)

include hproperties hadditional htexts hkeys hrequired

theorem objectDocument_legal_iff (h : s.objectDocument f r = .ok d) :
    Legal d ↔ ∀ c ∈ r.references, Allows f c := by
  obtain ⟨ds, hds, hrest⟩ := except_bind_eq_ok.mp h
  obtain ⟨o, ho, hmade⟩ := except_bind_eq_ok.mp hrest
  obtain ⟨ps, hps, hnames, hlegal⟩ := propertyDocuments_legal_iff hds hproperties
  obtain ⟨names, hnames', hdistinct⟩ := texts_of_distinct hrequired htexts
  have hnodup : ps.keys.Nodup := by
    obtain ⟨texts, htexts, hnodup⟩ := texts_of_distinct hkeys fun k hk => by
      obtain ⟨v, hv⟩ := Entries.mem_keys.mp hk
      exact (hproperties k v hv).1
    have hsame : ps.keys = texts :=
      List.map_injective_iff.mpr (fun _ _ => Value.text.inj) (hnames.trans htexts)
    exact hsame ▸ hnodup
  have ho' : (∀ x, o = some x → Legal x) ↔ ∀ c ∈ Value.nodesOf r.additional.toList, Allows f c := by
    cases hr : r.additional with
    | none =>
      rw [hr] at ho
      cases ho
      simp [Value.nodesOf]
    | some v =>
      obtain ⟨c, rfl⟩ := hadditional v hr
      rw [hr] at ho
      obtain ⟨x, hx, hmade⟩ := except_map_eq_ok.mp ho
      cases hmade
      simp [Value.nodesOf, Value.nodes, Allows, hx]
  have hobject := @legal_object_iff r ps names o hnodup hnames' hdistinct
  rw [hlegal, ho'] at hobject
  cases hmade
  rw [hps, ObjectRule.references, nodesOf_texts htexts, List.nil_append,
    List.forall_mem_append, ← hobject]
  simp only [written, List.flatMap_cons, List.flatMap_nil, List.append_nil, List.append_assoc]

theorem schemaDocument_legal_iff (h : s.schemaDocument f r = .ok d) :
    Legal d ↔ ∀ c ∈ r.references, Allows f c := by
  unfold schemaDocument at h
  split at h
  · rename_i c hnil hc
    simp [ObjectRule.references, hnil, hc, nodesOf_texts htexts, Value.nodesUnder, Value.nodesOf,
      Value.nodes, Allows, h]
  · exact objectDocument_legal_iff hproperties hadditional htexts hkeys hrequired h

/-- Whatever the kind of an object rule, its document is allowed if those inside are. -/
theorem builderDocument_legal_iff (h : s.documentOf f (.object r) = .ok d) :
    Legal d ↔ ∀ c ∈ r.references, Allows f c := by
  simp only [documentOf] at h
  split at h
  · exact objectDocument_legal_iff hproperties hadditional htexts hkeys hrequired h
  · exact schemaDocument_legal_iff hproperties hadditional htexts hkeys hrequired h
  · obtain ⟨inner, hinner, hmade⟩ := except_bind_eq_ok.mp h
    cases hmade
    rw [legal_dictionary_iff]
    exact schemaDocument_legal_iff hproperties hadditional htexts hkeys hrequired hinner

end

/-- The document of a tidy rule is allowed exactly when the rule is filled and the documents of the
rules inside are allowed. -/
theorem documentOf_legal_iff {rule : Rule} {d : Value} (h : rule.Tidy Value.IsText bound)
    (hdistinct : ∀ r, rule = .object r → Distinct r.properties.keys ∧ Distinct r.required)
    (hrecords : ∀ c ∈ rule.references, ∀ ds, f c ≠ .ok (.listing ds))
    (hd : s.documentOf f rule = .ok d) :
    Legal d ↔ rule.Filled ∧ ∀ c ∈ rule.references, Allows f c := by
  have halone : ∀ {rule : Rule} {p : Prop}, rule.references = [] → (p ↔ rule.Filled) →
      (p ↔ rule.Filled ∧ ∀ c ∈ rule.references, Allows f c) := by
    intro rule p hnone hp
    simpa [hnone] using hp
  cases h with
  | pattern source =>
    cases hd
    exact halone rfl (iff_of_true (legal_pattern source) trivial)
  | literal t =>
    cases hd
    exact halone rfl (iff_of_true (legal_enum (by decide) (.text t)) trivial)
  | truth b =>
    cases hd
    exact halone rfl (iff_of_true (legal_enum (by decide) (.bool b)) trivial)
  | @number b least most =>
    cases hd
    exact halone (Construction.references_ofBounds (Value.nodes_of_bound least)
      (Value.nodes_of_bound most)) (legal_number_iff b)
  | @array b items known =>
    obtain ⟨o, ho, hmade⟩ := except_bind_eq_ok.mp hd
    cases hmade
    have hrefs : (Rule.array { ArrayRule.ofLengths b with items }).references = items.children := by
      obtain ⟨least, most⟩ := b
      cases least <;> cases most <;> rfl
    have harray := legal_array_iff (b := b) (o := o)
    rw [itemsDocument_legal_iff ho (hrefs ▸ hrecords)] at harray
    rw [hrefs]
    simpa [written, Keyword.member, Rule.Filled, ArrayRule.ofLengths, ArrayRule.any] using harray
  | @object r properties additional required covered =>
    obtain ⟨hkeys, hrequired⟩ := hdistinct r rfl
    have hproperties : ∀ k v, (k, v) ∈ r.properties → k.IsText ∧ ∃ c, v = .node c := by
      intro k v hv
      obtain ⟨hk, c, -, hc⟩ := properties k v hv
      exact ⟨hk, c, hc⟩
    have hadditional : ∀ v, r.additional = some v → ∃ c, v = .node c := by
      intro v hv
      obtain ⟨c, -, hc⟩ := additional v hv
      exact ⟨c, hc⟩
    have hfilled : (Rule.object r).Filled ∧ (∀ c ∈ (Rule.object r).references, Allows f c) ↔
        ∀ c ∈ r.references, Allows f c := by
      simp [Rule.Filled, Rule.references, Rule.parts, Value.nodesOf]
    rw [hfilled]
    exact builderDocument_legal_iff hproperties hadditional required hkeys hrequired hd
  | @combinator kind children written known =>
    obtain ⟨ds, hds, hmade⟩ := except_bind_eq_ok.mp hd
    cases hmade
    obtain ⟨hempty, hlegal⟩ := childDocuments_legal_iff hds
    rw [legal_combinator_iff written, hlegal, Ne, hempty]
    rfl
  | @negation child known =>
    obtain ⟨e, he, hmade⟩ := except_bind_eq_ok.mp hd
    cases hmade
    rw [legal_negation_iff]
    simp [Rule.Filled, Rule.references, Rule.parts, Value.nodesOf, Allows, he]

/-- No object has two properties of one name, or requires a name twice. -/
def Single (s : Store) : Prop :=
  ∀ x r, s.object? x = some r → Distinct r.properties.keys ∧ Distinct r.required

/-- The document of an acyclic rule of a tidy store is allowed exactly when all rules below are
filled. -/
theorem Tidy.legal_iff (h : s.Tidy Value.IsText) (hsingle : s.Single) {id : NodeId}
    (ha : s.Acyclic id) {d : Value} (hd : s.document id = .ok d) :
    Legal d ↔ ∀ x node, s.Reaches id x → s.get? x = some node → node.rule.Filled := by
  have hshaped : ∀ c e, s.Acyclic c → s.document c = .ok e → Shaped e := by
    intro c e hc he
    obtain ⟨found, hfound, hshaped⟩ := h.document (lt_size_of_documentWithin he) hc
    cases hfound.symm.trans he
    exact hshaped
  obtain ⟨n, hn⟩ := ha
  induction n generalizing id d with
  | zero => exact absurd hn (by simp [Shallow])
  | succ n ih =>
    have hlt := lt_size_of_documentWithin hd
    obtain ⟨node, hnode⟩ : ∃ node, s.get? id = some node := ⟨_, List.getElem?_eq_getElem hlt⟩
    have hchild : ∀ c ∈ node.rule.references, s.Shallow n c :=
      fun c hc => hn c (references_of_get? hnode ▸ hc)
    rw [document_eq ⟨n + 1, hn⟩ hnode] at hd
    have hiff : Legal d ↔ node.rule.Filled ∧ ∀ c ∈ node.rule.references, Allows s.document c := by
      refine documentOf_legal_iff (h id node hnode) (fun r hr => ?_) (fun c hc ds hds => ?_) hd
      · obtain ⟨rule, required⟩ := node
        exact hsingle id r (object?_eq_some.mpr ⟨required, hr ▸ hnode⟩)
      · cases hshaped c _ ⟨n, hchild c hc⟩ hds
    rw [hiff]
    constructor
    · rintro ⟨hfilled, hallows⟩ x node' hx hnode'
      cases hx with
      | refl =>
        cases hnode.symm.trans hnode'
        exact hfilled
      | @step _ c _ hc hx =>
        rw [references_of_get? hnode] at hc
        cases hdocument : s.document c with
        | ok e => exact (ih hdocument (hchild c hc)).mp (hallows c hc e hdocument) x node' hx hnode'
        | error f =>
          -- there is no rule at the address, and so none below it
          exfalso
          have hc' : c < s.size := by
            cases hx with
            | refl => exact lt_size_of_get? hnode'
            | step hmem => exact lt_size_of_mem_references hmem
          obtain ⟨e, he, -⟩ := h.document hc' ⟨n, hchild c hc⟩
          cases hdocument.symm.trans he
    · intro hall
      refine ⟨hall id node (.refl id) hnode, fun c hc e he => ?_⟩
      refine (ih he (hchild c hc)).mpr fun x node' hx => ?_
      exact hall x node' (.step (references_of_get? hnode ▸ hc) hx)

theorem single_empty : Store.Single {} := by
  intro x r h
  cases h

theorem Single.alloc {rule : Rule} {required : Value} (h : s.Single)
    (hrule : ∀ r, rule = .object r → Distinct r.properties.keys ∧ Distinct r.required) :
    (s.alloc ⟨rule, required⟩).1.Single := by
  intro x r hr
  rcases object?_of_alloc hr with ⟨-, hobject⟩ | hr
  · exact hrule r hobject
  · exact h x r hr

theorem Single.enlarged {s' : Store} (h : s.Single) (henlarged : s.Enlarged s') : s'.Single := by
  intro x r' hr'
  cases hr : s.object? x with
  | none =>
    obtain ⟨-, hmade⟩ := henlarged.made x r' hr hr'
    exact ⟨hmade.single .nil, hmade.distinct .nil⟩
  | some r =>
    obtain ⟨found, hfound, hkept⟩ := henlarged.kept x r hr
    cases hfound.symm.trans hr'
    obtain ⟨hkeys, hrequired⟩ := h x r hr
    exact ⟨hkept.single hkeys, hkept.distinct hrequired⟩

end Store

/-- Assembled objects are single. -/
theorem Assembly.single {call : Caller} {names : Value → Prop} {w : Workspace}
    (h : Assembly call names w) : w.store.Single := by
  induction h with
  | start empty =>
    rw [empty]
    exact Store.single_empty
  | aside _ same ih =>
    rw [same]
    exact ih
  | construct given described _ known put ih =>
    cases put
    refine ih.alloc fun r hr => ?_
    subst hr
    obtain ⟨kind, -, rfl⟩ := Construction.builderRule_of_ruleFrom described given
    exact ⟨.nil, .nil⟩
  | compile described _ put ih =>
    cases put
    refine ih.alloc fun r hr => ?_
    subst hr
    exact absurd described Construction.ruleOf_ne_object
  | add resolved _ known named ih => exact ih.enlarged (Builder.enlarged_add resolved)

/-! ## Texts of documents that are allowed -/

namespace Json

variable {f : Value → String} {layout : Layout}

theorem chars_of_elementChars {depth : Nat} {xs : List Value} {parts : List (List Char)}
    (h : elementChars f layout depth xs = .ok parts) {x : Value} (hx : x ∈ xs) :
    ∃ cs, chars f layout depth x = .ok cs := by
  induction xs generalizing parts with
  | nil => cases hx
  | cons y xs ih =>
    rw [elementChars] at h
    obtain ⟨cs, hcs, h⟩ := except_bind_eq_ok.mp h
    obtain ⟨rest, hrest, -⟩ := except_bind_eq_ok.mp h
    rcases List.mem_cons.mp hx with rfl | hx
    · exact ⟨cs, hcs⟩
    · exact ih hrest hx

theorem chars_of_memberChars {depth : Nat} {es : Entries Value Value} {parts : List (List Char)}
    (h : memberChars f layout depth es = .ok parts) {e : Value × Value} (he : e ∈ es) :
    ∃ cs, chars f layout depth e.2 = .ok cs := by
  induction es generalizing parts with
  | nil => cases he
  | cons e' es ih =>
    obtain ⟨k, v⟩ := e'
    rw [memberChars] at h
    obtain ⟨name, -, h⟩ := except_bind_eq_ok.mp h
    obtain ⟨cs, hcs, h⟩ := except_bind_eq_ok.mp h
    obtain ⟨rest, hrest, -⟩ := except_bind_eq_ok.mp h
    rcases List.mem_cons.mp he with rfl | he
    · exact ⟨cs, hcs⟩
    · exact ih hrest he

/-- What is written of a list is written of its elements. -/
theorem chars_of_listing {depth : Nat} {xs : List Value} {cs : List Char}
    (h : chars f layout depth (.listing xs) = .ok cs) {x : Value} (hx : x ∈ xs) :
    ∃ cs, chars f layout (depth + 1) x = .ok cs := by
  rw [Value.listing, chars] at h
  obtain ⟨parts, hparts, -⟩ := except_bind_eq_ok.mp h
  exact chars_of_elementChars hparts hx

/-- What is written of a document is written of its members. -/
theorem chars_of_record {depth : Nat} {members : Entries String Value} {cs : List Char}
    (h : chars f layout depth (.record members) = .ok cs) {e : String × Value} (he : e ∈ members) :
    ∃ cs, chars f layout (depth + 1) e.2 = .ok cs := by
  rw [Value.record, chars] at h
  obtain ⟨parts, hparts, -⟩ := except_bind_eq_ok.mp h
  exact chars_of_memberChars hparts (List.mem_map_of_mem (f := fun e => (Value.text e.1, e.2)) he)

theorem isJson_of_isNumber {depth : Nat} {v : Value} {cs : List Char} (hv : v.IsNumber)
    (h : chars f layout depth v = .ok cs) : v.IsJson := by
  obtain ⟨hbound, q, hq⟩ := hv
  cases v with
  | int n => 
    rw [chars] at h
    exact .int (Whole.chars_eq_ok_iff.mp h).1
  | float x =>
    refine .float ?_
    cases x with
    | nan payload => cases hq
    | infinity negative => cases negative <;> cases hq
    | finite => rfl
  | _ => cases hbound

/-- A document that the draft allows consists of what JSON has as soon as it can be written. -/
theorem isJson_of_legal {d : Value} (hd : Legal d) {depth : Nat} {cs : List Char}
    (h : chars f layout depth d = .ok cs) : d.IsJson := by
  induction hd generalizing depth cs with
  | @mk members lawful parts ih =>
    refine .dict lawful.distinct fun e he => ?_
    obtain ⟨name, v⟩ := e
    obtain ⟨k, hk⟩ := lawful.known _ he
    cases hk
    obtain ⟨cs, hcs⟩ := chars_of_record h he
    have htakes := lawful.takes k v he
    have hall : ∀ {ds : List Value}, v = .listing ds → (∀ x ∈ ds, Part members x) → v.IsJson := by
      rintro ds rfl hds
      refine .list fun x hx => ?_
      obtain ⟨cs, hcs⟩ := chars_of_listing hcs hx
      exact ih x (hds x hx) hcs
    have hchoice : k = .anyOf ∨ k = .oneOf ∨ k = .allOf → ∀ {ds}, v = .listing ds → v.IsJson := by
      rintro hk ds rfl
      exact hall rfl fun x hx => .choice hk he hx
    cases k with
    | schema | pattern | format =>
      obtain ⟨s, rfl⟩ := htakes
      exact .text s
    | type =>
      obtain ⟨type, -, rfl⟩ := htakes
      exact .text type
    | minimum | maximum => exact isJson_of_isNumber htakes hcs
    | multipleOf => exact isJson_of_isNumber htakes.1 hcs
    | exclusiveMinimum | exclusiveMaximum | uniqueItems | additionalItems =>
      obtain ⟨b, rfl⟩ := htakes
      exact .bool b
    | minLength | maxLength | minItems | maxItems =>
      obtain ⟨n, rfl⟩ := htakes
      rw [chars] at hcs
      exact .int (Whole.chars_eq_ok_iff.mp hcs).1
    | items =>
      by_cases hlist : ∃ ds, v = .listing ds
      · obtain ⟨ds, rfl⟩ := hlist
        exact hall rfl fun x hx => .each he hx
      · exact ih v (.every he fun ds hds => hlist ⟨ds, hds⟩) hcs
    | allOf | anyOf | oneOf =>
      obtain ⟨ds, hds, -⟩ := htakes
      exact hchoice (by simp) hds
    | required =>
      obtain ⟨names, rfl, -⟩ := htakes
      refine .list fun x hx => ?_
      obtain ⟨name, -, rfl⟩ := List.mem_map.mp hx
      exact .text name
    | enum =>
      obtain ⟨vs, rfl, -, -, hvs⟩ := htakes
      exact .list hvs
    | properties =>
      obtain ⟨es, rfl, hdistinct⟩ := htakes
      refine .dict hdistinct fun e hmem => ?_
      obtain ⟨cs, hcs⟩ := chars_of_record hcs hmem
      exact ih _ (.property he (List.mem_map_of_mem (f := fun e => (Value.text e.1, e.2)) hmem)) hcs
    | additionalProperties => exact ih v (.additional he) hcs
    | not => exact ih v (.negated he) hcs

/-- A width gives a layout with blanks alone, as does a text of blanks. -/
theorem blank_of_ofIndent {kindName : Value → String} {indent : Value} {layout : Layout}
    (h : Layout.ofIndent kindName indent = .ok layout)
    (hindent : ∀ s, indent = .text s → Blanks s.toList) : layout.Blank := by
  unfold Layout.ofIndent at h
  split at h
  · cases h
    trivial
  · cases h
    exact hindent _ rfl
  · split at h
    · cases h
    · split at h
      · cases h
      · split at h
        · cases h
        · cases h
          intro c hc
          rw [List.eq_of_mem_replicate hc]
          rfl

end Json

/-! ## Builders -/

namespace Builder

open Build

variable {call : Caller} {w : Workspace} {id : NodeId}

/-- The document of an assembled rule that is acyclic is one that the draft allows exactly when all
rules below are filled. If it is a builder, the same is true of what it is built to, and then its JSON
texts are read back as JSON. -/
theorem document_legal_iff (h : Assembly call Value.IsText w) (hid : id < w.store.size)
    (ha : w.store.Acyclic id) :
    ∃ members, w.store.document id = .ok (.record members) ∧
      (Legal (.record members) ↔
        ∀ x node, w.store.Reaches id x → w.store.get? x = some node → node.rule.Filled) ∧
      (isBuilder w.store id = true → ∃ built w₁, build id w = .ok built w₁ ∧
        built = .record ((Keyword.schema.text, .text draft04) :: members) ∧
        (Legal built ↔ Legal (.record members)) ∧
        (Legal built → ∀ indent text w₂, (∀ s, indent = .text s → Json.Blanks s.toList) →
          json id indent w = .ok text w₂ → Json.read? text = some built.copy)) := by
  obtain ⟨members, hdocument, hshaped, hbuild⟩ := document_shaped h hid ha
  refine ⟨members, hdocument, h.tidy.legal_iff h.single ha hdocument, fun hbuilder => ?_⟩
  obtain ⟨w₁, hbuilt⟩ := hbuild (fun k hk => by
    obtain ⟨s, rfl⟩ := hk
    exact Value.showable_text s) hbuilder
  refine ⟨_, w₁, hbuilt, rfl, legal_drafted_iff hshaped.shape.undrafted, ?_⟩
  intro hlegal indent text w₂ hindent hjson
  have hresult : (json id indent).result w = .ok text := by rw [result, hjson]
  rw [result_json, result, hbuilt] at hresult
  obtain ⟨d, hd, hresult⟩ := except_bind_eq_ok.mp hresult
  cases hd
  obtain ⟨layout, hlayout, hwrite⟩ := except_bind_eq_ok.mp hresult
  obtain ⟨cs, hcs, -⟩ := except_map_eq_ok.mp hwrite
  obtain ⟨found, hfound, hread⟩ := Json.read?_write (Json.isJson_of_legal hlegal hcs)
    w.store.typeName (Json.blank_of_ofIndent hlayout hindent)
  cases hfound.symm.trans hwrite
  exact hread

/-- A first call with a path of two names. -/
theorem document_legal_nested :
    ∃ w members w₁ text w₂, add Build.call 0 (.list 0 [.text "a", .text "b"]) (.int 1) alone = .ok () w ∧
      w.store.document 0 = .ok (.record members) ∧ Legal (.record members) ∧
      build 0 w = .ok (.record ((Keyword.schema.text, .text draft04) :: members)) w₁ ∧
      json 0 .null w = .ok text w₂ ∧
      Json.read? text = some (Value.copy (.record ((Keyword.schema.text, .text draft04) :: members))) := by
  obtain ⟨w, w₁, text, w₂, hadd, hres, hjson, hknown, hid, hbuilder, hacyclic, r, r', flag,
      flag', flag'', hnodes⟩ :
      ∃ w w₁ text w₂,
        add Build.call 0 (.list 0 [.text "a", .text "b"]) (.int 1) alone = .ok () w ∧
        resolve Build.call (.list 0 [.text "a", .text "b"]) (.int 1) alone
          = .ok ([.text "a", .text "b"], 1) w₁ ∧ json 0 .null w = .ok text w₂ ∧
        1 < w₁.store.size ∧ 0 < w.store.size ∧ isBuilder w.store 0 = true ∧ w.store.Acyclic 0 ∧
        ∃ r r' flag flag' flag'', w.store.nodes = [⟨.object r, flag⟩,
          ⟨.number (.ofBounds ⟨.int 1, .int 1, .bool false, .bool false, .bool false⟩), flag'⟩,
          ⟨.object r', flag''⟩] :=
    ⟨_, _, _, _, rfl, rfl, rfl, by decide, by decide, rfl,
      Store.acyclic_of_rank (fun id => if id = 0 then 2 else if id = 2 then 1 else 0) (by decide) 0,
      _, _, _, _, _, rfl⟩
  have htexts : ∀ k ∈ [Value.text "a", .text "b"], k.IsText := by
    intro k hk
    simp only [List.mem_cons, List.not_mem_nil, or_false] at hk
    rcases hk with rfl | rfl <;> exact ⟨_, rfl⟩
  have hcourse : Assembly Build.call Value.IsText
      ((add Build.call 0 (.list 0 [.text "a", .text "b"]) (.int 1)).after alone) :=
    .add hres ((assembly_alone Value.IsText).resolve rfl rfl hres) hknown htexts
  rw [after_of_ok hadd] at hcourse
  have hfilled : ∀ x node, w.store.get? x = some node → node.rule.Filled := by
    intro x node hnode
    have hmem : node ∈ w.store.nodes := List.mem_of_getElem? hnode
    rw [hnodes] at hmem
    simp only [List.mem_cons, List.not_mem_nil, or_false] at hmem
    rcases hmem with rfl | rfl | rfl
    · trivial
    · rintro v (hv | hv) <;> cases hv <;> exact ⟨rfl, 1, rfl⟩
    · trivial
  obtain ⟨members, hdocument, hiff, hbuild⟩ := document_legal_iff hcourse hid hacyclic
  obtain ⟨built, w₃, hbuilt, rfl, hdrafted, hread⟩ := hbuild hbuilder
  have hlegal := hiff.mpr fun x node _ => hfilled x node
  exact ⟨w, members, w₃, text, w₂, hadd, hdocument, hlegal, hbuilt, hjson,
    hread (hdrafted.mpr hlegal) .null text w₂ nofun hjson⟩

/-- A combination of no rules, an array whose elements are listed by no rules, and an infinite number are
all accepted; the document then is none that the draft allows, and its text may be no JSON. -/
theorem document_illegal :
    (∃ w, Construction.construct Build.call .anyOf [(.schemas, .list 0 [])] {} = .ok 0 w ∧
      w.store.document 0 = .ok (.record [("anyOf", .listing [])]) ∧
      ¬ Legal (.record [("anyOf", .listing [])])) ∧
    (∃ w, Construction.construct Build.call .array [(.items, .list 0 [])] {} = .ok 0 w ∧
      w.store.document 0 = .ok (.record [("type", .text "array"), ("items", .listing [])]) ∧
      ¬ Legal (.record [("type", .text "array"), ("items", .listing [])])) ∧
    ∃ w text w' d, add Build.call 0 (.list 0 [.text "x"]) (.float (.infinity false)) alone = .ok () w ∧
      w.store.document 0 = .ok d ∧ ¬ Legal d ∧
      json 0 .null w = .ok text w' ∧ Json.read? text = none := by
  refine ⟨⟨_, rfl, rfl, ?_⟩, ⟨_, rfl, rfl, ?_⟩, ?_⟩
  · exact fun h => ((@legal_combinator_iff .anyOf [] nofun).mp h).1 rfl
  · intro h
    have harray := (legal_array_iff (b := ⟨none, none⟩) (o := some (.listing []))).mp h
    exact (harray _ rfl).1 rfl
  · obtain ⟨w, text, w', hadd, hdocument, hjson, hread⟩ : ∃ w text w',
        add Build.call 0 (.list 0 [.text "x"]) (.float (.infinity false)) alone = .ok () w ∧
        w.store.document 0 = .ok (.record [("type", .text "object"),
          ("properties", .record [("x", .record [("type", .text "number"),
            ("minimum", .float (.infinity false)), ("maximum", .float (.infinity false))])]),
          ("required", .listing [.text "x"])]) ∧
        json 0 .null w = .ok text w' ∧ Json.read? text = none :=
      ⟨_, _, _, rfl, rfl, rfl, by decide +kernel⟩
    refine ⟨w, text, w', _, hadd, hdocument, fun h => ?_, hjson, hread⟩
    have hproperty := (legal_record_iff.mp h).2 _ (.property (.tail _ (.head _)) (.head _))
    have htakes := (legal_record_iff.mp hproperty).1.takes .minimum _ (.tail _ (.head _))
    obtain ⟨-, q, hq⟩ := htakes
    cases hq

end Builder

end DraftSchema
