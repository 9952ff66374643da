import DraftSchema.Node.Path
import DraftSchema.Proofs.Turning

/-!
# Rules in which an argument is turned round

The argument of a predicate may stand in rules as well. Where it is turned round in all of them, rules
keep their classes and their texts, and are equal to what they were equal to; it is turned round in
their documents, and nowhere else.
-/

namespace DraftSchema

open Value

variable {own : Nat}

/-! ## Computations apart -/

/-- A computation in two parts with a result that is changed in each of them. -/
theorem except_bind_map {α β γ δ : Type} {x : Except Fault α} {f : α → β} {k : α → Except Fault γ}
    {l : β → Except Fault δ} {g : γ → δ} (h : ∀ a, l (f a) = g <$> k a) :
    (f <$> x) >>= l = g <$> (x >>= k) := by
  cases x with
  | ok a => exact h a
  | error e => rfl

/-! ## Rules -/

/-- An object rule in which an argument is turned round. -/
def ObjectRule.turned (own : Nat) (r : ObjectRule) : ObjectRule :=
  { r with
    model := r.model.turned own
    properties := turnedEntries own r.properties
    required := turnedAll own r.required
    additional := r.additional.map (Value.turned own) }

/-- A rule in which an argument is turned round. -/
def Rule.turned (own : Nat) : Rule → Rule
  | .object r => .object (r.turned own)
  | rule => rule.mapValues (Value.turned own)

def Node.turned (own : Nat) (node : Node) : Node :=
  ⟨node.rule.turned own, node.required.turned own⟩

/-- A store in which an argument is turned round. -/
def Store.turned (own : Nat) (s : Store) : Store := ⟨s.nodes.map (Node.turned own)⟩

/-- Members of a document in which an argument is turned round. -/
def turnedMembers (own : Nat) (es : Entries String Value) : Entries String Value :=
  es.map fun e => (e.1, e.2.turned own)

theorem turned_record (es : Entries String Value) :
    (Value.record es).turned own = .record (turnedMembers own es) := by
  simp [Value.record, turned, turnedEntries_eq_map, turnedMembers]

theorem turned_typedDocument (type : String) (es : Entries String Value) :
    (typedDocument type es).turned own = typedDocument type (turnedMembers own es) :=
  turned_record _

theorem turnedMembers_append (es ds : Entries String Value) :
    turnedMembers own (es ++ ds) = turnedMembers own es ++ turnedMembers own ds :=
  List.map_append

theorem turnedMembers_member (k : Keyword) (part : Option Value) :
    turnedMembers own (k.member part) = k.member (part.map (Value.turned own)) := by
  cases part <;> rfl

theorem turned_listing (xs : List Value) :
    (Value.listing xs).turned own = .listing (xs.map (Value.turned own)) := by
  rw [Value.listing, turned, turnedAll_eq_map, Value.listing]

theorem map_listing_turned (allowed : Option (List Value)) :
    (allowed.map (·.map (Value.turned own))).map Value.listing
      = (allowed.map Value.listing).map (Value.turned own) := by
  cases allowed with
  | none => rfl
  | some xs => exact congrArg some (turned_listing xs).symm

/-! ## What a rule looks like -/

@[simp] theorem nodeClass_turned (rule : Rule) : (rule.turned own).nodeClass = rule.nodeClass := by
  cases rule <;> rfl

namespace Store

variable (s : Store)

@[simp] theorem size_turned : (s.turned own).size = s.size := List.length_map _

theorem get?_turned (id : NodeId) :
    (s.turned own).get? id = (s.get? id).map (Node.turned own) :=
  List.getElem?_map

theorem object?_turned (id : NodeId) :
    (s.turned own).object? id = (s.object? id).map (ObjectRule.turned own) := by
  unfold object?
  rw [get?_turned]
  cases s.get? id with
  | none => rfl
  | some node =>
    obtain ⟨rule, required⟩ := node
    cases rule <;> rfl

@[simp] theorem className_turned : (s.turned own).className = s.className := by
  funext id
  unfold className
  rw [get?_turned]
  cases s.get? id with
  | none => rfl
  | some node => exact congrArg NodeClass.name (nodeClass_turned node.rule)

@[simp] theorem typeName_turned (v : Value) :
    (s.turned own).typeName (v.turned own) = s.typeName v := by
  rw [typeName, className_turned, Value.typeName_turned, typeName]

@[simp] theorem kindName_turned (v : Value) :
    (s.turned own).kindName (v.turned own) = s.kindName v := by
  rw [kindName, className_turned, Value.longTypeName_turned, kindName]

/-- The names of types are those of the classes of rules. -/
theorem kindName_turned_store : (s.turned own).kindName = s.kindName := by
  funext v
  rw [kindName, className_turned, kindName]

theorem missingOfType_turned (name : String) : (t : TypeForm Value) →
    (s.turned own).missingOfType (turnedType own t) name = s.missingOfType t name
  | .annotated t _ => by
    simp only [turnedType, missingOfType, missingOfType_turned name t]
  | .union barred _ => by cases barred <;> rfl
  | .other v => by simp only [turnedType, missingOfType, kindName_turned]
  | .basic _ | .any | .model _ | .list _ | .dict .. | .generic .. | .reference _ => rfl

@[simp] theorem missing_turned (v : Value) (name : String) :
    (s.turned own).missing (v.turned own) name = s.missing v name := by
  have hkind := @Store.kindName_turned own s v
  cases v with
  | type t => exact missingOfType_turned s name t
  | nodeClass c => rfl
  | _ => exact congrArg (fun kind => Fault.noAttribute ("'" ++ kind ++ "' object") name) hkind

end Store

/-! ## Texts -/

/-- What is written of a rule for texts. -/
theorem keywords_turned_string (r : StringRule) {t : StringRule}
    (h : (Rule.string r).turned own = .string t) : t.keywords = turnedMembers own r.keywords := by
  cases h
  simp only [StringRule.keywords, turnedMembers_append, turnedMembers_member, map_listing_turned]

/-- What is written of a rule for numbers. -/
theorem keywords_turned_number (r : NumberRule) {t : NumberRule}
    (h : (Rule.number r).turned own = .number t) : t.keywords = turnedMembers own r.keywords := by
  cases h
  simp only [NumberRule.keywords, turnedMembers_append, turnedMembers_member, Option.isSome_map]
  congr 1
  · congr 1
    split
    · simp only [turnedMembers_append, turnedMembers_member]
    · rfl
  · split
    · simp only [turnedMembers_append, turnedMembers_member]
    · rfl

theorem keywords_turned_allowed (allowed : Option (List Value)) :
    allowedKeywords (allowed.map (·.map (Value.turned own)))
      = turnedMembers own (allowedKeywords allowed) := by
  rw [allowedKeywords, map_listing_turned, allowedKeywords, turnedMembers_member]

theorem requiredPart_turned (r : ObjectRule) :
    (r.turned own).requiredPart = r.requiredPart.map (Value.turned own) := by
  unfold ObjectRule.requiredPart ObjectRule.turned
  cases r.required with
  | nil => rfl
  | cons x xs => exact congrArg some rfl

theorem shownParts_turned {shown : Value → Except Fault String}
    (h : ∀ v, shown (v.turned own) = shown v) (es : Entries String Value) :
    shownParts shown (turnedMembers own es) = shownParts shown es := by
  induction es with
  | nil => rfl
  | cons e es ih =>
    change (do
      let text ← shown (e.2.turned own)
      return (e.1, text) :: (← shownParts shown (turnedMembers own es))) = _
    rw [h, ih]
    rfl

theorem partEntry_turned (name : String) (part : Option Value) :
    partEntry name (part.map (Value.turned own)) = turnedMembers own (partEntry name part) := by
  cases part <;> rfl

theorem keys_turnedEntries (es : Entries Value Value) :
    Entries.keys (turnedEntries own es) = turnedAll own (Entries.keys es) := by
  rw [turnedEntries_eq_map, turnedAll_eq_map, Entries.keys, Entries.keys, List.map_map, List.map_map]
  rfl

namespace Store

theorem propertyParts_turned (detail : NodeId → Except Fault String) (names : List Value) :
    propertyParts detail (turnedAll own names) = propertyParts detail names := by
  unfold propertyParts
  rw [quotedAll_turned]
  cases names <;> rfl

/-- A rule is shown without the arguments in it. -/
theorem shownOf_turned (plain inner : NodeId → Except Fault String) (detail : Bool) (rule : Rule) :
    shownOf plain inner detail (rule.turned own) = shownOf plain inner detail rule := by
  have hshown := fun v => @shown_turned own inner plain v
  cases rule with
  | string r =>
    exact congrArg (partsText _ <$> ·)
      ((congrArg _ (keywords_turned_string r rfl)).trans (shownParts_turned hshown _))
  | number r =>
    exact congrArg (partsText _ <$> ·)
      ((congrArg _ (keywords_turned_number r rfl)).trans (shownParts_turned hshown _))
  | boolean allowed =>
    exact congrArg (partsText _ <$> ·)
      ((congrArg _ (keywords_turned_allowed allowed)).trans (shownParts_turned hshown _))
  | array r =>
    simp only [Rule.turned, Rule.mapValues, shownOf, partEntry_turned, ← turnedMembers_append,
      shownParts_turned hshown]
    rfl
  | object r =>
    have hkeys : (r.turned own).properties.keys = turnedAll own r.properties.keys :=
      keys_turnedEntries _
    have hadditional : (r.turned own).additional = r.additional.map (Value.turned own) := rfl
    simp only [Rule.turned, shownOf, hkeys, hadditional, requiredPart_turned, partEntry_turned,
      ← turnedMembers_append, shownParts_turned hshown, propertyParts_turned]
    rfl
  | combinator | negation => rfl

theorem shownWithin_turned (s : Store) (n : Nat) (detail : Bool) (id : NodeId) :
    (s.turned own).shownWithin n detail id = s.shownWithin n detail id := by
  -- on the depth: the rules below are shown with less of it
  induction n generalizing detail id with
  | zero => rfl
  | succ n ih =>
    have hplain : (s.turned own).shownWithin n false = s.shownWithin n false := funext (ih false)
    have hdetail : (s.turned own).shownWithin n true = s.shownWithin n true := funext (ih true)
    unfold shownWithin
    rw [get?_turned, hplain, hdetail]
    cases s.get? id with
    | none => rfl
    | some node => exact shownOf_turned _ _ detail node.rule

variable (s : Store)

@[simp] theorem nodeText_turned : (s.turned own).nodeText = s.nodeText := by
  funext id
  rw [nodeText, size_turned, shownWithin_turned, nodeText]

@[simp] theorem nodeDetail_turned : (s.turned own).nodeDetail = s.nodeDetail := by
  funext id
  rw [nodeDetail, size_turned, shownWithin_turned, nodeDetail]

/-- Texts of values show no arguments. -/
theorem valueText_turned_store : (s.turned own).valueText = s.valueText := by
  funext v
  rw [valueText, nodeText_turned, nodeDetail_turned, valueText]

@[simp] theorem valueText_turned (v : Value) :
    (s.turned own).valueText (v.turned own) = s.valueText v := by
  rw [valueText_turned_store, valueText, shown_turned, valueText]

@[simp] theorem valueDetail_turned (v : Value) :
    (s.turned own).valueDetail (v.turned own) = s.valueDetail v := by
  rw [valueDetail, nodeDetail_turned, quoted_turned, valueDetail]

@[simp] theorem pointer_turned (path : List Value) :
    (s.turned own).pointer (turnedAll own path) = s.pointer path := by
  have hpath : (turnedAll own path).mapM (s.turned own).valueText = path.mapM s.valueText := by
    induction path with
    | nil => rfl
    | cons name rest ih =>
      rw [turnedAll, List.mapM_cons, List.mapM_cons, valueText_turned, ih]
  rw [pointer, hpath, pointer]

end Store

/-! ## Documents -/

namespace Store

variable (s : Store) {document document' : NodeId → Except Fault Value}

section

variable (hd : ∀ id, document' id = (Value.turned own) <$> document id)

include hd

theorem memberDocument_turned (v : Value) :
    (s.turned own).memberDocument document' (v.turned own)
      = (Value.turned own) <$> s.memberDocument document v := by
  have hmissing := @Store.missing_turned own s v "to_dict"
  cases v with
  | node id => exact hd id
  | nodeClass c => rfl
  | _ => exact congrArg Except.error hmissing

theorem propertyDocuments_turned (es : Entries Value Value) :
    (s.turned own).propertyDocuments document' (turnedEntries own es)
      = turnedEntries own <$> s.propertyDocuments document es := by
  induction es with
  | nil => rfl
  | cons e es ih =>
    obtain ⟨name, v⟩ := e
    rw [turnedEntries, propertyDocuments, propertyDocuments, memberDocument_turned s hd, ih]
    exact except_bind_map fun d => except_bind_map fun ds => rfl

theorem childDocuments_turned (ids : List NodeId) :
    childDocuments document' ids = turnedAll own <$> childDocuments document ids := by
  induction ids with
  | nil => rfl
  | cons id ids ih =>
    rw [childDocuments, childDocuments, hd, ih]
    exact except_bind_map fun d => except_bind_map fun ds => rfl

theorem additionalDocument_turned (additional : Option Value) :
    additionalDocument document' (additional.map (Value.turned own))
      = Option.map (Value.turned own) <$> additionalDocument document additional := by
  cases additional with
  | none => rfl
  | some v =>
    cases v with
    | node id =>
      change some <$> document' id = _
      rw [hd]
      change _ = Option.map (Value.turned own) <$> some <$> document id
      cases document id <;> rfl
    | _ => rfl

theorem itemsDocument_turned (items : Items) :
    itemsDocument document' items
      = Option.map (Value.turned own) <$> itemsDocument document items := by
  cases items with
  | free => rfl
  | every id =>
    rw [itemsDocument, itemsDocument, hd]
    cases document id <;> rfl
  | each ids =>
    rw [itemsDocument, itemsDocument, childDocuments_turned hd]
    cases childDocuments document ids <;> rfl

theorem objectDocument_turned (r : ObjectRule) :
    (s.turned own).objectDocument document' (r.turned own)
      = (Value.turned own) <$> s.objectDocument document r := by
  unfold objectDocument
  rw [requiredPart_turned]
  dsimp only [ObjectRule.turned]
  rw [propertyDocuments_turned s hd, additionalDocument_turned hd]
  refine except_bind_map fun ds => except_bind_map fun d => congrArg Except.ok ?_
  rw [turned_typedDocument, turnedMembers_append, turnedMembers_append, turnedMembers_member,
    turnedMembers_member, turnedMembers_member]
  rfl

theorem schemaDocument_turned (r : ObjectRule) :
    (s.turned own).schemaDocument document' (r.turned own)
      = (Value.turned own) <$> s.schemaDocument document r := by
  have hobject := objectDocument_turned s hd r
  unfold schemaDocument
  obtain ⟨kind, model, properties, required, additional⟩ := r
  cases properties with
  | cons e es => exact hobject
  | nil =>
    cases additional with
    | none => exact hobject
    | some v =>
      cases v with
      | node id => exact hd id
      | _ => exact hobject

/-- The document of a rule, if those of the rules inside are turned round. -/
theorem documentOf_turned (rule : Rule) :
    (s.turned own).documentOf document' (rule.turned own)
      = (Value.turned own) <$> s.documentOf document rule := by
  cases rule with
  | string r =>
    refine congrArg Except.ok ?_
    rw [turned_typedDocument, ← keywords_turned_string r rfl]
  | number r =>
    refine congrArg Except.ok ?_
    rw [turned_typedDocument, ← keywords_turned_number r rfl]
  | boolean allowed =>
    refine congrArg Except.ok ?_
    rw [turned_typedDocument, ← keywords_turned_allowed]
  | array r =>
    simp only [Rule.turned, Rule.mapValues, documentOf]
    rw [itemsDocument_turned hd]
    refine except_bind_map fun d => congrArg Except.ok ?_
    simp only [turned_typedDocument, turnedMembers_append, turnedMembers_member]
  | object r =>
    have hkind : (r.turned own).kind = r.kind := rfl
    simp only [Rule.turned, documentOf, hkind]
    cases r.kind with
    | plain => exact objectDocument_turned s hd r
    | schema => exact schemaDocument_turned s hd r
    | dictionary =>
      dsimp only
      rw [schemaDocument_turned s hd r]
      refine except_bind_map fun d => congrArg Except.ok ?_
      rw [turned_typedDocument, turnedMembers_member]
      rfl
  | combinator kind children =>
    simp only [Rule.turned, Rule.mapValues, documentOf]
    rw [childDocuments_turned hd]
    exact except_bind_map fun ds => rfl
  | negation child =>
    simp only [Rule.turned, Rule.mapValues, documentOf]
    rw [hd]
    exact except_bind_map fun d => rfl

end

theorem documentWithin_turned (n : Nat) (id : NodeId) :
    (s.turned own).documentWithin n id = (Value.turned own) <$> s.documentWithin n id := by
  -- on the depth: the documents of the rules below are made with less of it
  induction n generalizing id with
  | zero => rfl
  | succ n ih =>
    unfold documentWithin
    rw [get?_turned]
    cases s.get? id with
    | none => rfl
    | some node => exact documentOf_turned s ih node.rule

/-- The document of a rule. -/
theorem document_turned (id : NodeId) :
    (s.turned own).document id = (Value.turned own) <$> s.document id := by
  rw [document, size_turned, documentWithin_turned, document]

/-! ## Equality -/

theorem equalNodes_turned (n : Nat) : (s.turned own).equalNodes n = s.equalNodes n := by
  induction n with
  | zero => rfl
  | succ n ih =>
    funext a b
    rw [equalNodes, equalNodes, ih, document_turned, document_turned]
    refine (except_bind_map (g := id) fun x => ?_).trans (id_map _)
    refine (except_bind_map (g := id) fun y => ?_)
    exact (equalWith_turned _ x y).trans (id_map _).symm

/-- Values are equal that were equal before. -/
@[simp] theorem equal_turned (a b : Value) :
    (s.turned own).equal (a.turned own) (b.turned own) = s.equal a b := by
  rw [equal, size_turned, equalNodes_turned, equalWith_turned, equal]

end Store

end DraftSchema
