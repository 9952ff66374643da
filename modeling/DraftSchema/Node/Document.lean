import DraftSchema.Node

/-!
The documents that rules are written as. A builder that holds nothing but one rule for every key is
written as that rule, and a dictionary's rules stand under the keyword for all further properties.
-/
namespace DraftSchema

/-- A keyword of a document, if it has a value. -/
def Keyword.member (k : Keyword) : Option Value → Entries String Value
  | some v => [(k.text, v)]
  | none => []

/-- The keywords of a rule for texts. -/
def StringRule.keywords (r : StringRule) : Entries String Value :=
  Keyword.format.member r.format ++ Keyword.pattern.member r.pattern
    ++ Keyword.minLength.member r.minLength ++ Keyword.maxLength.member r.maxLength
    ++ Keyword.enum.member (r.allowed.map .listing)

/-- The keywords of a rule for numbers. Whether a bound is exclusive is said only beside it. -/
def NumberRule.keywords (r : NumberRule) : Entries String Value :=
  Keyword.multipleOf.member r.multipleOf
    ++ (if r.minimum.isSome then
          Keyword.minimum.member r.minimum ++ Keyword.exclusiveMinimum.member r.exclusiveMinimum
        else [])
    ++ (if r.maximum.isSome then
          Keyword.maximum.member r.maximum ++ Keyword.exclusiveMaximum.member r.exclusiveMaximum
        else [])

/-- The keywords of a rule for truth values. -/
def allowedKeywords (allowed : Option (List Value)) : Entries String Value :=
  Keyword.enum.member (allowed.map .listing)

/-- The document of a rule that is bound to a type. -/
def typedDocument (type : String) (members : Entries String Value) : Value :=
  .record ((Keyword.type.text, .text type) :: members)

/-- The names that an object requires, unless there are none. -/
def ObjectRule.requiredPart (r : ObjectRule) : Option Value :=
  if r.required.isEmpty then none else some (.listing r.required)

namespace Store

/-- The document of what stands where a rule belongs. A class of rules is not asked about a rule. -/
def memberDocument (s : Store) (document : NodeId → Except Fault Value) (v : Value) :
    Except Fault Value :=
  match v with
  | .node id => document id
  | .nodeClass c => .error (.noOwner (c.writerName ++ ".to_dict"))
  | v => .error (s.missing v "to_dict")

/-- The documents of named rules. -/
def propertyDocuments (s : Store) (document : NodeId → Except Fault Value) :
    Entries Value Value → Except Fault (Entries Value Value)
  | [] => .ok []
  | (name, v) :: rest => do
    let d ← s.memberDocument document v
    let ds ← propertyDocuments s document rest
    return (name, d) :: ds

/-- The documents of a list of rules. -/
def childDocuments (document : NodeId → Except Fault Value) :
    List NodeId → Except Fault (List Value)
  | [] => .ok []
  | id :: rest => do
    let d ← document id
    let ds ← childDocuments document rest
    return d :: ds

/-- What a document says of all further properties: the document of a rule, or a value as it is. -/
def additionalDocument (document : NodeId → Except Fault Value) :
    Option Value → Except Fault (Option Value)
  | some (.node id) => some <$> document id
  | other => .ok other

/-- The document of an object rule, property by property. -/
def objectDocument (s : Store) (document : NodeId → Except Fault Value) (r : ObjectRule) :
    Except Fault Value := do
  let properties ← s.propertyDocuments document r.properties
  let additional ← additionalDocument document r.additional
  return typedDocument "object"
    (Keyword.properties.member (some (.mapping properties)) ++ Keyword.required.member r.requiredPart
      ++ Keyword.additionalProperties.member additional)

/-- The document of a builder: if all it holds is one rule for every key, the document of that
rule. -/
def schemaDocument (s : Store) (document : NodeId → Except Fault Value) (r : ObjectRule) :
    Except Fault Value :=
  match r.properties, r.additional with
  | [], some (.node id) => document id
  | _, _ => s.objectDocument document r

/-- What a document says of the elements of an array. -/
def itemsDocument (document : NodeId → Except Fault Value) : Items → Except Fault (Option Value)
  | .free => .ok none
  | .every child => some <$> document child
  | .each children => (some ∘ Value.listing) <$> childDocuments document children

/-- The document of a rule, given the documents of the rules inside. -/
def documentOf (s : Store) (document : NodeId → Except Fault Value) (rule : Rule) :
    Except Fault Value :=
  match rule with
  | .string r => .ok (typedDocument "string" r.keywords)
  | .number r => .ok (typedDocument "number" r.keywords)
  | .boolean allowed => .ok (typedDocument "boolean" (allowedKeywords allowed))
  | .array r => do
    let items ← itemsDocument document r.items
    return typedDocument "array"
      (Keyword.minItems.member r.minItems ++ Keyword.maxItems.member r.maxItems
        ++ Keyword.uniqueItems.member r.uniqueItems ++ Keyword.items.member items
        ++ Keyword.additionalItems.member r.additionalItems)
  | .object r =>
    match r.kind with
    | .plain => s.objectDocument document r
    | .schema => s.schemaDocument document r
    | .dictionary => do
      let inner ← s.schemaDocument document r
      return typedDocument "object" (Keyword.additionalProperties.member (some inner))
  | .combinator kind children => do
    let ds ← childDocuments document children
    return .record [(kind.keyword, .listing ds)]
  | .negation child => do
    let d ← document child
    return .record [(Keyword.not.text, d)]

/-- The document of a rule, `fuel` bounding how deep rules are nested. -/
def documentWithin (s : Store) : (fuel : Nat) → NodeId → Except Fault Value
  | 0, _ => .error .tooDeep
  | fuel + 1, id =>
    match s.get? id with
    | none => .error .tooDeep
    | some node => s.documentOf (s.documentWithin fuel) node.rule

/-- The document of a rule. Rules that do not contain themselves nest no deeper than there are
rules. -/
def document (s : Store) (id : NodeId) : Except Fault Value := s.documentWithin (s.size + 1) id

end Store

/-- A document that names its draft: the identifier comes first, then the members. -/
def withDraft : Value → Value
  | .dict _ members =>
    .mapping (members.foldl (fun es e => Entries.set es e.1 e.2)
      [(.text Keyword.schema.text, .text draft04)])
  | v => v

end DraftSchema
