import DraftSchema.Node

/-!
The attributes of a rule by name, as functions that are given a rule can read them.
-/
namespace DraftSchema

/-- The value of an optional part. -/
def partValue (part : Option Value) : Value := part.getD .null

/-- The value of an optional list. -/
def listValue (part : Option (List Value)) : Value := partValue (part.map .listing)

def StringRule.attributes (r : StringRule) : Entries String Value :=
  [("format", partValue r.format), ("pattern", partValue r.pattern),
   ("min_length", partValue r.minLength), ("max_length", partValue r.maxLength),
   ("enum", listValue r.allowed)]

def NumberRule.attributes (r : NumberRule) : Entries String Value :=
  [("multiple_of", partValue r.multipleOf), ("minimum", partValue r.minimum),
   ("maximum", partValue r.maximum), ("exclusive_minimum", partValue r.exclusiveMinimum),
   ("exclusive_maximum", partValue r.exclusiveMaximum)]

/-- Whether items are ruled one by one. -/
def Items.isTuple : Items → Bool
  | .each _ => true
  | _ => false

/-- The rules of items as a value. -/
def Items.value : Items → Value
  | .free => .null
  | .every id => .node id
  | .each ids => .listing (ids.map .node)

def ArrayRule.attributes (r : ArrayRule) : Entries String Value :=
  [("min_items", partValue r.minItems), ("max_items", partValue r.maxItems),
   ("unique_items", partValue r.uniqueItems), ("items", r.items.value),
   ("additional_items", partValue r.additionalItems), ("is_tuple", .bool r.items.isTuple)]

def ObjectRule.attributes (r : ObjectRule) : Entries String Value :=
  let model := if r.kind = .plain then [] else [("model", r.model)]
  [("properties", .mapping r.properties), ("required_properties", .listing r.required),
   ("additional_properties", partValue r.additional),
   ("accepts_properties", .bool r.kind.acceptsProperties)] ++ model

/-- The name that the rules of a combinator are read by. -/
def CombinatorKind.childrenName? : CombinatorKind → Option String
  | plain => none
  | anyOf => some "any_of"
  | oneOf => some "one_of"
  | allOf => some "all_of"

/-- The attributes of a combinator. -/
def combinatorAttributes (kind : CombinatorKind) (children : List NodeId) : Entries String Value :=
  let schemas := Value.listing (children.map .node)
  [("keyword", .text kind.keyword), ("schemas", schemas)]
    ++ (kind.childrenName?.map fun name => (name, schemas)).toList

/-- The attributes that depend on what a rule says. -/
def Rule.attributes : Rule → Entries String Value
  | .string r => r.attributes
  | .number r => r.attributes
  | .boolean allowed => [("enum", listValue allowed)]
  | .array r => r.attributes
  | .object r => r.attributes
  | .combinator kind children => combinatorAttributes kind children
  | .negation child => [("schema", .node child)]

/-- The attribute of a rule with a name, if it has one. -/
def Node.attribute? (node : Node) (name : String) : Option Value :=
  if name = "required" then some node.required
  else if name = "json_type" then node.rule.typeText?.map .text
  else node.rule.attributes.get? name

end DraftSchema
