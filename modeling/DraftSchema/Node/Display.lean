import DraftSchema.Node.Document
import DraftSchema.Value.Display

/-!
How rules are shown in messages: the class and what the rule says. An object shows only the names
of its properties. Combinators show how many rules they have, and in detail each of them.
-/
namespace DraftSchema

/-- A class name with named parts in parentheses. -/
def partsText (name : String) (parts : List (String × String)) : String :=
  name ++ "(" ++ String.intercalate ", " (parts.map fun p => p.1 ++ "=" ++ p.2) ++ ")"

/-- Named parts with how their values are shown. -/
def shownParts (shown : Value → Except Fault String) :
    Entries String Value → Except Fault (List (String × String))
  | [] => .ok []
  | (name, v) :: rest => do
    let text ← shown v
    return (name, text) :: (← shownParts shown rest)

/-- A named part, if it has a value. -/
def partEntry (name : String) (v : Option Value) : Entries String Value :=
  (v.map fun v => (name, v)).toList

/-- Texts in brackets. -/
def bracketed (texts : List String) : String := "[" ++ String.intercalate ", " texts ++ "]"

namespace Store

/-- How the rule for the elements of an array is shown. -/
def itemsParts (plain detail : NodeId → Except Fault String) :
    Items → Except Fault (List (String × String))
  | .free => .ok []
  | .every child => do return [("items", ← plain child)]
  | .each children => do return [("items", bracketed (← children.mapM detail))]

/-- How the names of the properties of an object are shown. -/
def propertyParts (detail : NodeId → Except Fault String) (names : List Value) :
    Except Fault (List (String × String)) :=
  if names.isEmpty then .ok []
  else do return [("properties", bracketed (← Value.quotedAll detail names))]

/-- How the rules in a combinator are shown: in detail each of them, else how many there are. -/
def childrenText (plain : NodeId → Except Fault String) (detail : Bool) (children : List NodeId) :
    Except Fault String :=
  if detail then do return bracketed ((← children.mapM plain).map Quoted.text)
  else .ok (toString children.length)

/-- How a rule is shown, alone or in detail, given how the rules inside are shown. -/
def shownOf (plain inner : NodeId → Except Fault String) (detail : Bool) (rule : Rule) :
    Except Fault String :=
  let shown := shownParts (Value.shown plain inner)
  let name := rule.nodeClass.name
  match rule with
  | .string r => partsText name <$> shown r.keywords
  | .number r => partsText name <$> shown r.keywords
  | .boolean allowed => partsText name <$> shown (allowedKeywords allowed)
  | .array r => do
    let lengths ← shown (partEntry "min_items" r.minItems ++ partEntry "max_items" r.maxItems
      ++ partEntry "unique_items" r.uniqueItems)
    let items ← itemsParts plain inner r.items
    let additional ← shown (partEntry "additional_items" r.additionalItems)
    return partsText name (lengths ++ items ++ additional)
  | .object r => do
    let properties ← propertyParts inner r.properties.keys
    let rest ← shown (partEntry "required" r.requiredPart
      ++ partEntry "additional_properties" r.additional)
    return partsText name (properties ++ rest)
  | .combinator _ children => do
    return partsText name [("schemas", ← childrenText plain detail children)]
  | .negation child => do return name ++ "(" ++ (← plain child) ++ ")"

/-- How a rule is shown, alone or in detail; `fuel` bounds how deep rules are nested. -/
def shownWithin (s : Store) : (fuel : Nat) → (detail : Bool) → NodeId → Except Fault String
  | 0, _, _ => .error .tooDeep
  | fuel + 1, detail, id =>
    match s.get? id with
    | none => .error .tooDeep
    | some node =>
      shownOf (s.shownWithin fuel false) (s.shownWithin fuel true) detail node.rule

/-- How a rule is shown alone. To show a rule that contains itself ends at no depth. -/
def nodeText (s : Store) (id : NodeId) : Except Fault String := s.shownWithin (s.size + 1) false id

/-- How a rule is shown in detail. -/
def nodeDetail (s : Store) (id : NodeId) : Except Fault String := s.shownWithin (s.size + 1) true id

/-- How a value is shown alone. -/
def valueText (s : Store) (v : Value) : Except Fault String := v.shown s.nodeText s.nodeDetail

/-- How a value is shown inside another. -/
def valueDetail (s : Store) (v : Value) : Except Fault String := v.quoted s.nodeDetail

end Store

end DraftSchema
