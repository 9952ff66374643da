import DraftSchema.Node.Attribute
import DraftSchema.Node.Display
import DraftSchema.Workspace

/-!
Descriptions of rules: everything about a rule that can be read off it without changing it. A rule
whose document cannot be written is still described, but not one that stands for a choice between
such rules.
-/
namespace DraftSchema

/-- What can be said about a rule. -/
structure Description where
  nodeClass : NodeClass
  required : Value
  document : Except Fault Value
  plain : String
  detail : String
  /-- The type a rule is bound to. -/
  typeText : Option String
  /-- For arrays, whether the elements are ruled one by one. -/
  isTuple : Option Bool
  /-- For combinators, the name of the list of rules and their documents. -/
  children : Option (String × List Value)

namespace Store

/-- Whether a rule for arrays rules the elements one by one. -/
def isTuple? : Rule → Option Bool
  | .array r => some r.items.isTuple
  | _ => none

/-- The documents of the rules in a combinator, under the name they are read by. -/
def namedChildren (s : Store) : Rule → Except Fault (Option (String × List Value))
  | .combinator kind children =>
    match kind.childrenName? with
    | none => .ok none
    | some name => do return some (name, ← childDocuments s.document children)
  | _ => .ok none

/-- The description of the rule at an address. -/
def describeNode (s : Store) (id : NodeId) (node : Node) : Except Fault Description := do
  let plain ← s.nodeText id
  let detail ← s.nodeDetail id
  let children ← s.namedChildren node.rule
  return {
    nodeClass := node.rule.nodeClass
    required := node.required
    document := s.document id
    plain, detail
    typeText := node.rule.typeText?
    isTuple := isTuple? node.rule
    children }

/-- The description of a value that is a rule. -/
def describe (s : Store) (v : Value) : Except Fault Description :=
  match v with
  | .node id =>
    match s.get? id with
    | some node => s.describeNode id node
    | none => .error (s.missing v "to_dict")
  | v => .error (s.missing v "to_dict")

end Store

end DraftSchema
