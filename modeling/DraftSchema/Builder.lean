import DraftSchema.TypeExpression.Meaning
import DraftSchema.Construction
import DraftSchema.Json.Writer
import DraftSchema.Node.Path

/-!
Builders: object rules that grow one rule at a time. A rule is put at the path its selector stands
for; the argument unchanged stands for every key. A path that the model does not declare, or that
leads through something else than objects, is refused before anything is put.
-/
namespace DraftSchema.Builder

open Build

/-- Whether a rule is a builder. -/
def isBuilder (s : Store) (id : NodeId) : Bool :=
  match s.object? id with
  | some r => r.kind ≠ .plain
  | none => false

/-- The fault of an operation of builders that something else is asked for. The class of builders is
not asked about a rule of its own. -/
def missing (s : Store) (v : Value) (operation : String) : Fault :=
  match v with
  | .nodeClass .schema | .nodeClass .dictionary =>
    .noOwner (NodeClass.schema.name ++ "." ++ operation)
  | v => s.missing v operation

/-- The object rule of a builder. -/
def builder (v : Value) (operation : String) : Build NodeId := do
  let s ← store
  match v with
  | .node id => if isBuilder s id then pure id else fail (missing s v operation)
  | v => fail (missing s v operation)

/-- The model that a builder was made with. -/
def modelOf (s : Store) (id : NodeId) : Value :=
  match s.object? id with
  | some r => r.model
  | none => .null

/-- How a type without a field is named. -/
def modelLabel (s : Store) (v : Value) : Except Fault String :=
  match v with
  | .type t => (t.name?.map .ok).getD (s.valueText v)
  | .nodeClass c => .ok c.name
  | .builtin name => .ok name
  | .method _ name => .ok name
  | .classMethod _ name => .ok name
  | v => s.valueText v

/-- Checks that the model of a builder, if it has one, declares a path. -/
def checkModel (call : Caller) (id : NodeId) (path : List Value) : Build Unit := fun w =>
  match (modelOf w.store id).present with
  | none => .ok () w
  | some model =>
    let read (text : String) := apart (meaning call text) (annotationSpace w.models)
    Build.ofExcept (w.models.check w.store read (modelLabel w.store) [] model path) w

/-- Sets the rule for every key. -/
def setAdditional (id node : NodeId) : Build Unit := do
  let shown ← fromStore fun s => s.nodeText node
  say ("Setting additional properties of " ++ (← store).className id ++ " to " ++ shown)
  modifyStore fun s => s.putAdditional id (.node node)

/-- Puts a rule at a path, if the path is not in conflict with what is there. -/
def place (id : NodeId) (path : List Value) (node : NodeId) : Build Unit := do
  let s ← store
  match s.conflict? id [] path with
  | some f => fail f
  | none =>
    let (s, placed) := s.put id path (s.requirement node) (.node node)
    modifyStore fun _ => s
    Build.ofExcept placed

/-- Puts a rule at a path that is not empty. -/
def putRule (call : Caller) (id : NodeId) (path : List Value) (node : NodeId) : Build Unit := do
  checkModel call id path
  place id path node
  let shown ← fromStore fun s => s.nodeText node
  say ("Added " ++ shown ++ " at '" ++ (← fromStore fun s => s.pointer path) ++ "'")

/-- The path and the rule that a selector and a raw value stand for. Functions among the two run here
and at no later point. -/
def resolve (call : Caller) (selector value : Value) : Build (List Value × NodeId) := do
  let path ← Selector.path call selector
  let node ← Construction.compile call .pattern value
  return (path, node)

/-- Adds the rule for a raw value where a selector says. -/
def add (call : Caller) (id : NodeId) (selector value : Value) : Build Unit := do
  let (path, node) ← resolve call selector value
  if path.isEmpty then setAdditional id node else putRule call id path node

/-- The whole document of a builder, which names its draft. -/
def build (id : NodeId) : Build Value := do
  let document ← fromStore fun s => s.document id
  say ("Built " ++ (← fromStore fun s => s.nodeText id))
  return withDraft document

/-- The whole document of a builder as JSON text. -/
def json (id : NodeId) (indent : Value) : Build String := do
  let document ← build id
  let layout ← fromStore fun s => Json.Layout.ofIndent s.kindName indent
  fromStore fun s => Json.write s.typeName layout document

/-- Lists a name as required on an object rule, and gives all that are. -/
def require (v name : Value) : Build (List Value) := do
  let s ← store
  match v with
  | .node id =>
    match s.object? id with
    | none => fail (s.missing v "add_required")
    | some r => do
      let required ← Construction.distinctNames r.required [name]
      modifyStore fun s => s.modifyObject id fun r => { r with required }
      return required
  | v => fail (s.missing v "add_required")

end DraftSchema.Builder
