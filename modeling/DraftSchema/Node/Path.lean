import DraftSchema.Node.Display
import DraftSchema.Pointer

/-!
Paths through object rules. A path leads from an object rule through properties that hold object
rules in turn; where a property is missing an empty object rule is put, and where it holds anything
else the path is in conflict with it. Conflicts are looked for before anything is put. The names of
a path are texts, save where they were handed over ready-made; what cannot be a key is then a fault
at the place where it is first used as one.
-/
namespace DraftSchema.Store

/-- The fault of a name that cannot be a key. -/
def unhashable? (s : Store) (name : Value) : Option Fault :=
  name.unhashable?.map fun v => .unhashable (s.kindName v)

/-- The pointer to a path. -/
def pointer (s : Store) (path : List Value) : Except Fault String :=
  Pointer.encode <$> path.mapM s.valueText

/-- What a property of an object rule holds; nothing stands for a missing one. -/
def child? (s : Store) (id : NodeId) (name : Value) : Option Value :=
  match s.object? id with
  | some r => (r.properties.get? name).bind Value.present
  | none => none

/-- What is found by following a path of properties from a value. -/
def follow? (s : Store) : Value → List Value → Option Value
  | v, [] => some v
  | v, name :: rest =>
    match v with
    | .node id => (s.child? id name).bind fun child => s.follow? child rest
    | _ => none

/-- The object rule that a path may lead through. -/
def passable? (s : Store) (v : Value) : Option NodeId :=
  match v with
  | .node id =>
    match s.object? id with
    | some r => if r.kind.acceptsProperties then some id else none
    | none => none
  | _ => none

/-- The fault of a path that something at its end blocks. -/
def blocked (s : Store) (v : Value) (path : List Value) : Fault :=
  match s.valueText v, s.pointer path with
  | .ok shown, .ok pointer => .refused (.conflict shown pointer)
  | .error f, _ | _, .error f => f

/-- The first thing on a path that it cannot lead through; `seen` are the names before the path. -/
def conflict? (s : Store) (id : NodeId) (seen : List Value) : List Value → Option Fault
  | [] => none
  | [_] => none
  | name :: rest =>
    match s.unhashable? name with
    | some f => some f
    | none =>
      match s.child? id name with
      | none => none
      | some v =>
        match s.passable? v with
        | some child => s.conflict? child (seen ++ [name]) rest
        | none => some (s.blocked v (seen ++ [name]))

/-- The object rule that a value is, if it is one; `part` is what it is asked for. -/
def holder (s : Store) (v : Value) (part : String) : Except Fault NodeId :=
  match v with
  | .node id => if (s.object? id).isSome then .ok id else .error (s.missing v part)
  | v => .error (s.missing v part)

/-- What an object rule has under a name, an empty object rule being put where there is nothing. -/
def enter (s : Store) (id : NodeId) (name : Value) : Store × Value :=
  match s.child? id name with
  | some v => (s, v)
  | none =>
    let (s, child) := s.alloc ⟨.object .empty, .bool true⟩
    (s.modifyObject id fun r => r.setProperty name (.node child), .node child)

/-- What holds the names of a path, from a value on: one thing for each name. -/
def levels (s : Store) (v : Value) : List Value → Store × Except Fault (List Value)
  | [] => (s, .ok [])
  | [_] => (s, .ok [v])
  | name :: rest =>
    match s.holder v "properties", s.unhashable? name with
    | .error f, _ => (s, .error f)
    | .ok _, some f => (s, .error f)
    | .ok id, none =>
      let (s, child) := s.enter id name
      let (s, vs) := s.levels child rest
      (s, vs.map (v :: ·))

/-- Puts a value under a name. -/
def putProperty (s : Store) (level name v : Value) : Except Fault Store := do
  let id ← s.holder level "properties"
  if let some f := s.unhashable? name then throw f
  return s.modifyObject id fun r => r.setProperty name v

/-- Lists a name as required if a flag says so. -/
def listRequired (s : Store) (flag level name : Value) : Except Fault Store :=
  match flag.truth with
  | .error r => .error (.refused r)
  | .ok false => .ok s
  | .ok true => do
    let id ← s.holder level "add_required"
    if !(s.object? id).all (·.searchable name) then throw (.refused .notAComparison)
    return s.modifyObject id fun r => r.addRequired name

/-- Puts a value under the last name of a path, and lists each name as required where `flag` says
so. -/
def place (s : Store) (flag v : Value) : List Value → List Value → Store × Except Fault Unit
  | level :: levels, name :: rest =>
    match if rest.isEmpty then s.putProperty level name v else .ok s with
    | .error f => (s, .error f)
    | .ok s =>
      match s.listRequired flag level name with
      | .error f => (s, .error f)
      | .ok s => s.place flag v levels rest
  | _, _ => (s, .ok ())

/-- Puts a value under a path. -/
def put (s : Store) (id : NodeId) (path : List Value) (flag v : Value) :
    Store × Except Fault Unit :=
  match s.levels (.node id) path with
  | (s, .error f) => (s, .error f)
  | (s, .ok levels) => s.place flag v levels path

/-- The rule that applies to every key without a rule of its own. -/
def putAdditional (s : Store) (id : NodeId) (v : Value) : Store :=
  s.modifyObject id fun r => { r with additional := some v }

/-- The flag that says whether the object with the property requires the rule at an address. -/
def requirement (s : Store) (id : NodeId) : Value :=
  match s.get? id with
  | some node => node.required
  | none => .bool false

/-- Says whether a rule is required. -/
def setRequired (s : Store) (id : NodeId) (required : Value) : Store :=
  match s.get? id with
  | some node => s.set id { node with required }
  | none => s

/-- A text can be a key. -/
@[simp] theorem unhashable?_text (s : Store) (name : String) : s.unhashable? (.text name) = none :=
  rfl

end DraftSchema.Store
