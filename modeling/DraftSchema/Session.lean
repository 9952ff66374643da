import DraftSchema.Query

/-!
Sessions: a series of steps that make rules, keep them in variables, extend and inspect them. A step
that meets a fault does not end the session.
-/
namespace DraftSchema

/-- One step. -/
inductive Step where
  /-- Binds a variable to a value. -/
  | new (var : String) (value : Literal)
  /-- Adds a rule to a builder. -/
  | add (var : String) (selector value : Literal)
  | document (var : String)
  | build (var : String)
  | json (var : String) (indent : Literal)
  | describe (var : String)
  /-- Lists a name as required. -/
  | require (var : String) (name : Literal)
  /-- Binds a variable to the rule under a path of properties. -/
  | get (var : String) (path : List String) (target : String)
  | setRequired (var : String) (value : Literal)
  /-- Builds a document twice; the first one is damaged and thrown away. -/
  | rebuild (var : String)
  | equal (a b : Literal)
  | same (a b : Literal)

/-- What a step gives. -/
inductive Outcome where
  | flag (b : Bool)
  | value (v : Value)
  | text (s : String)
  | description (d : Description)
  | equality (equal : Bool)

/-- What a step gives and what can be seen of it. -/
structure Answer where
  result : Except Fault Outcome
  log : List String
  /-- The document of the variable after a step that may change it. -/
  document : Option (Except Fault Value)

namespace Session

open Build

/-- The document of a value. -/
def documentOf (v : Value) : Build Value := do
  fromStore fun s => s.memberDocument s.document v

/-- The rule under a path of properties. -/
def find (v : Value) : List String → Build Value
  | [] => pure v
  | name :: rest => do
    let properties ← attr v "properties"
    find (← item properties (.text name)) rest

/-- Says whether a rule is required. -/
def assignRequired (v required : Value) : Build Unit := do
  match v with
  | .node id => modifyStore fun s => s.setRequired id required
  | v => do fail ((← store).missing v "required")

/-- The number of the occasion on which the value of a literal was made: that of the variable which
it names, or a new one. -/
def originOf (literal : Literal) : Build Nat := do
  match literal with
  | .ref name =>
    match (← vars).get? name with
    | some v => return v.origin
    | none => fresh
  | _ => fresh

/-- Gives a variable the value of a literal. -/
def bind (var : String) (literal : Literal) : Build Unit := do
  let value ← Query.value literal
  assign var { value, origin := ← originOf literal }

/-- The mark of damage. -/
def damageMark : Value := .text "clobbered"

/-- Damages a document: every list has a mark at its end, and every mapping under a key of its own.
Lists and mappings that rules or variables hold as well are damaged there too. -/
def damage (document : Value) : Build Unit :=
  let ids := document.objects.filter (· ≠ 0)
  change (fun id xs => xs ++ List.replicate (ids.count id) damageMark)
    fun id es => if ids.contains id then es.set damageMark (.bool true) else es

/-- Whether two literals denote one and the same thing. -/
def identity (a b : Literal) : Build Bool := do
  let x ← Query.value a
  let y ← Query.value b
  return (← originOf a) == (← originOf b) || (← store).identical x y

/-- Runs a step. -/
def run : Step → Build Outcome
  | .new var value => do
    bind var value
    return .flag true
  | .add var selector value => do
    let v ← Query.value value
    let id ← Builder.builder (← Literal.held var) "with_"
    Builder.add call id (← Query.value selector) v
    return .flag true
  | .document var => do return .value (← documentOf (← Literal.held var))
  | .build var => do
    return .value (← Builder.build (← Builder.builder (← Literal.held var) "build"))
  | .json var indent => do
    let id ← Builder.builder (← Literal.held var) "json"
    return .text (← Builder.json id (← Query.value indent))
  | .describe var => do
    let v ← Literal.held var
    return .description (← fromStore fun s => s.describe v)
  | .require var name => do
    let v ← Literal.held var
    return .value (.listing (← Builder.require v (← Query.value name)))
  | .get var path target => do
    let value ← find (← Literal.held var) path
    assign target { value, origin := ← fresh }
    return .text (← typeName value)
  | .setRequired var value => do
    let v ← Literal.held var
    assignRequired v (← Query.value value)
    return .flag true
  | .rebuild var => do
    let id ← Builder.builder (← Literal.held var) "build"
    damage (← Builder.build id)
    return .value (← Builder.build id)
  | .equal a b => do return .equality (← Query.equality a b)
  | .same a b => do return .flag (← identity a b)

/-- The variable whose document is shown after a step. -/
def shownVariable? : Step → Option String
  | .new var _ => some var
  | .add var _ _ => some var
  | .require var _ => some var
  | _ => none

/-- The document of the variable that is shown after a step, if it holds a rule. -/
def shownDocument (w : Workspace) (step : Step) : Option (Except Fault Value) :=
  match (shownVariable? step).bind w.vars.get? with
  | some ⟨.node id, _⟩ => some (w.store.document id)
  | _ => none

/-- Takes a step. -/
def step (w : Workspace) (step : Step) : Answer × Workspace :=
  match run step { w with log := [] } with
  | .ok outcome w =>
    ({ result := .ok outcome, log := w.log, document := shownDocument w step }, w)
  | .error fault w =>
    ({ result := .error fault, log := w.log, document := shownDocument w step }, w)

end Session

end DraftSchema
