import DraftSchema.Builder
import DraftSchema.Evaluation.Conversion

/-!
Building values from literals, in the order in which their parts are written. Every list, mapping,
function and foreign thing that is built is a new one.
-/
namespace DraftSchema

namespace Literal

open Build

/-- The floating-point number that a numeral spells. -/
def real (numeral : String) : Build Value := do
  match Binary64.ofText? (← fresh) numeral with
  | some x => return .float x
  | none => fail (.badNumeral "float" (Quoted.text numeral))

/-- The value of a variable. -/
def held (name : String) : Build Value := do
  match (← vars).get? name with
  | some v => return v.value
  | none => fail (.missingKey (Quoted.text name))

/-- The declared class with a name. -/
def declared (name : String) : Build Value := do
  match (← models).model? name with
  | some m => return .type (.model m.reference)
  | none => fail (.missingKey (Quoted.text name))

/-- What stands for a value as part of a type that is being made. -/
def memberType (context : String) (v : Value) : Build (TypeForm Value) :=
  fromStore fun s => Typing.member s context v

/-- What stands for several values as parts of a type that is being made. -/
def memberTypes (context : String) : List Value → Build (List (TypeForm Value))
  | [] => pure []
  | v :: vs => do
    let t ← memberType context v
    return t :: (← memberTypes context vs)

/-- A choice by name between types. -/
def chosen (ts : List (TypeForm Value)) : Build Value :=
  fromStore fun s => Value.ofType <$> Typing.choice s ts

/-- A choice made by joining each value to those before it. -/
def joinedFrom (v : Value) : List Value → Build Value
  | [] => pure v
  | w :: ws => do joinedFrom (← either v w) ws

/-- A choice made by joining values. -/
def joined : List Value → Build Value
  | [] => fail (.stated .type "reduce() of empty iterable with no initial value")
  | v :: vs => joinedFrom v vs

/-- A type with one more note. -/
def withNote : TypeForm Value → TypeForm Value
  | .annotated t notes => .annotated t (notes + 1)
  | t => .annotated t 1

/-- What the parts of a collection type are worded with in faults. -/
def elementContext : String := "Parameters to generic types must be types."

mutual

/-- The value that a literal denotes. -/
def build (call : Caller) : Literal → Build Value
  | .null => pure .null
  | .bool b => pure (.bool b)
  | .int n => pure (.int n)
  | .whole numeral => spelled numeral
  | .float numeral => real numeral
  | .text s => pure (.text s)
  | .list xs => do Build.list (← buildAll call xs)
  | .tuple xs => do return .tuple (← buildAll call xs)
  | .dict entries => do Build.dict (Entries.ofList (← buildEntries call entries))
  | .regex source flags => pure (.regex (Regex.compile false source flags))
  | .bytesRegex source => pure (.regex (Regex.compile true source ""))
  | .function body => do return .function (← fresh) body
  | .range bounds => do return .range (← buildBounds call bounds)
  | .node c args named rules => do
    let args ← buildAll call args
    let named ← buildNamed call named
    match Arguments.ofPositional? c args named with
    | none => fail (.arity c.name)
    | some given =>
      let id ← Construction.construct call c given
      buildRules call (.node id) rules
      return .node id
  | .ref name => held name
  | .type t => buildType call t
  | .nodeClass c => pure (.nodeClass c)
  | .builtin name => pure (.builtin name)
  | .bytes s => pure (.bytes s)
  | .foreign kind => do return .foreign (← fresh) kind

def buildAll (call : Caller) : List Literal → Build (List Value)
  | [] => pure []
  | x :: xs => do
    let v ← build call x
    return v :: (← buildAll call xs)

def buildEntries (call : Caller) : List (String × Literal) → Build (Entries Value Value)
  | [] => pure []
  | (k, x) :: es => do
    let v ← build call x
    return (.text k, v) :: (← buildEntries call es)

def buildNamed (call : Caller) : List (Parameter × Literal) → Build Arguments
  | [] => pure []
  | (p, x) :: ps => do
    let v ← build call x
    return (p, v) :: (← buildNamed call ps)

/-- Adds rules to a builder; each value is built before its selector. -/
def buildRules (call : Caller) (target : Value) : List (Literal × Literal) → Build Unit
  | [] => pure ()
  | (selector, value) :: rest => do
    let v ← build call value
    let id ← Builder.builder target "with_"
    let s ← build call selector
    Builder.add call id s v
    buildRules call target rest

def buildBounds (call : Caller) : Bounds Literal → Build (Bounds Value)
  | ⟨min, max, minExclusive, maxExclusive, ofLength⟩ => do
    let min ← build call min
    let max ← build call max
    let minExclusive ← build call minExclusive
    let maxExclusive ← build call maxExclusive
    return ⟨min, max, minExclusive, maxExclusive, ← build call ofLength⟩

/-- The type that a literal denotes, or what stands in its place. -/
def buildType (call : Caller) : TypeLiteral Literal → Build Value
  | .basic name => pure (.type (.basic name))
  | .any => pure (.type .any)
  | .model name => declared name
  | .optional t => do
    let t ← memberType "typing.Optional requires a single type." (← buildType call t)
    chosen [t, .absent]
  | .choice ts => do chosen (← memberTypes Typing.choiceContext (← buildTypes call ts))
  | .joined ts => do joined (← buildTypes call ts)
  | .list t => do return .type (.list (← memberType elementContext (← buildType call t)))
  | .dict key value => do
    let key ← buildType call key
    let value ← buildType call value
    let key ← memberType elementContext key
    return .type (.dict key (← memberType elementContext value))
  | .annotated t => do
    let t ← memberType "Annotated[t, ...]: t must be a type." (← buildType call t)
    return .type (withNote t)
  | .value v => build call v

def buildTypes (call : Caller) : List (TypeLiteral Literal) → Build (List Value)
  | [] => pure []
  | t :: ts => do
    let v ← buildType call t
    return v :: (← buildTypes call ts)

end

end Literal

end DraftSchema
