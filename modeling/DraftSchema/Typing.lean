import DraftSchema.TypeExpression.Reader
import DraftSchema.Node.Display
import DraftSchema.Value.Key

/-!
Making types from types. A choice spreads out the choices in it and has each of its types once, in
the order in which they first came; a choice of one type is that type. Choices are made by name from
anything that may stand where a type belongs, or by joining classes with bars.
-/
namespace DraftSchema.Typing

/-- A text with no more than a number of characters. -/
def cut (limit : Nat) (s : String) : String := String.ofList (s.toList.take limit)

/-- What stands for a value as part of a type; `context` says what is being made. Nothing stands for
its class, and a text for the type it names, which has to be an expression. -/
def member (s : Store) (context : String) (v : Value) : Except Fault (TypeForm Value) :=
  match v with
  | .null => .ok .absent
  | .type t => .ok t
  | .text t => do
    let _ ← TypeExpression.read t
    return .reference t
  | .tuple xs => do
    let shown ← s.valueDetail (.tuple xs)
    throw (.stated .type (context ++ " Got " ++ cut 100 shown ++ "."))
  | v => .ok (.other v)

/-- The fault of the first type that cannot be told from others by a key. -/
def unhashable? (s : Store) : List (TypeForm Value) → Option Fault
  | [] => none
  | t :: ts =>
    match Value.unhashableIn? t with
    | some v => some (.unhashable (s.kindName v))
    | none => unhashable? s ts

/-- Types with each of them once. -/
def distinct (ts : List (TypeForm Value)) : List (TypeForm Value) :=
  (ts.foldl
    (fun acc t =>
      if acc.any fun u => Value.typeKey u = Value.typeKey t then acc else t :: acc) []).reverse

/-- A choice of types, of which a single one stands for itself. -/
def union (barred : Bool) (ts : List (TypeForm Value)) : TypeForm Value :=
  match distinct (ts.flatMap TypeForm.alternatives) with
  | [t] => t
  | ts => .union barred ts

/-- What a choice by name is worded with in faults. -/
def choiceContext : String := "Union[arg, ...]: each arg must be a type."

/-- A choice by name. -/
def choice (s : Store) (ts : List (TypeForm Value)) : Except Fault (TypeForm Value) :=
  if ts.isEmpty then .error (.stated .type "Cannot take a Union of no types.")
  else
    match unhashable? s (ts.flatMap TypeForm.alternatives) with
    | some f => .error f
    | none => .ok (union false ts)

/-- Whether a value can be joined with bars: classes can, and what is made of them by bars. -/
def isJoinable : Value → Bool
  | .null | .nodeClass _ => true
  | .type t =>
    match t with
    | .basic _ | .any | .model _ | .generic .. => true
    | .union barred _ => barred
    | _ => false
  | _ => false

/-- Whether a value is a type made by name, which joins with anything. -/
def isNamed : Value → Bool
  | .type t => !isJoinable (.type t)
  | _ => false

/-- A joinable value as part of a type. -/
def joined : Value → TypeForm Value
  | .null => .absent
  | .type t => t
  | v => .other v

/-- The choice between two values, if they can be joined. -/
def join? (s : Store) (a b : Value) : Option (Except Fault Value) :=
  if isJoinable a && isJoinable b then
    match a, b with
    | .null, .null => none
    | a, b => some (.ok (.ofType (union true [joined a, joined b])))
  else if isNamed a || isNamed b then
    some do
      let a ← member s choiceContext a
      let b ← member s choiceContext b
      return .ofType (← choice s [a, b])
  else none

/-- The classes of collections that can be written with what is in them. -/
def collections : List String :=
  ["list", "dict", "tuple", "set", "frozenset", "type", "enumerate"]

/-- The members that a key asks for. -/
def membersOf : Value → List (TypeForm Value)
  | .tuple xs => xs.map fun x => match x with
    | .type t => t
    | x => .other x
  | .type t => [t]
  | v => [.other v]

/-- What a type gives for a key: a collection class with what is in it. -/
def subscript (s : Store) (t : TypeForm Value) (key : Value) : Except Fault Value :=
  let refused (name : String) :=
    Except.error (Fault.stated .type ("type '" ++ name ++ "' is not subscriptable"))
  match t with
  | .basic name =>
    if collections.contains name then .ok (.type (.generic name (membersOf key)))
    else refused name
  | .any => refused "Any"
  | .model m => refused m.name
  | .reference _ => .error (.notSubscriptable "ForwardRef")
  | .other v => .error (.notSubscriptable (s.kindName v))
  | t => do throw (.stated .type ((← s.valueText (.type t)) ++ " is not a generic class"))

end DraftSchema.Typing
