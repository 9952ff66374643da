/-!
The forms of types, as models and annotations use them: classes, choices, collections of a type, and
types with notes. Anything else that stands where a type belongs is an `α`.
-/
namespace DraftSchema

/-- A declared class: its number among the declared ones, the scope it is declared in, its name. -/
structure ModelRef where
  number : Nat
  scope : String
  name : String
  deriving DecidableEq, Repr

/-- A type. -/
inductive TypeForm (α : Type) where
  /-- A built-in class by its name. -/
  | basic (name : String)
  /-- The class of everything. -/
  | any
  /-- A declared class. -/
  | model (reference : ModelRef)
  | list (element : TypeForm α)
  | dict (key value : TypeForm α)
  /-- A collection class with what is in it, as it is written after the class. -/
  | generic (name : String) (members : List (TypeForm α))
  /-- A type with a number of notes attached. -/
  | annotated (type : TypeForm α) (notes : Nat)
  /-- A choice between types, written with bars or by name. -/
  | union (barred : Bool) (members : List (TypeForm α))
  /-- A type named in a text, not looked up yet. -/
  | reference (text : String)
  /-- Something that is no type. -/
  | other (v : α)

namespace TypeForm

variable {α : Type}

/-- The class of the absent value. -/
def absent : TypeForm α := .basic "NoneType"

/-- Whether a type is the class of the absent value. -/
def isAbsent : TypeForm α → Bool
  | .basic name => name = "NoneType"
  | _ => false

/-- Whether a type is a class, and not a construction from classes. -/
def isClass : TypeForm α → Bool
  | .basic _ | .any | .model _ => true
  | _ => false

/-- Whether a type can be called like a function. -/
def isCallable : TypeForm α → Bool
  | .union barred _ => !barred
  | .reference _ | .other _ => false
  | _ => true

/-- The types among which a type is a choice. -/
def alternatives : TypeForm α → List (TypeForm α)
  | .union _ ts => ts
  | t => [t]

/-- The type that a choice of one type and nothing leads to. -/
def required? : TypeForm α → Option (TypeForm α)
  | .union _ ts =>
    match ts.filter (!·.isAbsent) with
    | [t] => some t
    | _ => none
  | _ => none

end TypeForm

end DraftSchema
