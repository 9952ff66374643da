import DraftSchema.Expression
import DraftSchema.NodeClass

/-!
Literals: how values are written down. A literal is built into a value in a workspace, each time
anew; variables stand for values built before. The constants in the body of a function are literals
too, built whenever the body reaches them.
-/
namespace DraftSchema

/-- The bounds that a single comparison describes, and whether it was made on a length. -/
structure Bounds (α : Type) where
  min : α
  max : α
  minExclusive : α
  maxExclusive : α
  ofLength : α

/-- A type as it is written down; what is no type is an `α`. -/
inductive TypeLiteral (α : Type) where
  /-- A built-in class by its name. -/
  | basic (name : String)
  | any
  /-- A declared class by its name. -/
  | model (name : String)
  /-- A type or nothing. -/
  | optional (type : TypeLiteral α)
  /-- A choice between types. -/
  | choice (members : List (TypeLiteral α))
  /-- A choice between types that is made by joining one to the other. -/
  | joined (members : List (TypeLiteral α))
  | list (element : TypeLiteral α)
  | dict (key value : TypeLiteral α)
  /-- A type with a note. -/
  | annotated (type : TypeLiteral α)
  | value (v : α)

/-- A value as it is written down. -/
inductive Literal where
  | null
  | bool (b : Bool)
  | int (n : Int)
  /-- A whole number by its numeral. -/
  | whole (numeral : String)
  /-- A floating-point number by its numeral. -/
  | float (numeral : String)
  | text (s : String)
  | list (xs : List Literal)
  | tuple (xs : List Literal)
  | dict (entries : List (String × Literal))
  /-- A pattern by its source and the letters of its flags. -/
  | regex (source flags : String)
  | bytesRegex (source : String)
  | function (body : Expression Literal)
  | range (bounds : Bounds Literal)
  /-- A rule of a class, and what is then added to it: pairs of a selector and a value. -/
  | node (c : NodeClass) (args : List Literal) (named : List (Parameter × Literal))
      (rules : List (Literal × Literal))
  | ref (name : String)
  | type (t : TypeLiteral Literal)
  | nodeClass (c : NodeClass)
  | builtin (name : String)
  | bytes (s : String)
  | foreign (kind : String)

instance : Inhabited Literal := ⟨.null⟩

end DraftSchema
