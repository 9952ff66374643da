import DraftSchema.Value

/-!
Annotations that are written as texts. Such a text is an expression: names and constants, their
attributes, items and calls, and operations between them. What the names stand for is decided where
the text is looked at.
-/
namespace DraftSchema

/-- A constant of a written annotation. -/
inductive TypeExpression.Constant where
  | null
  | bool (b : Bool)
  | int (n : Int)
  | float (x : Binary64)
  /-- An imaginary number, of which only the type counts. -/
  | imaginary
  | text (s : String)
  | bytes (s : String)
  /-- A function, of which only the name counts. -/
  | function

/-- The value of a constant. -/
def TypeExpression.Constant.value : TypeExpression.Constant → Value
  | null => .null
  | bool b => .bool b
  | int n => .int n
  | float x => .float x
  | imaginary => .foreign 0 "complex"
  | text s => .text s
  | bytes s => .bytes s
  | function => .builtin "<lambda>"

/-- An annotation that was written as a text. -/
inductive TypeExpression where
  | name (s : String)
  | constant (c : TypeExpression.Constant)
  | attr (target : TypeExpression) (name : String)
  | item (target key : TypeExpression)
  | call (callee : TypeExpression) (args : List TypeExpression)
  | arith (op : Arithmetic) (left right : TypeExpression)
  /-- An operation that neither numbers nor types are expected to have, by its sign. -/
  | mixed (sign : String) (left right : TypeExpression)
  | neg (operand : TypeExpression)
  /-- A number as it is. -/
  | plus (operand : TypeExpression)
  /-- The whole number with all binary digits exchanged. -/
  | complement (operand : TypeExpression)
  | compare (op : Relation) (left right : TypeExpression)
  | member (element container : TypeExpression)
  | not (operand : TypeExpression)
  | and (left right : TypeExpression)
  | or (left right : TypeExpression)
  | cond (test yes no : TypeExpression)
  /-- The first one of the parts of what follows a star. -/
  | first (container : TypeExpression)
  | tuple (parts : List TypeExpression)
  | list (parts : List TypeExpression)

end DraftSchema
