import DraftSchema.Fault

/-!
The bodies of one-argument functions: selectors such as `m.parent.child`, predicates such as
`x < 10`, and everything else that may be written in their place. Constants are of any type `α`:
a body is written with literals and runs with values.
-/
namespace DraftSchema

/-- The body of a one-argument function. -/
inductive Expression (α : Type) where
  /-- The argument. -/
  | arg
  | const (c : α)
  /-- `target.name` -/
  | attr (target : Expression α) (name : String)
  /-- `target[key]` -/
  | item (target key : Expression α)
  /-- `target[start:stop]` -/
  | slice (target : Expression α) (start stop : Option Int)
  | compare (op : Relation) (left right : Expression α)
  /-- `first op middle op' last`, the middle being evaluated once. -/
  | chain (first : Expression α) (op : Relation) (middle : Expression α) (op' : Relation)
      (last : Expression α)
  | arith (op : Arithmetic) (left right : Expression α)
  | neg (operand : Expression α)
  | call (callee : Expression α) (args : List (Expression α))
  | length (operand : Expression α)
  /-- The elements of the operand as a list. -/
  | elements (operand : Expression α)
  | member (element container : Expression α)
  | and (left right : Expression α)
  | or (left right : Expression α)
  | not (operand : Expression α)
  | cond (test yes no : Expression α)
  | raise (fault : Fault)

end DraftSchema
