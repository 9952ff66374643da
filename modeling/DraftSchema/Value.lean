import DraftSchema.Entries
import DraftSchema.Literal
import DraftSchema.Number.Binary64
import DraftSchema.Regex
import DraftSchema.TypeForm

/-!
Values: what a literal denotes, what a keyword of a rule holds, what a document is made of, and
what the body of a function computes with. Rules live in a store and are values by their address.
Lists and mappings carry the number of the object they are, since they may be held in several places
and change in all of them; so do values that are told apart by identity alone.
-/
namespace DraftSchema

/-- The address of a rule in the store. -/
abbrev NodeId := Nat

/-- A value. The number of a list or mapping is zero when it is made on the spot and held nowhere
else, as documents are. -/
inductive Value where
  | null
  | bool (b : Bool)
  | int (n : Int)
  | float (x : Binary64)
  | text (s : String)
  /-- Bytes, as characters below 256. -/
  | bytes (s : String)
  | list (id : Nat) (xs : List Value)
  | tuple (xs : List Value)
  | dict (id : Nat) (entries : List (Value × Value))
  | regex (r : Regex)
  | function (id : Nat) (body : Expression Literal)
  | range (bounds : Bounds Value)
  | node (id : NodeId)
  | type (t : TypeForm Value)
  | nodeClass (c : NodeClass)
  | builtin (name : String)
  /-- Something of a type that rules know nothing about. -/
  | foreign (id : Nat) (kind : String)
  /-- Data of which only the length matters. -/
  | sized (length : Int)
  /-- A recording of the names that were accessed on a selector's argument. -/
  | recorder (id : Nat) (path : List Value)
  /-- The argument of a predicate, or its length. -/
  | operand (id : Nat) (ofLength : Bool)
  /-- A recorded comparison of an operand with a value. -/
  | comparison (id : Nat) (operand : Nat) (ofLength : Bool) (op : Relation) (value : Value)
  /-- An operation of a value, to be called by its name. -/
  | method (owner : Value) (name : String)
  /-- An operation that a class of rules has for its rules. -/
  | classMethod (c : NodeClass) (name : String)

instance : Inhabited Value := ⟨.null⟩

namespace Value

/-- Nothing stands for a value that is absent. -/
def present : Value → Option Value
  | .null => none
  | v => some v

/-- A list made on the spot. -/
def listing (xs : List Value) : Value := .list 0 xs

/-- A mapping made on the spot. -/
def mapping (entries : Entries Value Value) : Value := .dict 0 entries

/-- A mapping made on the spot whose keys are texts. -/
def record (entries : Entries String Value) : Value :=
  .dict 0 (entries.map fun e => (.text e.1, e.2))

/-- A type as a value; what is no type stands for itself. -/
def ofType : TypeForm Value → Value
  | .other v => v
  | t => .type t

end Value

end DraftSchema
