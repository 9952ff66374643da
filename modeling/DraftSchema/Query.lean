import DraftSchema.Description
import DraftSchema.Evaluation.Call
import DraftSchema.Value.Identity

/-!
Questions about single values: what a selector, a predicate or a raw value comes to. Each is asked
in a workspace of its own, in which the values are built first.
-/
namespace DraftSchema.Query

open Build

/-- The value that a literal denotes. -/
def value (literal : Literal) : Build Value := Literal.build call literal

/-- The values of named literals. -/
def values : List (String × Literal) → Build (Entries String Value)
  | [] => pure []
  | (name, literal) :: rest => do
    let v ← value literal
    return (name, v) :: (← values rest)

/-- Declares classes in a scope, with their bases and the annotations of their fields. -/
def declare (scope : String) :
    List (String × List String × List (String × Literal)) → Build Unit
  | [] => pure ()
  | (name, bases, fields) :: rest => do
    let fields ← values fields
    let catalog ← Build.ofExcept ((← models).declare scope name bases fields)
    fun w => .ok () { w with models := catalog }
    declare scope rest

/-- The path that a selector stands for. -/
def segments (selector : Literal) : Build (List Segment) := do
  return Segment.ofPath (← Selector.path call (← value selector))

/-- The bounds that a predicate stands for. -/
def predicateBounds (predicate : Literal) : Build (Bounds Value) := do
  Predicate.bounds call (← value predicate)

/-- The bounds that are given as such or by a predicate. -/
def bounds (v : Literal) : Build (Bounds Value) := do
  Predicate.range call (← value v)

/-- The lengths that are given by bounds or by a predicate. -/
def lengths (v : Literal) : Build LengthBounds := do
  Length.bounds call (← value v)

/-- The rule that a raw value is compiled into, and whether it is the value itself. -/
def compiled (mode : LiteralMode) (v : Literal) : Build (Description × Bool) := do
  let v ← value v
  let id ← Construction.compile call mode v
  let d ← fromStore fun s => s.describe (.node id)
  return (d, (← store).identical v (.node id))

/-- The rule that is made by a literal. -/
def made (v : Literal) : Build Description := do
  let v ← value v
  fromStore fun s => s.describe v

/-- Whether two values are equal. -/
def equality (a b : Literal) : Build Bool := do
  let a ← value a
  let b ← value b
  fromStore fun s => s.equal a b

/-- The texts of the parts of a path that need not be texts. -/
def names (parts : Literal) : Build (List String) := do
  let parts ← value parts
  if ← truth parts then
    let parts ← elements parts
    fromStore fun s => parts.mapM s.valueText
  else return []

/-- The text of one part of a path. -/
def name (part : Literal) : Build String := do
  let v ← value part
  fromStore fun s => s.valueText v

end DraftSchema.Query
