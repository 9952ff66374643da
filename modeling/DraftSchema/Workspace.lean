import DraftSchema.Model
import DraftSchema.Node.Equality

/-!
What rules are built in: the store, the declared models, the variables, and the messages of completed
steps. A build that fails keeps what happened before the fault, since rules that were made by then
may already be in use.
-/
namespace DraftSchema

/-- A variable: its value, and the number of the occasion on which the value was made, by which
values that look alike are told apart. -/
structure Variable where
  value : Value
  origin : Nat

/-- The state that rules are built in. -/
structure Workspace where
  models : Catalog := []
  store : Store := {}
  vars : Entries String Variable := []
  /-- The next number for something told apart by identity alone. -/
  next : Nat := 1
  /-- The messages of completed steps, in order. -/
  log : List String := []

instance : Inhabited Workspace := ⟨{}⟩

/-- A computation that builds rules and may meet a fault. -/
abbrev Build := EStateM Fault Workspace

namespace Build

/-- A number not used before. -/
def fresh : Build Nat := fun w => .ok w.next { w with next := w.next + 1 }

/-- The rules as they are. -/
def store : Build Store := fun w => .ok w.store w

/-- The variables. -/
def vars : Build (Entries String Variable) := fun w => .ok w.vars w

/-- Gives a variable a value. -/
def assign (name : String) (v : Variable) : Build Unit :=
  fun w => .ok () { w with vars := w.vars.set name v }

/-- The declared models. -/
def models : Build Catalog := fun w => .ok w.models w

/-- Changes the rules. -/
def modifyStore (f : Store → Store) : Build Unit := fun w => .ok () { w with store := f w.store }

/-- Puts a rule at a new address. -/
def alloc (rule : Rule) (required : Value) : Build NodeId := fun w =>
  let (s, id) := w.store.alloc ⟨rule, required⟩
  .ok id { w with store := s }

/-- Adds a message. -/
def say (message : String) : Build Unit := fun w => .ok () { w with log := w.log ++ [message] }

/-- Fails with a fault. -/
def fail {α : Type} (f : Fault) : Build α := fun w => .error f w

/-- Fails with a refusal. -/
def refuse {α : Type} (r : Refusal) : Build α := fail (.refused r)

/-- A result that was computed apart. -/
def ofExcept {α : Type} : Except Fault α → Build α
  | .ok a => pure a
  | .error f => fail f

/-- Something computed from the rules as they are. -/
def fromStore {α : Type} (f : Store → Except Fault α) : Build α := do ofExcept (f (← store))

/-- Runs a computation and gives its fault as a result; what happened before it stays. -/
def attempt {α : Type} (b : Build α) : Build (Except Fault α) := fun w =>
  match b w with
  | .ok a w => .ok (.ok a) w
  | .error f w => .ok (.error f) w

/-- The name of a value's type. -/
def typeName (v : Value) : Build String := do return (← store).typeName v

/-- The name of a value's type as faults of operations show it. -/
def kindName (v : Value) : Build String := do return (← store).kindName v

/-- Whether a value counts as true. -/
def truth (v : Value) : Build Bool :=
  match v.truth with
  | .ok b => pure b
  | .error r => refuse r

/-- A new list. -/
def list (xs : List Value) : Build Value := do return .list (← fresh) xs

/-- A new mapping. -/
def dict (entries : Entries Value Value) : Build Value := do return .dict (← fresh) entries

/-- A recorder of a path. -/
def recorder (path : List Value) : Build Value := do return .recorder (← fresh) path

/-- The argument of a predicate, or its length. -/
def operand (ofLength : Bool) : Build Value := do return .operand (← fresh) ofLength

/-- A floating-point result; what is no number gets an identity of its own. -/
def float (x : Binary64) : Build Value :=
  match x with
  | .nan _ => do return .float (.nan (← fresh))
  | x => pure (.float x)

end Build

end DraftSchema
