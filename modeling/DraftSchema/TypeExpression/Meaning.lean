import DraftSchema.TypeExpression.Reader
import DraftSchema.TypeExpression.Scope
import DraftSchema.Evaluation

/-!
What written annotations stand for. An annotation is computed like the body of a function, save that
its names are looked up among the declared classes and what is built in. One that comes to a text is
read once more; one that comes to a tuple stands for no type.
-/
namespace DraftSchema.Build

/-- The first one of the parts of a value; a collection class with what is in it stands for its
parts. -/
def firstOf (v : Value) : Build Value := do
  match v with
  | .type (.generic name members) => return .type (.generic name members)
  | v =>
    match ← elements v with
    | x :: _ => return x
    | [] => fail (.outOfRange "tuple")

mutual

/-- What an expression comes to. -/
def annotated (call : Caller) : TypeExpression → Build Value
  | .name s => do ofExcept (TypeExpression.named (← models) s)
  | .constant c => pure c.value
  | .attr target field => do attr (← annotated call target) field
  | .item target key => do
    let v ← annotated call target
    item v (← annotated call key)
  | .call callee args => do
    let f ← annotated call callee
    call f (← annotatedAll call args)
  | .arith op left right => do
    let a ← annotated call left
    arithmetic op a (← annotated call right)
  | .mixed sign left right => do
    let a ← annotated call left
    let b ← annotated call right
    fail (.stated .type ("unsupported operand type(s) for " ++ sign ++ ": '" ++ (← kindName a)
      ++ "' and '" ++ (← kindName b) ++ "'"))
  | .neg operand => do negate (← annotated call operand)
  | .plus operand => do negate (← negate (← annotated call operand))
  | .complement operand => do
    match (← annotated call operand).toInt? with
    | some n => return .int (-n - 1)
    | none => fail (.stated .type "bad operand type for unary ~")
  | .compare op left right => do
    let a ← annotated call left
    compare op a (← annotated call right)
  | .member element container => do
    let v ← annotated call element
    return .bool (← contains v (← annotated call container))
  | .not operand => do return .bool (!(← truth (← annotated call operand)))
  | .and left right => do
    let v ← annotated call left
    if ← truth v then annotated call right else pure v
  | .or left right => do
    let v ← annotated call left
    if ← truth v then pure v else annotated call right
  | .cond test yes no => do
    if ← truth (← annotated call test) then annotated call yes else annotated call no
  | .first container => do firstOf (← annotated call container)
  | .tuple parts => do return .tuple (← annotatedAll call parts)
  | .list parts => do list (← annotatedAll call parts)

/-- What several expressions come to, the first one first. -/
def annotatedAll (call : Caller) : List TypeExpression → Build (List Value)
  | [] => pure []
  | a :: rest => do
    let v ← annotated call a
    return v :: (← annotatedAll call rest)

end

/-- What faults of annotations that stand for no type begin with. -/
def annotationContext : String := "Forward references must evaluate to types."

/-- What a computation gives, all else being left as it is. -/
def apart {α : Type} (b : Build α) (w : Workspace) : Except Fault α :=
  match b w with
  | .ok a _ => .ok a
  | .error f _ => .error f

/-- What the annotation in a text stands for, with texts inside it read as well; `fuel` bounds how
deep they are nested, beyond which a text stands for itself. -/
def meaningWithin (call : Caller) : (fuel : Nat) → String → Build Value
  | 0, text => pure (.type (.reference text))
  | fuel + 1, text => do
    let v ← annotated call (← ofExcept (TypeExpression.read text))
    let t ← fromStore fun s => Typing.member s annotationContext v
    fun w => (ofExcept (Value.ofType <$>
      Catalog.resolveType w.store (fun text => apart (meaningWithin call fuel text) w) t)) w

/-- The numbers that are handed out while annotations are read; no session comes to as many. -/
def annotationNumber : Nat := Nat.pow 2 64

/-- Where annotations are read: among the declared classes, of which only the names count, and apart
from everything that is built. -/
def annotationSpace (models : Catalog) : Workspace :=
  { models := models.withoutFields, next := annotationNumber }

/-- How deep texts in annotations are nested. -/
def textDepth : Nat := 50

/-- What the annotation in a text stands for. -/
def meaning (call : Caller) (text : String) : Build Value := meaningWithin call textDepth text

end DraftSchema.Build
