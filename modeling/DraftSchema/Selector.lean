import DraftSchema.Evaluation

/-!
Selectors: which property a rule is for. A selector is an explicit path of names, or a function
that does nothing with its argument but access names on it, one after the other.
-/
namespace DraftSchema

/-- Whether a fault says that what was read from a function has no supported form. -/
def Fault.isReading : Fault → Bool
  | .refused r => r.code.isReading
  | _ => false

/-- Runs a function that only tells what it means: of its own faults those that stem from doing more
are replaced by others, refusals to read it and other faults pass. -/
def Build.reading {α : Type} (replaced : Fault → Fault) (b : Build α) : Build α := do
  match ← attempt b with
  | .ok a => pure a
  | .error f =>
    if !f.isReading && f.kind.isRecoverable then fail (replaced f) else fail f

/-- One name of a path. Names are texts, save where a recorder was made from something else. -/
structure Segment where
  name : Value
  /-- Whether the path ends here. -/
  leaf : Bool

/-- The names of a path, of which the last one is a leaf. -/
def Segment.ofPath : List Value → List Segment
  | [] => []
  | [name] => [⟨name, true⟩]
  | name :: rest => ⟨name, false⟩ :: ofPath rest

namespace Selector

open Build

/-- The names of an explicit path. -/
def names : List Value → Build (List Value)
  | [] => pure []
  | .text name :: rest => do return .text name :: (← names rest)
  | v :: _ => do refuse (.pathName (← typeName v))

/-- What stands for a fault of a function that did more than access names: a refusal with the words
of the fault. Where a key has none, to word it is a fault again. -/
def worded (f : Fault) : Fault :=
  if f.kind = .hiddenKey then .tooManyDigits Whole.digitLimit none
  else .refused (.notAPath (some f.text))

/-- The path that was accessed on the argument of a function; the empty one if the argument came
back unchanged. -/
def recorded (call : Caller) (selector : Value) : Build (List Value) := do
  let start ← recorder []
  match ← reading worded (call selector [start]) with
  | .recorder _ path => pure path
  | _ => refuse (.notAPath none)

/-- The path that a selector stands for. -/
def path (call : Caller) (selector : Value) : Build (List Value) :=
  match selector with
  | .list _ vs => names vs
  | .tuple vs => names vs
  | v =>
    if v.isCallable then recorded call v
    else do refuse (.notASelector (← typeName v))

end Selector

end DraftSchema
