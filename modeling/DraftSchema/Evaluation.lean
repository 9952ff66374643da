import DraftSchema.Evaluation.Operation

/-!
Running the body of a function. The body is followed as it is written, operands from left to right;
what its constants stand for is asked for each time they are reached, and calls of values found on
the way are made by the caller that is handed in.
-/
namespace DraftSchema

/-- How a value is called with arguments. -/
abbrev Caller := Value → List Value → Build Value

section

open Build

variable {α : Type} (constant : α → Build Value) (call : Caller) (arg : Value)

mutual

/-- The value of a body for an argument. -/
def evaluate : Expression α → Build Value
  | .arg => pure arg
  | .const c => constant c
  | .attr target name => do attr (← evaluate target) name
  | .item target key => do
    let v ← evaluate target
    item v (← evaluate key)
  | .slice target start stop => do slice (← evaluate target) start stop
  | .compare op left right => do
    let a ← evaluate left
    compare op a (← evaluate right)
  | .chain first op middle op' last => do
    let a ← evaluate first
    let b ← evaluate middle
    let here ← compare op a b
    if ← truth here then compare op' b (← evaluate last) else pure here
  | .arith op left right => do
    let a ← evaluate left
    arithmetic op a (← evaluate right)
  | .neg operand => do negate (← evaluate operand)
  | .call callee args => do
    let f ← evaluate callee
    call f (← evaluateAll args)
  | .length operand => do length (← evaluate operand)
  | .elements operand => do list (← elements (← evaluate operand))
  | .member element container => do
    let v ← evaluate element
    return .bool (← contains v (← evaluate container))
  | .and left right => do
    let v ← evaluate left
    if ← truth v then evaluate right else pure v
  | .or left right => do
    let v ← evaluate left
    if ← truth v then pure v else evaluate right
  | .not operand => do return .bool (!(← truth (← evaluate operand)))
  | .cond test yes no => do
    if ← truth (← evaluate test) then evaluate yes else evaluate no
  | .raise fault => fail fault

/-- The values of several bodies, the first one first. -/
def evaluateAll : List (Expression α) → Build (List Value)
  | [] => pure []
  | e :: es => do
    let v ← evaluate e
    return v :: (← evaluateAll es)

end

end

end DraftSchema
