import DraftSchema.Evaluation.CollectionMethod
import DraftSchema.Evaluation.NumberMethod

/-!
The operations that stand behind signs and built-in functions, called by their own names. Where the
operation of the first operand has no answer for the second one, it says so by a value of its own,
and no other operation is tried.
-/
namespace DraftSchema.Build

/-- What says that an operation has no answer. -/
def unanswered : Build Value := do return .foreign (← fresh) "NotImplementedType"

/-- Whether arithmetic with a number as first operand has an answer for another operand. -/
def answersArithmetic (v w : Value) : Bool :=
  match v with
  | .float _ => w.denote?.isSome
  | _ => v.toInt?.isSome && w.toInt?.isSome

/-- A sequence times a count, whichever it is. -/
def timesCount (v count : Value) : Build Value := do
  let _ ← countOf count
  product v count

/-- Arithmetic by name; `turned` when the value is the second operand. -/
def namedArithmetic (op : Arithmetic) (turned : Bool) (v w : Value) : Build Value :=
  if v.denote?.isSome then
    if answersArithmetic v w then if turned then arithmetic op w v else arithmetic op v w
    else unanswered
  else
    match op, v, w with
    | .add, v, w => join v w
    | .mul, v, w => timesCount v w
    | .mod, .text s, w => if turned then reversedFormat s w else formatted s w
    | .either, .dict _ es, .dict _ es' =>
      let (first, last) := if turned then (es', es) else (es, es')
      dict (last.foldl (fun acc e => acc.set e.1 e.2) first)
    | _, _, _ => unanswered
where
  /-- A text put into another one. -/
  reversedFormat (s : String) : Value → Build Value
    | .text format => formatted format (.text s)
    | _ => unanswered

/-- Whether two values are of types that are compared with each other. -/
def areComparable (v w : Value) : Bool :=
  match v, w with
  | .text _, .text _ | .bytes _, .bytes _ | .list .., .list .. | .tuple _, .tuple _ => true
  | v, w => answersArithmetic v w

/-- Whether two values are of types that are asked for equality. -/
def areEquatable (v w : Value) : Bool :=
  match v, w with
  | .dict .., .dict .. | .node _, .node _ => true
  | v, w => areComparable v w

/-- A comparison by name. What has no equality of its own is equal to itself. -/
def namedComparison (op : Relation) (v w : Value) : Build Value :=
  if v matches .operand .. || areComparable v w then compare op v w
  else if op ≠ .eq ∧ op ≠ .ne then unanswered
  else if areEquatable v w then compare op v w
  else if !areEquatable v v && v.key = w.key then pure (.bool (op = .eq))
  else unanswered

/-- An operation without further operands. -/
def applyUnary (v : Value) (name : String) : Build Value :=
  match name with
  | "__str__" => .text <$> fromStore fun s => s.valueText v
  | "__repr__" => .text <$> fromStore fun s => s.valueDetail v
  | "__len__" => length v
  | "__bool__" => do return .bool (← truth v)
  | "__neg__" => negate v
  | "__abs__" => absolute v
  | "__invert__" => do return .int (-((v.toInt?.getD 0) + 1))
  | "__pos__" => do
    match v.toInt? with
    | some n => return .int n
    | none => return v
  | "__int__" | "__index__" | "__trunc__" => toWhole v
  | "__floor__" => roundedTo Rat.floor v
  | "__ceil__" => roundedTo Rat.ceil v
  | "__round__" => roundedTo nearest v
  | "__float__" => toReal v
  | name => fail (.arity name)

/-- The operations without further operands. -/
def unaryNames : List String :=
  ["__str__", "__repr__", "__len__", "__bool__", "__neg__", "__abs__", "__invert__", "__pos__",
   "__int__", "__index__", "__trunc__", "__floor__", "__ceil__", "__round__", "__float__"]

/-- An operation with one further operand. -/
def applyBinary (v : Value) (name : String) (w : Value) : Build Value :=
  match name with
  | "__getitem__" => item v w
  | "__contains__" => do return .bool (← contains w v)
  | "__getattribute__" =>
    match w with
    | .text name => attr v name
    | w => failOn
        (fun type => .stated .type ("attribute name must be string, not '" ++ type ++ "'")) w
  | name =>
    match Method.comparisons.find? (·.1 = name), Method.arithmetic.find? (·.1 = name),
        Method.arithmetic.find? (·.2.2 = name) with
    | some (_, op), _, _ => namedComparison op v w
    | _, some (_, op, _), _ => namedArithmetic op false v w
    | _, _, some (_, op, _) => namedArithmetic op true v w
    | _, _, _ => fail (.arity name)

/-- The fault of a wrong number of operands. Repetitions of sequences and powers are worded for a
name that they do not have. -/
def wrongOperands (v : Value) (name : String) (wanted given : Nat) : Fault :=
  let isPower := name = "__pow__" || name = "__rpow__"
  let lead := if isPower then " expected at least "
    else if isSequence v && (name = "__mul__" || name = "__rmul__") then " expected "
    else "expected "
  .stated .type (lead ++ Method.counted wanted "argument" ++ ", got " ++ toString given)

/-- What an operation behind a sign gives. -/
def applySign (v : Value) (name : String) (args : List Value) : Build Value :=
  if unaryNames.contains name then
    match args with
    | [] => applyUnary v name
    | args => fail (wrongOperands v name 0 args.length)
  else
    match args with
    | [w] => applyBinary v name w
    | args => fail (wrongOperands v name 1 args.length)

/-- What an operation gives that a value has under a name of its own. -/
def applyNamed (v : Value) (name : String) (args : List Value) : Build Value :=
  match v with
  | .text s => applyText s.toList name args
  | .list id xs => applyList id xs name args
  | .tuple xs => applyTuple xs name args
  | .dict id es => applyMapping id es name args
  | .float x => applyReal x name args
  | v =>
    match v.toInt? with
    | some n => applyWhole n name args
    | none => fail (.arity name)

/-- What an operation of a value of a type gives; `owner` is the type that it is asked of. -/
def applyOf (type owner : String) (v : Value) (name : String) (args : List Value) :
    Build Value :=
  let mismatch := (Method.signature? type name).bind fun g =>
    if args.length < g.least ∨ g.most < args.length then some (g.mismatch owner args.length)
    else none
  match mismatch with
  | some f => fail f
  | none =>
    if (Method.named type).any (·.name = name) then applyNamed v name args
    else applySign v name args

/-- What an operation of a value that is no rule gives. -/
def applyPlain (v : Value) (name : String) (args : List Value) : Build Value := do
  let type ← typeName v
  applyOf type type v name args

/-- What an operation of a built-in type gives, whose first argument is the value it is for. -/
def applyUnbound (type name : String) (args : List Value) : Build Value := do
  let isNamed := (Method.signature? type name).isSome
  match args with
  | [] =>
    if isNamed then
      fail (.stated .type ("unbound method " ++ type ++ "." ++ name ++ "() needs an argument"))
    else
      fail (.stated .type
        ("descriptor '" ++ name ++ "' of '" ++ type ++ "' object needs an argument"))
  | v :: rest =>
    let given ← typeName v
    if given = type ∨ (type = "int" ∧ given = "bool") then applyOf given type v name rest
    else if isNamed then
      fail (.stated .type ("descriptor '" ++ name ++ "' for '" ++ type
        ++ "' objects doesn't apply to a '" ++ given ++ "' object"))
    else
      fail (.stated .type ("descriptor '" ++ name ++ "' requires a '" ++ type
        ++ "' object but received a '" ++ given ++ "'"))

end DraftSchema.Build
