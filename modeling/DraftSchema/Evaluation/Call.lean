import DraftSchema.Evaluation.SignMethod
import DraftSchema.Literal.Build

/-!
Calling values. Calls nest no deeper than a fixed bound, so that every evaluation ends; a function
that calls itself without end meets a fault there. Constants in the body of a function are built when
the body reaches them.
-/
namespace DraftSchema.Build

/-! ## Operations -/

/-- What a recorder's own operation gives. One that asks for an attribute by its name records it
whatever it has itself. -/
def applyRecorder (id : Nat) (path : List Value) (name : String) (args : List Value) :
    Build Value :=
  match name, args with
  | "__getattr__", [.text key] =>
    if Store.isReserved key then fail (.reserved key) else recorder (path ++ [.text key])
  | "__getattr__", [key] => do fail ((← store).missing key "startswith")
  | "__getitem__", [key] => item (.recorder id path) key
  | "__bool__", [] => do return .bool (← truth (.recorder id path))
  | "__init__", _ => pure .null
  | _, _ => do return .foreign (← fresh) "object"

/-- What an operation of a rule gives. -/
def applyNode (call : Caller) (id : NodeId) (name : String) (args : List Value) : Build Value :=
  match name, args with
  | "to_dict", [] => fromStore fun s => s.document id
  | "build", [] => Builder.build id
  | "json", [] => do return .text (← Builder.json id .null)
  | "json", [indent] => do return .text (← Builder.json id indent)
  | "with_", [selector, value] => do
    Builder.add call id selector value
    return .node id
  | "add_required", [name] => do
    let _ ← Builder.require (.node id) name
    return .null
  | name, args =>
    if Method.slots.contains name then applySign (.node id) name args else fail (.arity name)

/-- What an operation of a value gives. -/
def applyMethod (call : Caller) (owner : Value) (name : String) (args : List Value) :
    Build Value :=
  match owner with
  | .recorder id path => applyRecorder id path name args
  | .node id => applyNode call id name args
  | .type (.basic type) =>
    if type = "dict" ∧ name = "fromkeys" then applyMapping 0 [] name args
    else applyUnbound type name args
  | owner => if name = "__call__" then call owner args else applyPlain owner name args

/-- What an operation of a class gives, its rule being the first argument. -/
def applyClassMethod (call : Caller) (c : NodeClass) (name : String) (args : List Value) :
    Build Value :=
  match args with
  | .node id :: args => applyNode call id name args
  | v :: _ => do fail ((← store).missing v name)
  | [] => fail (.noOwner (Method.ownerName c name ++ "." ++ name))

/-! ## Calls -/

/-- A call of something other than a function with a body. -/
def applyOther (call : Caller) (callee : Value) (args : List Value) : Build Value :=
  match callee with
  | .builtin name => applyBuiltin name args
  | .type t => instantiate args t
  | .method owner name => applyMethod call owner name args
  | .classMethod c name => applyClassMethod call c name args
  | .nodeClass c =>
    match Arguments.ofPositional? c args [] with
    | some given => .node <$> Construction.construct call c given
    | none => fail (.arity c.name)
  | callee => failOn .notCallable callee

/-- Calls a value, with calls inside it nested up to `fuel`. -/
def callWithin : (fuel : Nat) → Caller
  | 0, _, _ => fail .tooDeep
  | fuel + 1, .function _ body, args =>
    match args with
    | [arg] => evaluate (Literal.build (callWithin fuel)) (callWithin fuel) arg body
    | _ => fail (.arity "function")
  | fuel + 1, callee, args => applyOther (callWithin fuel) callee args

/-- How deep calls nest. -/
def callDepth : Nat := 300

/-- Calls a value. -/
def call : Caller := callWithin callDepth

end DraftSchema.Build
