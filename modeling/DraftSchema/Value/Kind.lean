import DraftSchema.Number.Extended
import DraftSchema.Fault
import DraftSchema.Value

/-!
What kind of thing a value is: the name of its type, the number it denotes, whether it counts as
true, and whether it may serve as a key.
-/
namespace DraftSchema

namespace TypeForm

/-- The name of a type's own type. -/
def kindName : TypeForm Value → String
  | .basic _ | .model _ => "type"
  | .any => "_AnyMeta"
  | .list _ | .dict .. => "_GenericAlias"
  | .generic .. => "GenericAlias"
  | .annotated .. => "_AnnotatedAlias"
  | .union true _ => "UnionType"
  | .union false _ => "_UnionGenericAlias"
  | .reference _ => "ForwardRef"
  | .other _ => "object"

/-- The name of a type, if it has one. Types that others are made from lend them their own. -/
def name? : TypeForm Value → Option String
  | .basic name => some name
  | .any => some "Any"
  | .model m => some m.name
  | .list _ => some "List"
  | .dict .. => some "Dict"
  | .generic name _ => some name
  | .annotated .. => some "Annotated"
  | .union true _ => none
  | .union false members =>
    some (if members.length = 2 && members.any isAbsent then "Optional" else "Union")
  | .reference _ => none
  | .other _ => none

end TypeForm

namespace Value

/-- The class of recorders. -/
def recorderClass : String := "_PathRecorder"

/-- The operations that are declared for recorders, and not for everything. -/
def recorderMethods : List String := ["__bool__", "__getattr__", "__getitem__", "__init__"]

/-- Operations of everything that are functions and not slots of a type. -/
def commonFunctions : List String :=
  ["__dir__", "__format__", "__getstate__", "__init_subclass__", "__new__", "__reduce__",
   "__reduce_ex__", "__sizeof__", "__subclasshook__"]

/-- Whether a name is that of an operation behind a sign. -/
def isSlotName (name : String) : Bool :=
  name.startsWith "__" && !commonFunctions.contains name

/-- The name of the type of an operation. -/
def methodKind (owner : Value) (name : String) : String :=
  match owner with
  | .recorder .. =>
    if recorderMethods.contains name then "method"
    else if commonFunctions.contains name then "builtin_function_or_method"
    else "method-wrapper"
  | .node _ => "method"
  | .type _ => "method_descriptor"
  | _ => if isSlotName name then "method-wrapper" else "builtin_function_or_method"

/-- The name of a value's type, given the class names of the rules in the store. -/
def typeName (className : NodeId → String) : Value → String
  | .null => "NoneType"
  | .bool _ => "bool"
  | .int _ => "int"
  | .float _ => "float"
  | .text _ => "str"
  | .bytes _ => "bytes"
  | .list .. => "list"
  | .tuple _ => "tuple"
  | .dict .. => "dict"
  | .regex _ => "Pattern"
  | .function .. => "function"
  | .range _ => "Range"
  | .node id => className id
  | .type t => t.kindName
  | .nodeClass _ => "ABCMeta"
  | .builtin _ => "builtin_function_or_method"
  | .foreign _ kind => kind
  | .sized _ => "object"
  | .recorder .. => recorderClass
  | .operand .. => "_Operand"
  | .comparison .. => "_Comparison"
  | .method owner name => methodKind owner name
  | .classMethod .. => "function"

/-- The name of a value's type as faults of operations show it: some types are shown with the place
they come from. -/
def longTypeName (className : NodeId → String) (v : Value) : String :=
  match v with
  | .regex _ => "re.Pattern"
  | .foreign _ "Decimal" => "decimal.Decimal"
  | .type (.union true _) => "types.UnionType"
  | .type (.generic ..) => "types.GenericAlias"
  | v => v.typeName className

/-- The number a value denotes; a truth value counts as one or zero. -/
def denote? : Value → Option Extended
  | .bool b => some (.exact (if b then 1 else 0))
  | .int n => some (.exact n)
  | .float x => some x.denote
  | _ => none

/-- The whole number a value stands for, truth values included. -/
def toInt? : Value → Option Int
  | .bool b => some (if b then 1 else 0)
  | .int n => some n
  | _ => none

/-- Whether a value can be called. -/
def isCallable : Value → Bool
  | .function .. | .nodeClass _ | .builtin _ | .method .. | .classMethod .. => true
  | .type t => t.isCallable
  | _ => false

/-- Whether a value is a class. -/
def isClass : Value → Bool
  | .nodeClass _ => true
  | .type t => t.isClass
  | _ => false

/-- Whether a value is the argument of a predicate, or its length. -/
def isOperand : Value → Bool
  | .operand .. => true
  | _ => false

/-- Whether a value counts as true. Recordings refuse to be asked. -/
def truth : Value → Except Refusal Bool
  | .null => .ok false
  | .bool b => .ok b
  | .int n => .ok (n ≠ 0)
  | .float x => .ok (x.toRat? ≠ some 0)
  | .text s => .ok (s ≠ "")
  | .bytes s => .ok (s ≠ "")
  | .list _ xs => .ok (!xs.isEmpty)
  | .tuple xs => .ok (!xs.isEmpty)
  | .dict _ es => .ok (!es.isEmpty)
  | .recorder .. => .error (.notAPath none)
  | .operand .. => .error .notAComparison
  | .comparison .. => .error .notAComparison
  | _ => .ok true

/-- Whether a value counts as true, recordings aside. -/
def isTrue (v : Value) : Bool :=
  match v.truth with
  | .ok b => b
  | .error _ => true

/-! ## Keys of mappings -/

mutual

/-- The part of a value that keeps it from being a key: what may change is no key. -/
def unhashable? : Value → Option Value
  | .list id xs => some (.list id xs)
  | .dict id es => some (.dict id es)
  | .range b => some (.range b)
  | .node id => some (.node id)
  | .operand id ofLength => some (.operand id ofLength)
  | .foreign id kind =>
    if kind = "set" ∨ kind = "bytearray" then some (.foreign id kind) else none
  | .tuple xs => unhashableAmong? xs
  | .type t => unhashableIn? t
  | _ => none

def unhashableAmong? : List Value → Option Value
  | [] => none
  | x :: xs =>
    match x.unhashable? with
    | some v => some v
    | none => unhashableAmong? xs

def unhashableIn? : TypeForm Value → Option Value
  | .basic _ | .any | .model _ | .reference _ => none
  | .list t => unhashableIn? t
  | .dict k v =>
    match unhashableIn? k with
    | some x => some x
    | none => unhashableIn? v
  | .generic _ ts => unhashableMember? ts
  | .annotated t _ => unhashableIn? t
  | .union _ ts => unhashableMember? ts
  | .other v => v.unhashable?

def unhashableMember? : List (TypeForm Value) → Option Value
  | [] => none
  | t :: ts =>
    match unhashableIn? t with
    | some x => some x
    | none => unhashableMember? ts

end

/-- Whether a value can be a key of a mapping. -/
def isHashable (v : Value) : Bool := v.unhashable?.isNone

end Value

end DraftSchema
