import DraftSchema.Keyword
import DraftSchema.Value.Key
import DraftSchema.Value.Kind

/-!
Rules and the store that holds them. Rules refer to one another by address, so that one rule may
stand in several places and a change to it shows in all of them. Only object rules ever change.
-/
namespace DraftSchema

/-- A rule for texts. -/
structure StringRule where
  format : Option Value
  pattern : Option Value
  minLength : Option Value
  maxLength : Option Value
  allowed : Option (List Value)

/-- A rule for numbers. -/
structure NumberRule where
  multipleOf : Option Value
  minimum : Option Value
  maximum : Option Value
  exclusiveMinimum : Option Value
  exclusiveMaximum : Option Value

/-- What the elements of an array must satisfy: nothing, one rule for all of them, or one rule for
each of the first ones. -/
inductive Items where
  | free
  | every (node : NodeId)
  | each (nodes : List NodeId)
  deriving DecidableEq, Repr

/-- A rule for arrays. -/
structure ArrayRule where
  minItems : Option Value
  maxItems : Option Value
  uniqueItems : Option Value
  items : Items
  additionalItems : Option Value

/-- The kinds of object rules: a plain one, a builder for one object, and a builder whose rules
apply to the value under every key. -/
inductive ObjectKind where
  | plain | schema | dictionary
  deriving DecidableEq, Repr

/-- A rule for objects. -/
structure ObjectRule where
  kind : ObjectKind
  model : Value
  properties : Entries Value Value
  required : List Value
  additional : Option Value

/-- The ways to combine rules in a list. -/
inductive CombinatorKind where
  | plain | anyOf | oneOf | allOf
  deriving DecidableEq, Repr

/-- What a rule says. -/
inductive Rule where
  | string (rule : StringRule)
  | number (rule : NumberRule)
  | boolean (allowed : Option (List Value))
  | array (rule : ArrayRule)
  | object (rule : ObjectRule)
  | combinator (kind : CombinatorKind) (children : List NodeId)
  | negation (child : NodeId)

/-- A rule and whether the object that has the property requires it. -/
structure Node where
  rule : Rule
  required : Value

namespace ObjectKind

def nodeClass : ObjectKind → NodeClass
  | plain => .object
  | schema => .schema
  | dictionary => .dictionary

/-- Whether a path may lead through a rule of this kind. -/
def acceptsProperties : ObjectKind → Bool
  | plain | schema => true
  | dictionary => false

end ObjectKind

namespace CombinatorKind

def nodeClass : CombinatorKind → NodeClass
  | plain => .combinator
  | anyOf => .anyOf
  | oneOf => .oneOf
  | allOf => .allOf

/-- The member name that a combinator is written under; the plain one has none. -/
def keyword : CombinatorKind → String
  | plain => ""
  | anyOf => Keyword.anyOf.text
  | oneOf => Keyword.oneOf.text
  | allOf => Keyword.allOf.text

end CombinatorKind

namespace Rule

/-- The class of a rule. -/
def nodeClass : Rule → NodeClass
  | .string _ => .string
  | .number _ => .number
  | .boolean _ => .boolean
  | .array _ => .array
  | .object r => r.kind.nodeClass
  | .combinator kind _ => kind.nodeClass
  | .negation _ => .negation

/-- The type a rule is bound to; combinators are bound to none. -/
def typeText? : Rule → Option String
  | .string _ => some "string"
  | .number _ => some "number"
  | .boolean _ => some "boolean"
  | .array _ => some "array"
  | .object _ => some "object"
  | .combinator .. => none
  | .negation _ => none

end Rule

namespace ObjectRule

/-- The object rule that a path creates where it finds nothing. -/
def empty : ObjectRule :=
  { kind := .plain, model := .null, properties := [], required := [], additional := none }

/-- Puts a rule under a name. -/
def setProperty (r : ObjectRule) (name v : Value) : ObjectRule :=
  { r with properties := r.properties.set name v }

/-- Whether a name is listed as required. -/
def requires (r : ObjectRule) (name : Value) : Bool := Entries.has r.required name

/-- Whether a name can be looked for among the required ones. An operand that stands before it
refuses to be told whether it is the same. -/
def searchable (r : ObjectRule) (name : Value) : Bool :=
  !(r.required.takeWhile fun v => !(v == name)).any Value.isOperand

/-- Lists a name as required, once. -/
def addRequired (r : ObjectRule) (name : Value) : ObjectRule :=
  if r.requires name then r else { r with required := r.required ++ [name] }

end ObjectRule

/-- The rules by address. -/
structure Store where
  nodes : List Node := []

namespace Store

/-- The rule at an address. -/
def get? (s : Store) (id : NodeId) : Option Node := s.nodes[id]?

/-- How many rules there are. -/
def size (s : Store) : Nat := s.nodes.length

/-- Puts a rule at a new address. -/
def alloc (s : Store) (node : Node) : Store × NodeId := (⟨s.nodes ++ [node]⟩, s.nodes.length)

/-- Changes the rule at an address. -/
def set (s : Store) (id : NodeId) (node : Node) : Store := ⟨s.nodes.set id node⟩

/-- The object rule at an address. -/
def object? (s : Store) (id : NodeId) : Option ObjectRule :=
  match s.get? id with
  | some ⟨.object r, _⟩ => some r
  | _ => none

/-- Changes the object rule at an address. -/
def modifyObject (s : Store) (id : NodeId) (f : ObjectRule → ObjectRule) : Store :=
  match s.get? id with
  | some ⟨.object r, required⟩ => s.set id ⟨.object (f r), required⟩
  | _ => s

/-- The name of the class of the rule at an address. -/
def className (s : Store) (id : NodeId) : String :=
  match s.get? id with
  | some node => node.rule.nodeClass.name
  | none => NodeClass.object.name

/-- The name of a value's type. -/
def typeName (s : Store) (v : Value) : String := v.typeName s.className

/-- The name of a value's type as faults of operations show it. -/
def kindName (s : Store) (v : Value) : String := v.longTypeName s.className

/-- Whether a name both begins and ends with two underscores. -/
def isReserved (name : String) : Bool :=
  ['_', '_'].isPrefixOf name.toList && ['_', '_'].isSuffixOf name.toList

/-- The fault of an attribute that a type does not have. Constructed types ask the class they are
made from, unless the name is a reserved one. -/
def missingOfType (s : Store) (t : TypeForm Value) (name : String) : Fault :=
  let ofClass (owner : String) := Fault.noAttribute ("type object '" ++ owner ++ "'") name
  let ofObject (owner : String) := Fault.noAttribute ("'" ++ owner ++ "' object") name
  let asking (f : Fault) := if isReserved name then .reserved name else f
  match t with
  | .basic owner => ofClass owner
  | .any => ofClass "Any"
  | .model m => ofClass m.name
  | .list _ => asking (ofClass "list")
  | .dict .. => asking (ofClass "dict")
  | .generic owner _ => ofClass owner
  | .annotated t _ => asking (s.missingOfType t name)
  | .union true _ => ofObject "types.UnionType"
  | .union false _ => .reserved name
  | .reference _ => ofObject "ForwardRef"
  | .other v => ofObject (s.kindName v)

/-- The fault of an attribute that a value does not have. -/
def missing (s : Store) (v : Value) (name : String) : Fault :=
  match v with
  | .type t => s.missingOfType t name
  | .nodeClass c => .noAttribute ("type object '" ++ c.name ++ "'") name
  | v => .noAttribute ("'" ++ s.kindName v ++ "' object") name

/-- Whether a value is the address of a rule. -/
def isNode (v : Value) : Bool :=
  match v with
  | .node _ => true
  | _ => false

@[simp] theorem get?_alloc_self (s : Store) (node : Node) :
    (s.alloc node).1.get? (s.alloc node).2 = some node := by
  simp [alloc, get?]

theorem get?_alloc_lt (s : Store) (node : Node) {id : NodeId} (h : id < s.size) :
    (s.alloc node).1.get? id = s.get? id := by
  simp only [size] at h
  simp [alloc, get?, List.getElem?_append_left h]

@[simp] theorem size_set (s : Store) (id : NodeId) (node : Node) :
    (s.set id node).size = s.size := by
  simp [set, size]

theorem get?_set_ne (s : Store) (node : Node) {id other : NodeId} (h : id ≠ other) :
    (s.set id node).get? other = s.get? other := by
  simp [set, get?, List.getElem?_set_ne h]

@[simp] theorem size_modifyObject (s : Store) (id : NodeId) (f : ObjectRule → ObjectRule) :
    (s.modifyObject id f).size = s.size := by
  unfold modifyObject
  split <;> simp

/-- Changing one object rule leaves the other rules alone. -/
theorem get?_modifyObject_ne (s : Store) (f : ObjectRule → ObjectRule) {id other : NodeId}
    (h : id ≠ other) : (s.modifyObject id f).get? other = s.get? other := by
  unfold modifyObject
  split
  · exact get?_set_ne s _ h
  · rfl

/-- The changed object rule. -/
theorem object?_modifyObject_self (s : Store) (id : NodeId) (f : ObjectRule → ObjectRule) :
    (s.modifyObject id f).object? id = (s.object? id).map f := by
  unfold modifyObject object?
  cases h : s.get? id with
  | none => simp [h]
  | some node =>
    obtain ⟨rule, required⟩ := node
    have hlt : id < s.nodes.length := (List.getElem?_eq_some_iff.mp h).1
    cases rule <;> simp only [h, Option.map_none, Option.map_some]
    simp [set, get?, List.getElem?_set_self hlt]

end Store

end DraftSchema
