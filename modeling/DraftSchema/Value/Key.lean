import DraftSchema.Number.Extended
import DraftSchema.Value

/-!
When two values are equal as keys. Numbers are by what they denote, truth values counting as
numbers; what is no number is by its identity; sequences are element by element, and choices between
types whatever their order. Each value has a key, and values are equal exactly when their keys are.
-/
namespace DraftSchema

/-- A part of a key: what it is part of, and a text that tells it from its like. -/
structure KeyPart where
  mark : String
  text : String := ""
  deriving DecidableEq, Ord

/-- What values are compared by. -/
abbrev Key := List KeyPart

namespace Key

/-- Keys in a sequence. -/
def sequence (mark : String) (keys : List Key) : Key :=
  ⟨mark, toString keys.length⟩ :: keys.flatten

/-- Keys of which neither order nor number matters. -/
def set (keys : List Key) : Key :=
  sequence "set" (keys.eraseDups.mergeSort fun a b => (compare a b).isLE)

/-- The key of what a number denotes; something undefined has the given payload. -/
def number (payload : Nat) : Extended → Key
  | .undefined => [⟨"nan", toString payload⟩]
  | .infinite negative => [⟨"infinity", if negative then "-" else "+"⟩]
  | .exact q => [⟨"number", toString q.num ++ "/" ++ toString q.den⟩]

/-- The key of something that is told apart by its number. -/
def identity (mark : String) (id : Nat) : Key := [⟨mark, toString id⟩]

/-- Foreign things are told apart by what they hold, which their type says, and plain objects one by
one. -/
def foreign (id : Nat) (kind : String) : Key :=
  if kind = "object" then identity "object" id
  else if kind = "frozenset" then [⟨"foreign", "set"⟩]
  else if kind = "bytearray" then [⟨"bytes", "bytes"⟩]
  else [⟨"foreign", kind⟩]

end Key

namespace Value

/-- The payload of what is no number. -/
def payload : Binary64 → Nat
  | .nan payload => payload
  | _ => 0

mutual

/-- The key of a value. -/
def key : Value → Key
  | .null => [⟨"none", ""⟩]
  | .bool b => Key.number 0 (.exact (if b then 1 else 0))
  | .int n => Key.number 0 (.exact n)
  | .float x => Key.number (payload x) x.denote
  | .text s => [⟨"text", s⟩]
  | .bytes s => [⟨"bytes", s⟩]
  | .list _ xs => Key.sequence "list" (keysOf xs)
  | .tuple xs => Key.sequence "tuple" (keysOf xs)
  | .dict _ es => Key.sequence "dict" (entryKeys es)
  | .regex r =>
    [⟨if r.onBytes then "bytes pattern" else "pattern", r.source⟩,
     ⟨"flags", String.join (r.flags.map RegexFlag.text)⟩]
  | .function id _ => Key.identity "function" id
  | .range b => boundsKey b
  | .node id => Key.identity "rule" id
  | .type t => typeKey t
  | .nodeClass c => [⟨"class of rules", c.name⟩]
  | .builtin name => [⟨"built-in", name⟩]
  | .foreign id kind => Key.foreign id kind
  | .sized n => [⟨"sized", toString n⟩]
  | .recorder id _ => Key.identity "recorder" id
  | .operand id _ => Key.identity "operand" id
  | .comparison id _ _ _ _ => Key.identity "comparison" id
  | .method owner name => ⟨"method", name⟩ :: owner.key
  | .classMethod c name => [⟨"method of class", name⟩, ⟨"class", c.name⟩]

def keysOf : List Value → List Key
  | [] => []
  | x :: xs => x.key :: keysOf xs

def entryKeys : List (Value × Value) → List Key
  | [] => []
  | (k, x) :: es => (k.key ++ x.key) :: entryKeys es

def boundsKey : Bounds Value → Key
  | ⟨min, max, minExclusive, maxExclusive, ofLength⟩ =>
    Key.sequence "range" [min.key, max.key, minExclusive.key, maxExclusive.key, ofLength.key]

/-- The key of a type. -/
def typeKey : TypeForm Value → Key
  | .basic name => [⟨"type", name⟩]
  | .any => [⟨"any", ""⟩]
  | .model m => Key.identity "model" m.number
  | .list t => ⟨"type of lists", ""⟩ :: typeKey t
  | .dict k v => ⟨"type of mappings", ""⟩ :: (typeKey k ++ typeKey v)
  | .generic name ts => ⟨"generic", name⟩ :: Key.sequence "members" (typeKeys ts)
  | .annotated t notes => ⟨"annotated", toString notes⟩ :: typeKey t
  | .union _ ts => ⟨"union", ""⟩ :: Key.set (typeKeys ts)
  | .reference s => [⟨"reference", s⟩]
  | .other v => v.key

def typeKeys : List (TypeForm Value) → List Key
  | [] => []
  | t :: ts => typeKey t :: typeKeys ts

end

/-- Equality as keys. -/
instance : BEq Value := ⟨fun a b => decide (a.key = b.key)⟩

theorem beq_iff (a b : Value) : (a == b) = true ↔ a.key = b.key := decide_eq_true_iff

/-- Equality as keys is an equivalence. -/
instance : EquivBEq Value where
  rfl := (beq_iff _ _).mpr rfl
  symm h := (beq_iff _ _).mpr ((beq_iff _ _).mp h).symm
  trans h h' := (beq_iff _ _).mpr (((beq_iff _ _).mp h).trans ((beq_iff _ _).mp h'))

/-- Texts are equal as keys exactly when they are the same. -/
theorem text_beq_text (a b : String) : (Value.text a == .text b) = decide (a = b) := by
  rw [Bool.eq_iff_iff, beq_iff, decide_eq_true_iff]
  simp [key]

end Value

end DraftSchema
