import DraftSchema.Selector

/-!
Predicates: which values a rule allows. A predicate is a function that makes one comparison between
its argument, or the length of its argument, and a number; it stands for the bounds it allows.
-/
namespace DraftSchema

/-- Whether a value can be a bound: numbers can, truth values cannot. -/
def Value.isBound : Value → Bool
  | .int _ | .float _ => true
  | _ => false

/-- The bounds that a comparison with a value allows. -/
def Bounds.ofComparison? (ofLength : Bool) (op : Relation) (v : Value) : Option (Bounds Value) :=
  let none' := Value.null
  let off := Value.bool false
  let on := Value.bool true
  match op with
  | .eq => some ⟨v, v, off, off, .bool ofLength⟩
  | .ge => some ⟨v, none', off, off, .bool ofLength⟩
  | .le => some ⟨none', v, off, off, .bool ofLength⟩
  | .gt => some ⟨v, none', on, off, .bool ofLength⟩
  | .lt => some ⟨none', v, off, on, .bool ofLength⟩
  | .ne => none

/-- Whether a bound, if there is one, stands in a relation to a number. -/
def Value.limits (bound : Value) (op : Relation) (q : Rat) : Bool :=
  match bound.present with
  | none => true
  | some v =>
    match v.denote? with
    | some x => Extended.holds op x (.exact q)
    | none => false

/-- Whether a number lies within bounds. -/
def Bounds.admits (b : Bounds Value) (q : Rat) : Bool :=
  b.min.limits (if b.minExclusive.isTrue then .lt else .le) q
    && b.max.limits (if b.maxExclusive.isTrue then .gt else .ge) q

namespace Predicate

open Build

/-- The bounds that a recorded comparison allows. -/
def ofResult? : Value → Option (Bounds Value)
  | .comparison _ _ ofLength op v =>
    if v.isBound then Bounds.ofComparison? ofLength op v else none
  | _ => none

/-- The bounds that a predicate allows. -/
def bounds (call : Caller) (predicate : Value) : Build (Bounds Value) := do
  if !predicate.isCallable then refuse .notAComparison
  let x ← operand false
  let result ← reading (fun _ => .refused .notAComparison) (call predicate [x])
  match ofResult? result with
  | some b => pure b
  | none => refuse .notAComparison

/-- The bounds that are given as such or by a predicate. -/
def range (call : Caller) (v : Value) : Build (Bounds Value) :=
  match v with
  | .range b => pure b
  | v => bounds call v

end Predicate

end DraftSchema
