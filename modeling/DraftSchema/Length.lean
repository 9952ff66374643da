import DraftSchema.Number.Whole
import DraftSchema.Predicate

/-!
Lengths: bounds that count elements. An exclusive or fractional bound becomes the nearest whole
number inside it; a least length below zero says nothing, and a greatest one allows no length.
-/
namespace DraftSchema

/-- The least and the greatest length, where they are limited. -/
structure LengthBounds where
  least : Option Nat := none
  most : Option Nat := none
  deriving DecidableEq, Repr

/-- Whether a length lies within bounds. -/
def LengthBounds.admits (b : LengthBounds) (n : Nat) : Bool :=
  (b.least.all fun least => least ≤ n) && (b.most.all fun most => n ≤ most)

namespace Length

/-- The rational that a bound denotes, if it is a finite number. -/
def exact (kindName : Value → String) (v : Value) : Except Fault Rat :=
  match v.denote? with
  | some (.exact q) => .ok q
  | some (.infinite _) => .error .infinityToInteger
  | some .undefined => .error .nanToInteger
  | none => .error (.notReal (kindName v))

/-- The least whole number that a lower bound allows. -/
def lowest (q : Rat) (exclusive : Bool) : Int := if exclusive then q.floor + 1 else q.ceil

/-- The greatest whole number that an upper bound allows. -/
def highest (q : Rat) (exclusive : Bool) : Int := if exclusive then q.ceil - 1 else q.floor

/-- The least length that a lower bound allows. -/
def least (kindName : Value → String) (v : Value) (exclusive : Bool) :
    Except Fault (Option Nat) :=
  match v.present with
  | none => .ok none
  | some v => do
    let q ← exact kindName v
    return some (lowest q exclusive).toNat

/-- The greatest length that an upper bound allows. -/
def most (kindName : Value → String) (v : Value) (exclusive : Bool) :
    Except Fault (Option Nat) :=
  match v.present with
  | none => .ok none
  | some v => do
    let q ← exact kindName v
    let n := highest q exclusive
    if n < 0 then throw (.refused (.negativeLength (← Whole.text n)))
    return some n.toNat

/-- The lengths that bounds allow. -/
def ofBounds (kindName : Value → String) (b : Bounds Value) : Except Fault LengthBounds := do
  let least ← least kindName b.min b.minExclusive.isTrue
  let most ← most kindName b.max b.maxExclusive.isTrue
  return { least, most }

/-- The lengths that are given by bounds or by a predicate. -/
def bounds (call : Caller) (v : Value) : Build LengthBounds := do
  let b ← Predicate.range call v
  Build.fromStore fun s => ofBounds s.kindName b

end Length

end DraftSchema
