import DraftSchema.Number.Extended

/-!
Binary floating-point numbers of 64 bits, kept as sign, mantissa and exponent. Each finite number
is held in its one reduced form, so two of them are the same exactly when their parts are.
Rounding goes to the nearest number and a half to the even mantissa; past the largest number it
gives an infinity.
-/
namespace DraftSchema

/-- The reduced forms `mantissa · 2 ^ exponent`: 53 binary digits, fewer only at the least
exponent. -/
def Binary64.Fits (mantissa : Nat) (exponent : Int) : Prop :=
  mantissa < Nat.pow 2 53 ∧ -1074 ≤ exponent ∧ exponent ≤ 971 ∧
    (Nat.pow 2 52 ≤ mantissa ∨ exponent = -1074)

instance (m : Nat) (e : Int) : Decidable (Binary64.Fits m e) := by
  unfold Binary64.Fits; infer_instance

/-- A binary floating-point number. What is no number carries a payload, by which two of them are
told apart. -/
inductive Binary64 where
  | nan (payload : Nat)
  | infinity (negative : Bool)
  | finite (negative : Bool) (mantissa : Nat) (exponent : Int)
      (fits : Binary64.Fits mantissa exponent)
  deriving DecidableEq

namespace Binary64

/-- Zero, of either sign. -/
def zero (negative : Bool) : Binary64 := .finite negative 0 (-1074) (by decide)

instance : Inhabited Binary64 := ⟨zero false⟩

/-- The rational `mantissa · 2 ^ exponent`. -/
def scale (mantissa : Nat) (exponent : Int) : Rat :=
  if 0 ≤ exponent then ((mantissa * Nat.pow 2 exponent.toNat : Nat) : Rat)
  else mkRat mantissa (Nat.pow 2 (-exponent).toNat)

/-- The rational with the given sign and size. -/
def signed (negative : Bool) (q : Rat) : Rat := if negative then -q else q

/-- What a floating-point number denotes. -/
def denote : Binary64 → Extended
  | .nan _ => .undefined
  | .infinity negative => .infinite negative
  | .finite negative m e _ => .exact (signed negative (scale m e))

/-- Finite numbers denote rationals. -/
def toRat? : Binary64 → Option Rat
  | .finite negative m e _ => some (signed negative (scale m e))
  | _ => none

def isFinite (x : Binary64) : Bool := x.toRat?.isSome

/-- Whether the sign bit is set; it tells the two zeros apart. -/
def isNegative : Binary64 → Bool
  | .nan _ => false
  | .infinity negative => negative
  | .finite negative _ _ _ => negative

/-! ## Rounding -/

/-- The natural number nearest to a quotient, a half going to the even one. -/
def roundQuotient (num den : Nat) : Nat :=
  let q := num / den
  let twice := 2 * (num % den)
  if den < twice ∨ (twice = den ∧ q % 2 = 1) then q + 1 else q

/-- The largest `k` with `2 ^ k ≤ num / den`, for positive `num` and `den`. -/
def leadingExponent (num den : Nat) : Int :=
  let k : Int := (num.log2 : Int) - (den.log2 : Int)
  let reached := if 0 ≤ k then den * Nat.pow 2 k.toNat ≤ num
    else den ≤ num * Nat.pow 2 (-k).toNat
  if reached then k else k - 1

/-- The number with the given parts, if it has a reduced form, and else an infinity. -/
def ofParts (negative : Bool) (mantissa : Nat) (exponent : Int) : Binary64 :=
  if fits : Fits mantissa exponent then .finite negative mantissa exponent fits
  else .infinity negative

/-- The floating-point number nearest to `num / den`, with the given sign. -/
def ofQuotient (negative : Bool) (num den : Nat) : Binary64 :=
  if num = 0 then zero negative
  else
    let e := max (leadingExponent num den - 52) (-1074)
    let m := if 0 ≤ e then roundQuotient num (den * Nat.pow 2 e.toNat)
      else roundQuotient (num * Nat.pow 2 (-e).toNat) den
    if m = Nat.pow 2 53 then ofParts negative (Nat.pow 2 52) (e + 1)
    else ofParts negative m e

/-- The floating-point number nearest to a rational; an exact zero takes the given sign. -/
def ofRat (zeroNegative : Bool) (q : Rat) : Binary64 :=
  if q = 0 then zero zeroNegative else ofQuotient (q < 0) q.num.natAbs q.den

/-- The floating-point number nearest to a whole number, if one is in range. -/
def ofInt? (n : Int) : Option Binary64 :=
  let x := ofRat false n
  if x.isFinite then some x else none

end Binary64

end DraftSchema
