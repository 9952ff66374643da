import DraftSchema.Number.Binary64

/-!
Arithmetic on floating-point numbers: every operation takes the exact result and rounds it once.
A result that is no number gets payload zero.
-/
namespace DraftSchema.Binary64

/-- A result that is no number. -/
def undefined : Binary64 := .nan 0

/-- The number with its sign changed. -/
def neg : Binary64 → Binary64
  | .nan payload => .nan payload
  | .infinity negative => .infinity (!negative)
  | .finite negative m e fits => .finite (!negative) m e fits

/-- The number without its sign. -/
def abs (x : Binary64) : Binary64 := if x.isNegative then x.neg else x

/-- The rounded sum. Opposite infinities have none; a zero sum is negative only when both terms
are. -/
def add (x y : Binary64) : Binary64 :=
  match x.denote, y.denote with
  | .exact a, .exact b => ofRat (x.isNegative && y.isNegative) (a + b)
  | .infinite a, .infinite b => if a = b then .infinity a else undefined
  | .infinite a, .exact _ => .infinity a
  | .exact _, .infinite b => .infinity b
  | _, _ => undefined

/-- The rounded difference. -/
def sub (x y : Binary64) : Binary64 := x.add y.neg

/-- The rounded product. Zero times an infinity has none. -/
def mul (x y : Binary64) : Binary64 :=
  let negative := x.isNegative != y.isNegative
  match x.denote, y.denote with
  | .exact a, .exact b => ofRat negative (a * b)
  | .infinite _, .infinite _ => .infinity negative
  | .infinite _, .exact b => if b = 0 then undefined else .infinity negative
  | .exact a, .infinite _ => if a = 0 then undefined else .infinity negative
  | _, _ => undefined

/-- The rounded quotient by a divisor that is not zero. -/
def div (x y : Binary64) : Binary64 :=
  let negative := x.isNegative != y.isNegative
  match x.denote, y.denote with
  | .exact a, .exact b => ofRat negative (a / b)
  | .infinite _, .exact _ => .infinity negative
  | .exact _, .infinite _ => zero negative
  | _, _ => undefined

/-- Whether the number is a zero. -/
def isZero (x : Binary64) : Bool := x.toRat? == some 0

/-- The number one. -/
def one : Binary64 := ofRat false 1

/-- The greatest whole number up to a number. -/
def floor (x : Binary64) : Binary64 :=
  match x.denote with
  | .exact q => ofRat x.isNegative (q.floor : Int)
  | _ => x

/-- The number with the sign of another one. -/
def withSignOf (x y : Binary64) : Binary64 := if x.isNegative = y.isNegative then x else x.neg

/-- The remainder of a division that is cut off, which has the dividend's sign; the divisor is not
zero. -/
def remainder (x y : Binary64) : Binary64 :=
  match x.denote, y.denote with
  | .exact a, .exact b =>
    let q := a / b
    ofRat x.isNegative (a - b * ((if q < 0 then q.ceil else q.floor : Int) : Rat))
  | .exact _, .infinite _ => x
  | _, _ => undefined

/-- The remainder with the divisor's sign; the divisor is not zero. -/
def floorMod (x y : Binary64) : Binary64 :=
  let r := x.remainder y
  if r.isZero then (zero false).withSignOf y
  else if r.isNegative != y.isNegative then r.add y else r

/-- The whole part of a division; the divisor is not zero. The dividend is first made a multiple of
the divisor, so that the quotient is nearly whole; what the roundings on the way have left of a
fraction goes to the nearer side. -/
def floorDiv (x y : Binary64) : Binary64 :=
  let r := x.remainder y
  let q := (x.sub r).div y
  let q := if !r.isZero && r.isNegative != y.isNegative then q.sub one else q
  if q.isZero then (zero false).withSignOf (x.div y)
  else
    let whole := q.floor
    match (q.sub whole).denote with
    | .exact rest => if 1 / 2 < rest then whole.add one else whole
    | _ => whole

end DraftSchema.Binary64
