import DraftSchema.Evaluation.Conversion
import DraftSchema.Number.Places

/-!
The operations of whole and floating-point numbers.
-/
namespace DraftSchema.Build

/-- How many binary digits a number has. -/
def binaryWidth (n : Nat) : Nat := if n = 0 then 0 else n.log2 + 1

/-- How many of the lowest binary digits of a number are set. -/
def setDigits : (width : Nat) → Nat → Nat
  | 0, _ => 0
  | width + 1, n => n % 2 + setDigits width (n / 2)

/-- What an operation of a whole number gives. -/
def applyWhole (n : Int) (name : String) (args : List Value) : Build Value :=
  match name, args with
  | "bit_length", [] => pure (.int (binaryWidth n.natAbs))
  | "bit_count", [] => pure (.int (setDigits (binaryWidth n.natAbs) n.natAbs))
  | "conjugate", [] => pure (.int n)
  | "as_integer_ratio", [] => pure (.tuple [.int n, .int 1])
  | name, _ => fail (.arity name)

/-- A finite number as a quotient. -/
def quotientOf (x : Binary64) : Build Value :=
  match x.denote with
  | .exact q => pure (.tuple [.int q.num, .int q.den])
  | .infinite _ => fail (.stated .overflow "cannot convert Infinity to integer ratio")
  | .undefined => fail (.stated .value "cannot convert NaN to integer ratio")

/-- What an operation of a floating-point number gives. -/
def applyReal (x : Binary64) (name : String) (args : List Value) : Build Value :=
  match name, args with
  | "is_integer", [] => pure (.bool (x.toRat?.elim false fun q => q.den = 1))
  | "conjugate", [] => pure (.float x)
  | "as_integer_ratio", [] => quotientOf x
  | name, _ => fail (.arity name)

/-- The whole number that a rounding of a number gives. -/
def roundedTo (round : Rat → Int) (v : Value) : Build Value :=
  match v with
  | .float x =>
    match x.denote with
    | .exact q => pure (.int (round q))
    | .infinite _ => fail .infinityToInteger
    | .undefined => fail .nanToInteger
  | v => pure (.int (v.toInt?.getD 0))

/-- The nearest whole number, of two the even one. -/
def nearest (q : Rat) : Int :=
  let below := q.floor
  let rest := q - below
  if rest < 1 / 2 then below
  else if 1 / 2 < rest then below + 1
  else if below % 2 = 0 then below else below + 1

end DraftSchema.Build
