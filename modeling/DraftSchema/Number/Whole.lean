import DraftSchema.Fault

/-!
Whole numbers in decimal digits. Numerals have no more than a fixed number of digits: a number with
more of them cannot be written, and has no text. Main statement: a number is written exactly when it
lies below the limit, and then with all its digits.
-/
namespace DraftSchema.Whole

/-- The most digits that a whole number is written with or read from. -/
def digitLimit : Nat := 4300

/-- The least number with more digits than that. -/
def limit : Nat := Nat.pow (Nat.pow 10 100) 43

/-- The decimal digits of a number, after its sign. -/
def digits (n : Int) : List Char :=
  if n < 0 then '-' :: Nat.toDigits 10 n.natAbs else Nat.toDigits 10 n.natAbs

/-- The numeral of a number, unless it has too many digits. -/
def chars (n : Int) : Except Fault (List Char) :=
  if n.natAbs < limit then .ok (digits n) else .error (.tooManyDigits digitLimit none)

/-- The text of a number, unless it has too many digits. -/
def text (n : Int) : Except Fault String := String.ofList <$> chars n

theorem chars_eq_ok_iff {n : Int} {cs : List Char} :
    chars n = .ok cs ↔ n.natAbs < limit ∧ cs = digits n := by
  unfold chars
  by_cases h : n.natAbs < limit
  · simp [h, eq_comm]
  · simp [h]

end DraftSchema.Whole
