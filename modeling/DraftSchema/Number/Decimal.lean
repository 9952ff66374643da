import DraftSchema.Number.Binary64
import DraftSchema.Text.Blank
import DraftSchema.Text.Digit

/-!
Reading decimal numerals: an optional sign, digits with at most one point, and an optional power
of ten. Single underscores may stand between digits, and blanks around the numeral. Digits may be
those of any script. The words for infinity and for no number are read in either case of letters.
-/
namespace DraftSchema

namespace Decimal

/-- A decimal numeral `digits · 10 ^ exponent`. -/
structure Numeral where
  digits : Nat
  exponent : Int
  deriving DecidableEq, Repr

/-- The value of a decimal digit. -/
def digit? (c : Char) : Option Nat :=
  if c.isDigit then some (c.toNat - '0'.toNat) else none

/-- The digits that may follow a digit, and what is left. -/
def moreDigits : List Char → List Nat × List Char
  | [] => ([], [])
  | [c] =>
    match digit? c with
    | some d => ([d], [])
    | none => ([], [c])
  | c :: next :: rest =>
    match digit? c with
    | some d =>
      let (ds, left) := moreDigits (next :: rest)
      (d :: ds, left)
    | none =>
      if c = '_' then
        match digit? next with
        | some d =>
          let (ds, left) := moreDigits rest
          (d :: ds, left)
        | none => ([], c :: next :: rest)
      else ([], c :: next :: rest)

/-- The digits at the front of a text, and what is left. -/
def digits : List Char → List Nat × List Char
  | [] => ([], [])
  | c :: rest =>
    match digit? c with
    | some d =>
      let (ds, left) := moreDigits rest
      (d :: ds, left)
    | none => ([], c :: rest)

/-- The number that decimal digits spell. -/
def ofDigits (ds : List Nat) : Nat := ds.foldl (fun n d => 10 * n + d) 0

/-- An optional sign at the front of a text. -/
def sign : List Char → Bool × List Char
  | '-' :: rest => (true, rest)
  | '+' :: rest => (false, rest)
  | rest => (false, rest)

/-- The power of ten at the end of a numeral; none stands for zero. -/
def exponent? : List Char → Option Int
  | [] => some 0
  | c :: rest =>
    if c = 'e' ∨ c = 'E' then
      let (negative, rest) := sign rest
      match digits rest with
      | ([], _) => none
      | (ds, []) => some (if negative then -(ofDigits ds : Int) else ofDigits ds)
      | _ => none
    else none

/-- Reads an unsigned numeral that takes up the whole text. -/
def numeral? (cs : List Char) : Option Numeral :=
  let (whole, rest) := digits cs
  let (fraction, rest) :=
    match rest with
    | '.' :: rest => digits rest
    | _ => ([], rest)
  if whole.isEmpty && fraction.isEmpty then none
  else (exponent? rest).map fun e =>
    { digits := ofDigits (whole ++ fraction), exponent := e - fraction.length }

/-- How many decimal digits a positive number has. -/
def width (n : Nat) : Nat := (Nat.toDigits 10 n).length

/-- The floating-point number nearest to a numeral. Far beyond the range no power is taken. -/
def Numeral.toBinary64 (negative : Bool) (x : Numeral) : Binary64 :=
  let magnitude := (width x.digits : Int) + x.exponent
  if x.digits = 0 then .zero negative
  else if 400 < magnitude then .infinity negative
  else if magnitude < -400 then .zero negative
  else if 0 ≤ x.exponent then .ofQuotient negative (x.digits * Nat.pow 10 x.exponent.toNat) 1
  else .ofQuotient negative x.digits (Nat.pow 10 (-x.exponent).toNat)

/-- A text with all decimal digits and blanks written in ASCII. A text of ASCII characters is left
as it is, with those blanks that count only among others. -/
def normalize (cs : List Char) : List Char :=
  if cs.all fun c => c.toNat < 0x80 then cs
  else cs.map fun c =>
    if Blank.isBlank c then ' '
    else
      match Digit.value? c with
      | some d => Digit.char d
      | none => c

/-- The numeral in a text, without the blanks around it. -/
def body (text : String) : List Char := Blank.strip Blank.isPlain (normalize text.toList)

end Decimal

/-- Reads a floating-point number; what is no number takes the given payload. -/
def Binary64.ofText? (payload : Nat) (text : String) : Option Binary64 :=
  let (negative, body) := Decimal.sign (Decimal.body text)
  let word := String.ofList (body.map Char.toLower)
  if word = "nan" then some (.nan payload)
  else if word = "inf" ∨ word = "infinity" then some (.infinity negative)
  else (Decimal.numeral? body).map (·.toBinary64 negative)

end DraftSchema
