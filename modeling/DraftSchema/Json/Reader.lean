import DraftSchema.Number.Decimal
import DraftSchema.Value.Key

/-!
Reading JSON text. Blanks may stand around everything; whole numerals give whole numbers and others
the nearest floating-point numbers. Reading is bounded by the length of the text, which no part of
a text can exceed.
-/
namespace DraftSchema.Json

/-- The blanks of JSON. -/
def isBlank (c : Char) : Bool := c = ' ' || c = '\t' || c = '\n' || c = '\r'

/-- A text without the blanks at its front. -/
def skip (cs : List Char) : List Char := cs.dropWhile isBlank

/-! ## Texts -/

/-- The value of a hexadecimal digit. -/
def hexDigit? (c : Char) : Option Nat :=
  let n := c.toNat
  if '0'.toNat ≤ n ∧ n ≤ '9'.toNat then some (n - '0'.toNat)
  else if 'a'.toNat ≤ n ∧ n ≤ 'f'.toNat then some (n - 'a'.toNat + 10)
  else if 'A'.toNat ≤ n ∧ n ≤ 'F'.toNat then some (n - 'A'.toNat + 10)
  else none

/-- The value of hexadecimal digits after a value read so far. -/
def hexValue? (acc : Nat) : List Char → Option Nat
  | [] => some acc
  | c :: cs => (hexDigit? c).bind fun d => hexValue? (16 * acc + d) cs

/-- The code of sixteen bits at the front of a text, and what is left. -/
def unit? (cs : List Char) : Option (Nat × List Char) :=
  if cs.length < 4 then none else (hexValue? 0 (cs.take 4)).map fun n => (n, cs.drop 4)

/-- The character that a mark after a backslash stands for. -/
def marked? (c : Char) : Option Char :=
  if c = '"' then some '"'
  else if c = '\\' then some '\\'
  else if c = '/' then some '/'
  else if c = 'b' then some '\x08'
  else if c = 'f' then some '\x0c'
  else if c = 'n' then some '\n'
  else if c = 'r' then some '\r'
  else if c = 't' then some '\t'
  else none

/-- The second half of a character whose first half is given. -/
def trailing? (first : Nat) : List Char → Option (Char × List Char)
  | '\\' :: 'u' :: rest =>
    match unit? rest with
    | some (second, rest) =>
      if first < 0xdc00 ∧ 0xdc00 ≤ second ∧ second < 0xe000 then
        some (Char.ofNat (0x10000 + (first - 0xd800) * 0x400 + (second - 0xdc00)), rest)
      else none
    | none => none
  | _ => none

/-- The character at the front of a text that is open, and what is left. -/
def char? : List Char → Option (Char × List Char)
  | [] => none
  | '\\' :: 'u' :: rest =>
    match unit? rest with
    | some (n, rest) =>
      if 0xd800 ≤ n ∧ n < 0xe000 then trailing? n rest else some (Char.ofNat n, rest)
    | none => none
  | '\\' :: c :: rest => (marked? c).map fun c => (c, rest)
  | c :: rest => if c = '"' ∨ c = '\\' ∨ c.toNat < 0x20 then none else some (c, rest)

/-- The text up to its closing quote, and what is left. -/
def text? : (fuel : Nat) → List Char → Option (List Char × List Char)
  | 0, _ => none
  | fuel + 1, cs =>
    if cs.head? = some '"' then some ([], cs.tail)
    else
      match char? cs with
      | none => none
      | some (c, rest) => (text? fuel rest).map fun r => (c :: r.1, r.2)

/-! ## Numbers -/

/-- The digits at the front of a text, and what is left. -/
def spanDigits (cs : List Char) : List Char × List Char :=
  (cs.takeWhile Char.isDigit, cs.dropWhile Char.isDigit)

/-- The number that decimal digits spell. -/
def digitsValue (ds : List Char) : Nat := Nat.ofDigitChars 10 ds 0

/-- The digits after a point, if there is one; a point without digits is refused. -/
def fraction? (cs : List Char) : Option (List Char × List Char) :=
  if cs.head? = some '.' then
    let (ds, rest) := spanDigits cs.tail
    if ds.isEmpty then none else some (ds, rest)
  else some ([], cs)

/-- The power of ten after its mark, if there is one; a mark without digits is refused. -/
def power? (cs : List Char) : Option (Option Int × List Char) :=
  if cs.head? = some 'e' ∨ cs.head? = some 'E' then
    let (negative, body) := Decimal.sign cs.tail
    let (ds, rest) := spanDigits body
    let n : Int := digitsValue ds
    if ds.isEmpty then none else some (some (if negative then -n else n), rest)
  else some (none, cs)

/-- The digits of a whole number, without leading zeros. -/
def wholeDigits? (cs : List Char) : Option (List Char × List Char) :=
  let (ds, rest) := spanDigits cs
  if ds.isEmpty ∨ (ds.head? = some '0' ∧ ds ≠ ['0']) then none else some (ds, rest)

/-- The number made of its parts: a whole one if it has neither a fraction nor a power. -/
def numberOf (negative : Bool) (whole fraction : List Char) (power : Option Int) : Value :=
  match fraction, power with
  | [], none =>
    let n : Int := digitsValue whole
    .int (if negative then -n else n)
  | _, _ =>
    let x : Decimal.Numeral :=
      { digits := digitsValue (whole ++ fraction), exponent := power.getD 0 - fraction.length }
    .float (x.toBinary64 negative)

/-- The number at the front of a text, and what is left. -/
def number? (cs : List Char) : Option (Value × List Char) := do
  let (negative, body) := if cs.head? = some '-' then (true, cs.tail) else (false, cs)
  let (whole, rest) ← wholeDigits? body
  let (fraction, rest) ← fraction? rest
  let (power, rest) ← power? rest
  return (numberOf negative whole fraction power, rest)

/-! ## Documents -/

/-- What is left after a word. -/
def word? (word : List Char) (v : Value) (cs : List Char) : Option (Value × List Char) :=
  if word.isPrefixOf cs then some (v, cs.drop word.length) else none

mutual

/-- The document at the front of a text without leading blanks, and what is left. -/
def value? : (fuel : Nat) → List Char → Option (Value × List Char)
  | 0, _ => none
  | fuel + 1, cs =>
    match cs with
    | [] => none
    | c :: rest =>
      if c = '"' then (text? fuel rest).map fun r => (.text (String.ofList r.1), r.2)
      else if c = '[' then
        if (skip rest).head? = some ']' then some (.listing [], (skip rest).tail)
        else (elements? fuel (skip rest)).map fun r => (.listing r.1, r.2)
      else if c = '\x7b' then
        if (skip rest).head? = some '\x7d' then some (.mapping [], (skip rest).tail)
        else (members? fuel (skip rest)).map fun r => (.mapping (Entries.ofList r.1), r.2)
      else if c = 'n' then word? "null".toList .null cs
      else if c = 't' then word? "true".toList (.bool true) cs
      else if c = 'f' then word? "false".toList (.bool false) cs
      else number? cs

/-- The elements of a list up to its closing bracket, and what is left. -/
def elements? : (fuel : Nat) → List Char → Option (List Value × List Char)
  | 0, _ => none
  | fuel + 1, cs =>
    match value? fuel cs with
    | none => none
    | some (v, rest) =>
      let rest := skip rest
      if rest.head? = some ']' then some ([v], rest.tail)
      else if rest.head? = some ',' then
        (elements? fuel (skip rest.tail)).map fun r => (v :: r.1, r.2)
      else none

/-- The member of a mapping at the front of a text, and what is left. -/
def member? : (fuel : Nat) → List Char → Option ((Value × Value) × List Char)
  | 0, _ => none
  | fuel + 1, cs =>
    if cs.head? = some '"' then
      match text? fuel cs.tail with
      | none => none
      | some (name, rest) =>
        let rest := skip rest
        if rest.head? = some ':' then
          (value? fuel (skip rest.tail)).map fun r => ((.text (String.ofList name), r.1), r.2)
        else none
    else none

/-- The members of a mapping up to its closing brace, and what is left. -/
def members? : (fuel : Nat) → List Char → Option (List (Value × Value) × List Char)
  | 0, _ => none
  | fuel + 1, cs =>
    match member? fuel cs with
    | none => none
    | some (e, rest) =>
      let rest := skip rest
      if rest.head? = some '\x7d' then some ([e], rest.tail)
      else if rest.head? = some ',' then
        (members? fuel (skip rest.tail)).map fun r => (e :: r.1, r.2)
      else none

end

/-- The document that a text spells. -/
def read? (text : String) : Option Value :=
  let cs := text.toList
  match value? (3 * cs.length + 3) (skip cs) with
  | some (v, rest) => if (skip rest).isEmpty then some v else none
  | none => none

end DraftSchema.Json
