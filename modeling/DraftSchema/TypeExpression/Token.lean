import DraftSchema.Number.Decimal
import DraftSchema.Number.Whole
import DraftSchema.TypeExpression

/-!
The words of written annotations: names, constants, and signs. Line breaks between brackets are
blanks like others; outside they end the annotation.
-/
namespace DraftSchema.TypeExpression

/-- A word of a written annotation. -/
inductive Token where
  | name (s : String)
  | constant (c : Constant)
  | sign (s : String)
  | newline

namespace Token

/-- Whether a name may begin with a character. -/
def startsName (c : Char) : Bool := c.isAlpha || c = '_' || 0xaa ≤ c.toNat && !Blank.isBlank c

/-- Whether a name may go on with a character. -/
def inName (c : Char) : Bool := startsName c || c.isDigit

/-- The characters up to the first one that fails a test, and what is left. -/
def span (p : Char → Bool) (cs : List Char) : List Char × List Char :=
  (cs.takeWhile p, cs.dropWhile p)

/-! ## Numbers -/

/-- The number spelled by digits of a base, with single underscores between them. -/
def digitsIn? (base : Nat) (cs : List Char) : Option Nat :=
  let value (c : Char) : Option Nat :=
    if c.isDigit then some (c.toNat - '0'.toNat)
    else if c.isAlpha then some (c.toLower.toNat - 'a'.toNat + 10)
    else none
  let step (acc : Option (Nat × Bool)) (c : Char) : Option (Nat × Bool) :=
    match acc with
    | none => none
    | some (n, afterDigit) =>
      if c = '_' then if afterDigit then some (n, false) else none
      else
        match value c with
        | some d => if d < base then some (base * n + d, true) else none
        | none => none
  match cs.foldl step (some (0, base ≠ 10)) with
  | some (n, true) => some n
  | _ => none

/-- The base that a letter behind a zero stands for. -/
def baseOf? (c : Char) : Option Nat :=
  match c.toLower with
  | 'x' => some 16
  | 'o' => some 8
  | 'b' => some 2
  | _ => none

/-- The characters of digits with a point among them at most, and what is left. -/
def pointed (cs : List Char) : List Char × List Char :=
  let inDigits (c : Char) : Bool := c.isDigit || c = '_'
  let (whole, rest) := span inDigits cs
  match rest with
  | '.' :: rest =>
    let (fraction, rest) := span inDigits rest
    (whole ++ '.' :: fraction, rest)
  | rest => (whole, rest)

/-- The characters of a power of ten, if there is one, and what is left. -/
def power (cs : List Char) : List Char × List Char :=
  let inDigits (c : Char) : Bool := c.isDigit || c = '_'
  let isDigit (c : Option Char) : Bool := (c.map Char.isDigit).getD false
  match cs with
  | c :: rest =>
    if c ≠ 'e' ∧ c ≠ 'E' then ([], cs)
    else if isDigit rest.head? then
      let (digits, rest) := span inDigits rest
      (c :: digits, rest)
    else if (rest.head? = some '+' ∨ rest.head? = some '-') ∧ isDigit rest.tail.head? then
      let (digits, left) := span inDigits rest.tail
      (c :: rest.head?.toList ++ digits, left)
    else ([], cs)
  | [] => ([], [])

/-- The value of a decimal numeral. A whole number other than zero has no leading zeros, and no more
digits than are read. -/
def decimal? (cs : List Char) : Option Constant :=
  match digitsIn? 10 cs with
  | some n =>
    if cs.head? = some '0' ∧ n ≠ 0 then none
    else if Whole.digitLimit < (cs.filter Char.isDigit).length then none
    else some (.int n)
  | none => (Decimal.numeral? cs).map fun x => .float (x.toBinary64 false)

/-- The words that may follow a numeral without a blank. -/
def closeWords : List String := ["and", "else", "for", "if", "in", "is", "not", "or"]

/-- Whether a numeral may end before the characters that are left. -/
def endsNumeral (cs : List Char) : Bool :=
  match cs with
  | [] => true
  | c :: _ => !inName c || closeWords.contains (String.ofList (span inName cs).1)

/-- The number at the front of a text, and what is left. A mark makes it an imaginary one. -/
def number? (cs : List Char) : Option (Constant × List Char) := do
  let (v, rest) ← match cs with
    | '0' :: c :: rest =>
      match baseOf? c with
      | some base =>
        let (digits, rest) := span inName rest
        if digits.isEmpty then none
        else (digitsIn? base digits).map fun n => ((.int n : Constant), rest)
      | none => real? cs
    | cs => real? cs
  if endsNumeral rest then some (v, rest) else none
where
  /-- A number in decimal digits. -/
  real? (cs : List Char) : Option (Constant × List Char) :=
    let (front, rest) := pointed cs
    let (back, rest) := power rest
    match rest with
    | 'j' :: rest => (Decimal.numeral? (front ++ back)).map fun _ => (.imaginary, rest)
    | rest => (decimal? (front ++ back)).map fun v => (v, rest)

/-! ## Texts -/

/-- The number spelled by exactly so many hexadecimal digits, and what is left. -/
def code? (digits : Nat) (cs : List Char) : Option (Nat × List Char) :=
  if cs.length < digits then none
  else
    let ds := cs.take digits
    if ds.all fun c => c.isDigit || c.isAlpha then
      (digitsIn? 16 ds).map fun n => (n, cs.drop digits)
    else none

/-- What stands for a character after a backslash. -/
def marked : Char → Option Char
  | 'n' => some '\n'
  | 't' => some '\t'
  | 'r' => some '\r'
  | 'a' => some '\x07'
  | 'b' => some '\x08'
  | 'f' => some '\x0c'
  | 'v' => some '\x0b'
  | '\\' => some '\\'
  | '\'' => some '\''
  | '"' => some '"'
  | _ => none

/-- The characters that a backslash and what follows it stand for, and what is left. -/
def escape? (onBytes : Bool) : List Char → Option (List Char × List Char)
  | [] => none
  | c :: rest =>
    let code (digits : Nat) := (code? digits rest).map fun r => ([Char.ofNat r.1], r.2)
    match marked c with
    | some d => some ([d], rest)
    | none =>
      if c = '\n' then some ([], rest)
      else if c = 'x' then code 2
      else if c = 'u' && !onBytes then code 4
      else if c = 'U' && !onBytes then code 8
      else if '0' ≤ c ∧ c ≤ '7' then
        let ds := ((c :: rest).take 3).takeWhile fun d => '0' ≤ d && d ≤ '7'
        (digitsIn? 8 ds).map fun n => ([Char.ofNat n], (c :: rest).drop ds.length)
      else some (['\\', c], rest)

/-- The characters up to the closing quote, and what is left behind it. -/
def quoted? (raw onBytes : Bool) (quote : List Char) : (fuel : Nat) → List Char →
    Option (List Char × List Char)
  | 0, _ => none
  | fuel + 1, cs =>
    if quote.isPrefixOf cs then some ([], cs.drop quote.length)
    else
      match cs with
      | [] => none
      | '\\' :: rest =>
        if raw then
          match rest with
          | [] => none
          | c :: rest =>
            (quoted? raw onBytes quote fuel rest).map fun r => ('\\' :: c :: r.1, r.2)
        else
          match escape? onBytes rest with
          | some (front, rest) =>
            (quoted? raw onBytes quote fuel rest).map fun r => (front ++ r.1, r.2)
          | none => none
      | c :: rest =>
        if c = '\n' ∧ quote.length = 1 then none
        else if onBytes && 0x80 ≤ c.toNat then none
        else (quoted? raw onBytes quote fuel rest).map fun r => (c :: r.1, r.2)

/-- The text after the letters in front of its quote, and what is left. Texts with values put in them
are not supported. -/
def string? (letters : List Char) (cs : List Char) : Option (Constant × List Char) :=
  let letters := letters.map Char.toLower
  let known : List (List Char) :=
    [[], ['r'], ['u'], ['b'], ['r', 'b'], ['b', 'r'], ['f'], ['f', 'r'], ['r', 'f']]
  let quote := if cs.take 3 = List.replicate 3 (cs.headD ' ') then cs.take 3 else cs.take 1
  if !known.contains letters then none
  else
    let onBytes := letters.contains 'b'
    match quoted? (letters.contains 'r') onBytes quote (cs.length + 1) (cs.drop quote.length) with
    | none => none
    | some (front, rest) =>
      let s := String.ofList front
      if letters.contains 'f' && front.contains '\x7b' then none
      else some (if onBytes then .bytes s else .text s, rest)

/-! ## All words -/

/-- The signs, longer ones first. -/
def signs : List String :=
  ["...", "**=", "//=", ">>=", "<<=", "**", "//", "<<", ">>", "<=", ">=", "==", "!=", "->", ":=",
   "+", "-", "*", "/", "%", "@", "&", "|", "^", "~", "<", ">", "(", ")", "[", "]", "\x7b", "\x7d",
   ",", ":", ".", ";", "="]

/-- The words that stand for constants. -/
def constantOf? : String → Option Constant
  | "None" => some .null
  | "True" => some (.bool true)
  | "False" => some (.bool false)
  | _ => none

/-- The word at the front of a text, and what is left. -/
def next? (cs : List Char) : Option (Token × List Char) :=
  match cs with
  | [] => none
  | c :: rest =>
    if startsName c then
      let (word, left) := span inName cs
      if left.head? = some '\'' ∨ left.head? = some '"' then
        (string? word left).map fun r => (.constant r.1, r.2)
      else
        let s := String.ofList word
        some (((constantOf? s).map Token.constant).getD (.name s), left)
    else if c.isDigit || (c = '.' && (rest.head?.map Char.isDigit).getD false) then
      (number? cs).map fun r => (.constant r.1, r.2)
    else if c = '\'' ∨ c = '"' then (string? [] cs).map fun r => (.constant r.1, r.2)
    else
      (signs.find? fun s => s.toList.isPrefixOf cs).map fun s => (.sign s, cs.drop s.length)

/-- How a word changes the number of open brackets. -/
def depthAfter (depth : Nat) : Token → Nat
  | .sign s =>
    if ["(", "[", "\x7b"].contains s then depth + 1
    else if [")", "]", "\x7d"].contains s then depth - 1
    else depth
  | _ => depth

/-- The words of a text; `depth` is the number of open brackets. -/
def scan? : (fuel : Nat) → (depth : Nat) → List Char → Option (List Token)
  | 0, _, _ => none
  | fuel + 1, depth, cs =>
    match cs with
    | [] => some []
    | '#' :: rest => scan? fuel depth (rest.dropWhile (· ≠ '\n'))
    | '\\' :: '\n' :: rest => if rest.isEmpty then none else scan? fuel depth rest
    | c :: rest =>
      if c = ' ' ∨ c = '\t' ∨ c = '\x0c' then scan? fuel depth rest
      else if c = '\n' then
        (scan? fuel depth rest).map fun ts => if depth = 0 then .newline :: ts else ts
      else
        match next? cs with
        | some (t, left) => (scan? fuel (depthAfter depth t) left).map (t :: ·)
        | none => none

end Token

end DraftSchema.TypeExpression
