import DraftSchema.Evaluation.Access
import DraftSchema.Number.Places

/-!
Texts with marks that values are put in place of. A mark is a percent sign, an optional key, flags,
a width, a number of places, and a letter that says how the value is written.
-/
namespace DraftSchema

/-- A mark in a text. -/
structure Mark where
  left : Bool := false
  plus : Bool := false
  blank : Bool := false
  alternate : Bool := false
  zero : Bool := false
  width : Nat := 0
  places : Option Nat := none
  deriving DecidableEq, Repr

/-- What marks are replaced by: the elements of a tuple one after the other, or one value. -/
structure Supply where
  whole : Value
  parts : Option (List Value)
  /-- Whether the one value was used. -/
  used : Bool := false

namespace Mark

/-- The flags at the front of a text, and what is left. -/
def flags (m : Mark) : List Char → Mark × List Char
  | '-' :: rest => flags { m with left := true } rest
  | '+' :: rest => flags { m with plus := true } rest
  | ' ' :: rest => flags { m with blank := true } rest
  | '#' :: rest => flags { m with alternate := true } rest
  | '0' :: rest => flags { m with zero := true } rest
  | rest => (m, rest)

/-- What a number is written with in front of its digits. -/
def sign (m : Mark) (negative : Bool) : List Char :=
  if negative then ['-'] else if m.plus then ['+'] else if m.blank then [' '] else []

/-- Fills a text up to the width. -/
def fill (m : Mark) (cs : List Char) : List Char :=
  let pad := List.replicate (m.width - cs.length) ' '
  if m.left then cs ++ pad else pad ++ cs

/-- A number with what stands in front of its digits, filled up to the width with zeros behind that
or with blanks. -/
def number (m : Mark) (front cs : List Char) : List Char :=
  if m.zero && !m.left then
    front ++ List.replicate (m.width - front.length - cs.length) '0' ++ cs
  else m.fill (front ++ cs)

/-- A whole number in a base, with its mark where that is asked for. -/
def whole (m : Mark) (base : Nat) (mark : List Char) (n : Int) : List Char :=
  let ds := Nat.toDigits base n.natAbs
  let ds := List.replicate (m.places.getD 0 - ds.length) '0' ++ ds
  m.number (m.sign (n < 0) ++ if m.alternate then mark else []) ds

/-- The digits of a finite number in the form that a letter stands for. -/
def realChars (m : Mark) (letter : Char) (q : Rat) : List Char :=
  let num := q.num.natAbs
  let places := m.places.getD 6
  if letter = 'f' then Places.fixed m.alternate places num q.den
  else if letter = 'e' then Places.scientific m.alternate places num q.den
  else Places.general m.alternate (max places 1) num q.den

/-- A floating-point number. -/
def real (m : Mark) (letter : Char) (x : Binary64) : List Char :=
  let cs := match x.denote with
    | .undefined => "nan".toList
    | .infinite _ => "inf".toList
    | .exact q => m.realChars letter.toLower q
  m.number (m.sign x.isNegative) (if letter.isUpper then cs.map Char.toUpper else cs)

/-- A text, cut off at the number of places. -/
def text (m : Mark) (s : String) : List Char :=
  let cs := s.toList
  m.fill ((m.places.map fun n => cs.take n).getD cs)

end Mark

namespace Build

/-- The next value that a mark is replaced by. -/
def Supply.next (supply : Supply) : Build (Value × Supply) :=
  let missing := Fault.stated .type "not enough arguments for format string"
  match supply.parts with
  | some (v :: vs) => pure (v, { supply with parts := some vs })
  | some [] => fail missing
  | none => if supply.used then fail missing else pure (supply.whole, { supply with used := true })

/-- What a number in a mark says: what it is called, where it ends to be one, and what a number that is
out of its range is converted to. -/
structure MarkNumber where
  name : String
  limit : Nat
  target : String

/-- The width of a mark. -/
def markWidth : MarkNumber := ⟨"width", countLimit, "ssize_t"⟩

/-- The number of places of a mark. -/
def markPlaces : MarkNumber := ⟨"precision", Nat.pow 2 31, "int"⟩

/-- A number in a mark: digits, or a star that takes the next value. -/
def readNumber (what : MarkNumber) (supply : Supply) (cs : List Char) :
    Build (Option Int × Supply × List Char) :=
  match cs with
  | '*' :: rest => do
    let (v, supply) ← Supply.next supply
    match v with
    | .float _ => fail (.stated .type "* wants int")
    | v =>
      match v.toInt? with
      | none => fail (.stated .type "* wants int")
      | some n =>
        if -(what.limit : Int) ≤ n ∧ n < what.limit then return (some n, supply, rest)
        else
          fail (.stated .overflow ("Python int too large to convert to C " ++ what.target))
  | cs => do
    let ds := cs.takeWhile Char.isDigit
    let n := Nat.ofDigitChars 10 ds 0
    if what.limit ≤ n then fail (.stated .value (what.name ++ " too big"))
    else return (if ds.isEmpty then none else some (n : Int), supply, cs.drop ds.length)

/-- The greatest width that there is room for. -/
def widthLimit : Nat := Nat.pow 2 34

/-- The flags, the width and the places of a mark, and what is left. -/
def readMark (supply : Supply) (cs : List Char) : Build (Mark × Supply × List Char) := do
  let (m, rest) := Mark.flags {} cs
  let (width, supply, rest) ← readNumber markWidth supply rest
  let width := width.getD 0
  let m := { m with left := m.left || width < 0, width := width.natAbs }
  match rest with
  | '.' :: rest => do
    let (places, supply, rest) ← readNumber markPlaces supply rest
    return ({ m with places := some (places.getD 0).toNat }, supply, rest)
  | rest => return (m, supply, rest)

/-- The whole number that a value is written as; parts behind the point are cut off. -/
def wholeOf (letter : Char) (v : Value) : Build Int :=
  let wanted (what : String) :=
    failOn (fun type => Fault.stated .type
      ("%" ++ String.singleton letter ++ " format: " ++ what ++ " is required, not " ++ type)) v
  match v with
  | .float x =>
    if ['o', 'x', 'X'].contains letter then wanted "an integer"
    else
      match x.denote with
      | .exact q => pure (if q < 0 then q.ceil else q.floor)
      | .infinite _ => fail .infinityToInteger
      | .undefined => fail .nanToInteger
  | v =>
    match v.toInt? with
    | some n => pure n
    | none => wanted (if ['o', 'x', 'X'].contains letter then "an integer" else "a real number")

/-- The floating-point number that a value is written as. -/
def realOf (v : Value) : Build Binary64 :=
  match v with
  | .float x => pure x
  | v =>
    match v.toInt? with
    | none => failOn .notReal v
    | some n =>
      match Binary64.ofInt? n with
      | some x => pure x
      | none => fail .tooLargeToConvert

/-- The one character that a value is written as. -/
def characterOf (v : Value) : Build Char :=
  match v with
  | .text s =>
    match s.toList with
    | [c] => pure c
    | _ => fail (.stated .type "%c requires int or char")
  | v =>
    match v.toInt? with
    | some n =>
      if 0 ≤ n ∧ n < 0x110000 then pure (Char.ofNat n.toNat)
      else fail (.stated .overflow "%c arg not in range(0x110000)")
    | none => fail (.stated .type "%c requires int or char")

/-- A value in place of a mark with a letter; `place` is the letter's place in the text. -/
def written (m : Mark) (letter : Char) (place : Nat) (v : Value) : Build (List Char) := do
  if widthLimit < m.width then fail .outOfMemory
  match letter with
  | 's' => return m.text (← fromStore fun s => s.valueText v)
  | 'r' => return m.text (← fromStore fun s => s.valueDetail v)
  | 'a' => return m.text (Quoted.plain (← fromStore fun s => s.valueDetail v))
  | 'c' => return m.fill [← characterOf v]
  | 'd' | 'i' | 'u' => do
    let n ← wholeOf letter v
    let _ ← ofExcept (Whole.chars n)
    return m.whole 10 [] n
  | 'o' => return m.whole 8 ['0', 'o'] (← wholeOf letter v)
  | 'x' => return m.whole 16 ['0', 'x'] (← wholeOf letter v)
  | 'X' => return (m.whole 16 ['0', 'x'] (← wholeOf letter v)).map Char.toUpper
  | 'e' | 'E' | 'f' | 'F' | 'g' | 'G' => return m.real letter (← realOf v)
  | letter =>
    let shown := if 31 ≤ letter.toNat ∧ letter.toNat < 127 then letter else '?'
    fail (.stated .value ("unsupported format character '" ++ String.singleton shown ++ "' (0x"
      ++ String.ofList (Nat.toDigits 16 letter.toNat) ++ ") at index " ++ toString place))

/-- The key of a mark, with brackets inside it in pairs, and what is left. -/
def markKey? : (fuel : Nat) → (depth : Nat) → List Char → Option (List Char × List Char)
  | 0, _, _ => none
  | fuel + 1, depth, cs =>
    match cs with
    | [] => none
    | c :: rest =>
      if c = ')' ∧ depth = 0 then some ([], rest)
      else
        let depth := if c = '(' then depth + 1 else if c = ')' then depth - 1 else depth
        (markKey? fuel depth rest).map fun r => (c :: r.1, r.2)

/-- What a mark's key stands for in the values, if the mark has one. -/
def keyed (supply : Supply) (cs : List Char) : Build (Supply × List Char) :=
  match cs with
  | '(' :: rest => do
    match supply.whole with
    | .text _ | .tuple _ => fail (.stated .type "format requires a mapping")
    | whole =>
      match markKey? (rest.length + 1) 0 rest with
      | none => fail (.stated .value "incomplete format key")
      | some (key, rest) =>
        match whole with
        | .dict .. | .recorder .. | .list .. | .bytes _ =>
          let v ← item whole (.text (String.ofList key))
          return ({ supply with parts := some [v], used := true }, rest)
        | _ => fail (.stated .type "format requires a mapping")
  | cs => pure (supply, cs)

/-- A text with its marks replaced; `length` is that of the whole text. -/
def replaceMarks (length : Nat) : (fuel : Nat) → Supply → List Char →
    Build (List Char × Supply)
  | 0, supply, _ => pure ([], supply)
  | fuel + 1, supply, cs =>
    match cs with
    | [] => pure ([], supply)
    | '%' :: '%' :: rest => do
      let (more, supply) ← replaceMarks length fuel supply rest
      return ('%' :: more, supply)
    | '%' :: rest => do
      let (supply, rest) ← keyed supply rest
      let (m, supply, rest) ← readMark supply rest
      let rest := match rest with
        | c :: more => if c = 'h' ∨ c = 'l' ∨ c = 'L' then more else rest
        | [] => rest
      match rest with
      | [] => fail (.stated .value "incomplete format")
      | letter :: rest => do
        let (v, supply) ← Supply.next supply
        let here ← written m letter (length - rest.length - 1) v
        let (more, supply) ← replaceMarks length fuel supply rest
        return (here ++ more, supply)
    | c :: rest => do
      let (more, supply) ← replaceMarks length fuel supply rest
      return (c :: more, supply)

/-- Whether the parts of a value can stand for the marks of a text by name. -/
def hasItems : Value → Bool
  | .recorder .. | .dict .. | .list .. | .bytes _ => true
  | .type t => Typing.isNamed (.type t) || (t matches .generic .. | .union ..)
  | .foreign _ kind => kind = "bytearray" || kind = "range"
  | _ => false

/-- Whether something was given that no mark was replaced by. -/
def isLeft (supply : Supply) : Bool :=
  match supply.parts with
  | some vs => !vs.isEmpty && !hasItems supply.whole
  | none => !supply.used && !hasItems supply.whole

/-- A text with its marks replaced by a value, or by the elements of a tuple. -/
def formatted (s : String) (v : Value) : Build Value := do
  let supply : Supply := match v with
    | .tuple vs => { whole := v, parts := some vs }
    | v => { whole := v, parts := none }
  let cs := s.toList
  let (cs, supply) ← replaceMarks cs.length (cs.length + 1) supply cs
  if isLeft supply then
    fail (.stated .type "not all arguments converted during string formatting")
  else return .text (String.ofList cs)

end Build

end DraftSchema
