import DraftSchema.Evaluation.Access
import DraftSchema.Text.Digit
import DraftSchema.Text.Letter
import DraftSchema.Text.Parts

/-!
The operations of texts. Where one text stands in another is counted from zero; what further
arguments choose is a part of the text, negative positions being counted from its end.
-/
namespace DraftSchema.Build

/-! ## Arguments -/

/-- A whole number that counts something. -/
def countOf (v : Value) : Build Int :=
  match v.toInt? with
  | some n =>
    if isCount n then pure n
    else fail (.stated .overflow "Python int too large to convert to C ssize_t")
  | none =>
    let refused (type : String) : Fault :=
      .stated .type ("'" ++ type ++ "' object cannot be interpreted as an integer")
    failOn refused v

/-- A limit: no negative number limits anything. -/
def limitOf : Option Value → Build (Option Nat)
  | none => pure none
  | some v => do
    let n ← countOf v
    return if n < 0 then none else some n.toNat

/-- A position in a sequence, or another one where none is given. -/
def positionOf (length absent : Nat) (refused : Fault) : Option Value → Build Nat
  | none => pure absent
  | some v =>
    match v.toInt? with
    | some n => pure (if n < 0 then n + length else n).toNat
    | none => fail refused

/-- The fault of a position in a text that is no number. -/
def notAPosition : Fault :=
  .stated .type "slice indices must be integers or None or have an __index__ method"

/-- The part of a text that two positions choose, with its own position; nothing where it would end
in front of its beginning. -/
def window (cs : List Char) (args : List Value) : Build (Option (Nat × List Char)) := do
  let first ← positionOf cs.length 0 notAPosition (args[0]?.bind Value.present)
  let last ← positionOf cs.length cs.length notAPosition (args[1]?.bind Value.present)
  let last := min last cs.length
  return if first ≤ last then some (first, (cs.take last).drop first) else none

/-- The characters of a text. -/
def charsOf (refused : String → Fault) (v : Value) : Build (List Char) :=
  match v with
  | .text s => pure s.toList
  | v => failOn refused v

/-- The characters of a text in an argument that `argument` names. -/
def namedChars (argument : String) (v : Value) : Build (List Char) :=
  let refused (type : String) : Fault := .stated .type (argument ++ " must be str, not " ++ type)
  match v with
  | .null => fail (refused "None")
  | v => charsOf refused v

/-- The fault of a part that is no text. -/
def notAPart (type : String) : Fault := .stated .type ("must be str, not " ++ type)

/-- Characters as a value. -/
def textValue (cs : List Char) : Value := .text (String.ofList cs)

/-! ## Places -/

/-- Where a part stands in the chosen part of a text. -/
def placeIn (place? : List Char → List Char → Option Nat) (cs : List Char) (part : Value)
    (args : List Value) : Build (Option Nat) := do
  let chosen ← window cs args
  let part ← charsOf notAPart part
  return chosen.bind fun (first, cs) => (place? part cs).map (first + ·)

/-- A place as a number; none is one before the first. -/
def found (place : Option Nat) : Value :=
  match place with
  | some n => .int n
  | none => .int (-1)

/-- A place as a number, one being needed. -/
def needed (place : Option Nat) : Build Value :=
  match place with
  | some n => pure (.int n)
  | none => fail (.stated .value "substring not found")

/-- How often a part stands in the chosen part of a text. -/
def countIn (cs : List Char) (part : Value) (args : List Value) : Build Value := do
  let chosen ← window cs args
  let part ← charsOf notAPart part
  return .int (chosen.elim 0 fun (_, cs) => Parts.count part cs)

/-- Whether a text has one of several parts at an end. -/
def hasOneOf (name : String) (at? : List Char → List Char → Bool) (cs : List Char) :
    List Value → Build Bool
  | [] => pure false
  | v :: vs => do
    let part ← charsOf
      (fun type => .stated .type ("tuple for " ++ name ++ " must only contain str, not " ++ type)) v
    if at? part cs then return true else hasOneOf name at? cs vs

/-- Whether the chosen part of a text has a part, or one of several, at an end. -/
def hasAtEnd (name : String) (at? : List Char → List Char → Bool) (cs : List Char) (part : Value)
    (args : List Value) : Build Value := do
  let chosen ← window cs args
  let cs := (chosen.map Prod.snd).getD []
  match part with
  | .tuple parts => return .bool ((← hasOneOf name at? cs parts) && chosen.isSome)
  | part =>
    let part ← charsOf
      (fun type =>
        .stated .type (name ++ " first arg must be str or a tuple of str, not " ++ type)) part
    return .bool (at? part cs && chosen.isSome)

/-! ## Pieces -/

/-- The characters that are dropped at the ends of a text: blanks, or those that are given. -/
def droppedBy (name : String) (chars : Option Value) : Build (Char → Bool) :=
  match chars.bind Value.present with
  | none => pure Blank.isBlank
  | some (.text s) => pure s.toList.contains
  | some _ => fail (.stated .type (name ++ " arg must be None or str"))

/-- The pieces of a text between a part or between blanks; with a limit, those at the front or at
the back are cut off first. -/
def pieces (back : Bool) (cs : List Char) (args : List Value) : Build Value := do
  let limit ← limitOf args[1]?
  match args[0]?.bind Value.present with
  | none =>
    let words := if back then Parts.wordsBack else Parts.words
    list ((words Blank.isBlank limit cs).map textValue)
  | some v =>
    let part ← charsOf (fun type => .stated .type ("must be str or None, not " ++ type)) v
    if part.isEmpty then fail (.stated .value "empty separator")
    else
      let split := if back then Parts.splitBack else Parts.split
      list ((split part limit cs).map textValue)

/-- What stands around the first or the last place of a part, with the part between. -/
def partition (back : Bool) (cs : List Char) (part : Value) : Build Value := do
  let part ← charsOf notAPart part
  if part.isEmpty then fail (.stated .value "empty separator")
  match (if back then Parts.lastPlace? else Parts.place?) part cs with
  | some n =>
    return .tuple [textValue (cs.take n), textValue part, textValue (cs.drop (n + part.length))]
  | none =>
    let whole := textValue cs
    return .tuple (if back then [.text "", .text "", whole] else [whole, .text "", .text ""])

/-- A text with another part in place of a part. -/
def replaced (cs : List Char) (part new : Value) (limit : Option Value) : Build Value := do
  let part ← namedChars "replace() argument 1" part
  let new ← namedChars "replace() argument 2" new
  return textValue (Parts.replace part new (← limitOf limit) cs)

/-- A text without a part at an end. -/
def trimmed (name : String) (at? : List Char → List Char → Bool)
    (cut : Nat → List Char → List Char) (cs : List Char) (part : Value) : Build Value := do
  let part ← namedChars (name ++ "() argument") part
  return textValue (if at? part cs then cut part.length cs else cs)

/-- Texts that are joined; `index` counts them. -/
def textsOf (index : Nat) : List Value → Build (List (List Char))
  | [] => pure []
  | v :: vs => do
    let cs ← charsOf
      (fun type => .stated .type ("sequence item " ++ toString index
        ++ ": expected str instance, " ++ type ++ " found")) v
    return cs :: (← textsOf (index + 1) vs)

/-- The texts among some elements, joined by a text. -/
def joined (cs : List Char) (v : Value) : Build Value := do
  match ← attempt (elements v) with
  | .error f => fail (if f.kind = .type then .stated .type "can only join an iterable" else f)
  | .ok vs => return textValue ((← textsOf 0 vs).intersperse cs).flatten

/-! ## Width -/

/-- The greatest width that there is room for. -/
def textWidthLimit : Nat := Nat.pow 2 34

/-- How many characters are wanting to a width. -/
def wanting (cs : List Char) (width : Value) : Build Nat := do
  let width ← countOf width
  if (textWidthLimit : Int) < width then fail .outOfMemory
  return width.toNat - cs.length

/-- The character that a text is filled up with. -/
def fillerOf : Option Value → Build Char
  | none => pure ' '
  | some (.text s) =>
    match s.toList with
    | [c] => pure c
    | _ => fail (.stated .type "The fill character must be exactly one character long")
  | some v =>
    failOn
      (fun type => .stated .type ("The fill character must be a unicode character, not " ++ type)) v

/-- A text filled up to a width; `before` says how many of the wanting characters go in front. -/
def filled (before : Nat → Nat) (cs : List Char) (width : Value) (filler : Option Value) :
    Build Value := do
  let n ← wanting cs width
  let c ← fillerOf filler
  return textValue (List.replicate (before n) c ++ cs ++ List.replicate (n - before n) c)

/-- A numeral filled up with zeros behind its sign. -/
def zeroFilled (cs : List Char) (width : Value) : Build Value := do
  let zeros := List.replicate (← wanting cs width) '0'
  match cs with
  | c :: rest =>
    return textValue (if c = '+' ∨ c = '-' then c :: (zeros ++ rest) else zeros ++ cs)
  | [] => return textValue zeros

/-! ## Questions -/

/-- Whether a text has characters and all of them are of a kind. -/
def isAll (p : Char → Bool) (cs : List Char) : Value := .bool (!cs.isEmpty && cs.all p)

/-- Whether the letters of a text are of a kind, one at least being there. -/
def isCased (p : Char → Bool) (cs : List Char) : Value :=
  .bool (cs.any Letter.isLetter && (cs.filter Letter.isLetter).all p)

/-- Whether a character is a decimal digit. -/
def isDecimal (c : Char) : Bool := (Digit.value? c).isSome

/-- Whether a text could be a name. -/
def isIdentifier : List Char → Bool
  | [] => false
  | c :: cs =>
    let starts (c : Char) := Letter.isLetter c || c = '_'
    starts c && cs.all fun c => starts c || isDecimal c

/-! ## Calls -/

/-- What an operation of a text gives. -/
def applyText (cs : List Char) (name : String) (args : List Value) : Build Value :=
  match name, args with
  | "upper", [] => pure (textValue (cs.flatMap Letter.upper))
  | "lower", [] => pure (textValue (cs.map Letter.lower))
  | "casefold", [] =>
    pure (textValue (cs.flatMap fun c => if c = 'ß' then ['s', 's'] else [Letter.lower c]))
  | "capitalize", [] => pure (textValue (Letter.capitalize cs))
  | "title", [] => pure (textValue (Letter.title false cs))
  | "swapcase", [] => pure (textValue (cs.flatMap Letter.swapped))
  | "isalpha", [] => pure (isAll Letter.isLetter cs)
  | "isalnum", [] => pure (isAll (fun c => Letter.isLetter c || isDecimal c) cs)
  | "isascii", [] => pure (.bool (cs.all fun c => c.toNat < 0x80))
  | "isdecimal", [] | "isdigit", [] | "isnumeric", [] => pure (isAll isDecimal cs)
  | "isidentifier", [] => pure (.bool (isIdentifier cs))
  | "islower", [] => pure (isCased Letter.isLower cs)
  | "isupper", [] => pure (isCased Letter.isUpper cs)
  | "istitle", [] => pure (.bool (cs.any Letter.isLetter && Letter.title false cs = cs))
  | "isspace", [] => pure (isAll Blank.isBlank cs)
  | "isprintable", [] => pure (.bool (cs.all Hidden.isVisible))
  | "count", part :: args => countIn cs part args
  | "find", part :: args => found <$> placeIn Parts.place? cs part args
  | "rfind", part :: args => found <$> placeIn Parts.lastPlace? cs part args
  | "index", part :: args => do needed (← placeIn Parts.place? cs part args)
  | "rindex", part :: args => do needed (← placeIn Parts.lastPlace? cs part args)
  | "startswith", part :: args => hasAtEnd name List.isPrefixOf cs part args
  | "endswith", part :: args => hasAtEnd name List.isSuffixOf cs part args
  | "strip", args => do return textValue (Blank.strip (← droppedBy name args[0]?) cs)
  | "lstrip", args => do return textValue (cs.dropWhile (← droppedBy name args[0]?))
  | "rstrip", args => do
    return textValue (cs.reverse.dropWhile (← droppedBy name args[0]?)).reverse
  | "split", args => pieces false cs args
  | "rsplit", args => pieces true cs args
  | "partition", [part] => partition false cs part
  | "rpartition", [part] => partition true cs part
  | "replace", part :: new :: args => replaced cs part new args[0]?
  | "removeprefix", [part] => trimmed name List.isPrefixOf List.drop cs part
  | "removesuffix", [part] =>
    trimmed name List.isSuffixOf (fun n cs => cs.take (cs.length - n)) cs part
  | "join", [v] => joined cs v
  | "zfill", [width] => zeroFilled cs width
  | "ljust", width :: args => filled (fun _ => 0) cs width args[0]?
  | "rjust", width :: args => filled id cs width args[0]?
  | "center", width :: args => do
    let odd ← countOf width
    filled (fun n => n / 2 + (if n % 2 = 1 ∧ odd % 2 = 1 then 1 else 0)) cs width args[0]?
  | "encode", [] => pure (.bytes (String.ofList (encoded cs)))
  | name, _ => fail (.arity name)
where
  /-- The bytes of characters, each as a character below 256. -/
  encoded (cs : List Char) : List Char :=
    (String.ofList cs).toUTF8.toList.map fun b => Char.ofNat b.toNat

end DraftSchema.Build
