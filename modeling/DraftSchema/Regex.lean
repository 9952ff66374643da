import DraftSchema.Text.Quoted

/-!
Compiled patterns. Patterns are never run here; what is kept of one is its source, whether it is for
bytes, and its flags, which are given beside it or by groups of letters that the source begins with.
-/
namespace DraftSchema

/-- The flags of a pattern, in the order they are shown in. -/
inductive RegexFlag where
  | ignoreCase | locale | multiline | dotAll | verbose | ascii
  deriving DecidableEq, Repr

namespace RegexFlag

/-- All flags, in the order they are shown in. -/
def all : List RegexFlag := [ignoreCase, locale, multiline, dotAll, verbose, ascii]

/-- The flag that a letter stands for. The letter for all scripts says nothing new. -/
def ofLetter? : Char → Option RegexFlag
  | 'i' => some ignoreCase
  | 'L' => some locale
  | 'm' => some multiline
  | 's' => some dotAll
  | 'x' => some verbose
  | 'a' => some ascii
  | _ => none

/-- The name a flag is shown by. -/
def text : RegexFlag → String
  | ignoreCase => "re.IGNORECASE"
  | locale => "re.LOCALE"
  | multiline => "re.MULTILINE"
  | dotAll => "re.DOTALL"
  | verbose => "re.VERBOSE"
  | ascii => "re.ASCII"

end RegexFlag

/-- A compiled pattern; the source of one for bytes is kept as characters below 256. -/
structure Regex where
  source : String
  onBytes : Bool
  flags : List RegexFlag
  deriving DecidableEq, Repr

namespace Regex

/-- The flags that letters stand for. -/
def flagsOf (letters : List Char) : List RegexFlag := letters.filterMap RegexFlag.ofLetter?

/-- The letters of flags in a group at the front of a source, and what follows the group. A remark in
a group of its own has none. -/
def flagGroup? : List Char → Option (List Char × List Char)
  | '(' :: '?' :: '#' :: rest => some ([], (rest.dropWhile (· ≠ ')')).drop 1)
  | '(' :: '?' :: rest =>
    let letters := rest.takeWhile Char.isAlpha
    match rest.drop letters.length with
    | ')' :: rest => if letters.isEmpty then none else some (letters, rest)
    | _ => none
  | _ => none

/-- A verbose source without the blanks and remarks at its front. -/
def skipRemarks : (fuel : Nat) → List Char → List Char
  | 0, cs => cs
  | fuel + 1, cs =>
    match cs.dropWhile fun c => " \t\n\r\x0b\x0c".toList.contains c with
    | '#' :: rest => skipRemarks fuel (rest.dropWhile (· ≠ '\n'))
    | cs => cs

/-- The flags given in groups at the front of a source, in addition to others. -/
def leadingFlags : (fuel : Nat) → List RegexFlag → List Char → List RegexFlag
  | 0, flags, _ => flags
  | fuel + 1, flags, cs =>
    let cs := if flags.contains .verbose then skipRemarks cs.length cs else cs
    match flagGroup? cs with
    | some (letters, rest) => leadingFlags fuel (flags ++ flagsOf letters) rest
    | none => flags

/-- The pattern with a source and the letters of flags. -/
def compile (onBytes : Bool) (source letters : String) : Regex :=
  let cs := source.toList
  let flags := leadingFlags (cs.length + 1) (flagsOf letters.toList) cs
  { source, onBytes, flags := RegexFlag.all.filter flags.contains }

/-- How a pattern is shown, a long source being cut off. -/
def text (r : Regex) : String :=
  let source := if r.onBytes then Quoted.bytes r.source else Quoted.text r.source
  let flags := String.intercalate "|" (r.flags.map RegexFlag.text)
  "re.compile(" ++ String.ofList (source.toList.take 200)
    ++ (if r.flags.isEmpty then "" else ", " ++ flags) ++ ")"

end Regex

end DraftSchema
