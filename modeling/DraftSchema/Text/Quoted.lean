import DraftSchema.Text.Hidden

/-!
Texts in quotes. Single quotes are used, unless the text has one and no double quote. Backslashes
and the quote in use get a backslash; what has no visible form is written by its code.
-/
namespace DraftSchema.Quoted

/-- A number in hexadecimal with at least `width` digits. -/
def hex (width n : Nat) : List Char :=
  let ds := Nat.toDigits 16 n
  List.replicate (width - ds.length) '0' ++ ds

/-- The code of a character. -/
def code (c : Char) : List Char :=
  if c.toNat < 0x100 then '\\' :: 'x' :: hex 2 c.toNat
  else if c.toNat < 0x10000 then '\\' :: 'u' :: hex 4 c.toNat
  else '\\' :: 'U' :: hex 8 c.toNat

/-- The written form of one character between the given quotes. -/
def escape (quote c : Char) : List Char :=
  if c = quote ∨ c = '\\' then ['\\', c]
  else if c = '\n' then ['\\', 'n']
  else if c = '\r' then ['\\', 'r']
  else if c = '\t' then ['\\', 't']
  else if Hidden.isVisible c then [c]
  else code c

/-- The quote that a text is put in. -/
def quoteOf (cs : List Char) : Char :=
  if cs.contains '\'' && !cs.contains '"' then '"' else '\''

/-- The text in quotes. -/
def text (s : String) : String :=
  let q := quoteOf s.toList
  String.ofList (q :: (s.toList.flatMap (escape q) ++ [q]))

/-- A text with every character beyond ASCII written by its code. -/
def plain (s : String) : String :=
  String.ofList (s.toList.flatMap fun c => if c.toNat < 0x80 then [c] else code c)

/-- Bytes, given as characters below 256, in marked quotes. -/
def bytes (s : String) : String :=
  let q := quoteOf s.toList
  let byte (c : Char) := if c.toNat < 0x80 then escape q c else '\\' :: 'x' :: hex 2 c.toNat
  String.ofList ('b' :: q :: (s.toList.flatMap byte ++ [q]))

end DraftSchema.Quoted
