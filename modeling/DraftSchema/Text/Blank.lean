/-!
Blanks: the characters that only set other characters apart. Among ASCII characters the four
separators of data count as blanks in some places and not in others.
-/
namespace DraftSchema.Blank

/-- The blanks of ASCII that count everywhere: from the tabulator to the carriage return, and the
space. -/
def isPlain (c : Char) : Bool := (9 ≤ c.toNat && c.toNat ≤ 13) || c = ' '

/-- The blanks beyond those. -/
def others : List (Nat × Nat) :=
  [(0x1c, 0x1f), (0x85, 0x85), (0xa0, 0xa0), (0x1680, 0x1680), (0x2000, 0x200a), (0x2028, 0x2029),
   (0x202f, 0x202f), (0x205f, 0x205f), (0x3000, 0x3000)]

/-- The blanks of all scripts. -/
def isBlank (c : Char) : Bool :=
  isPlain c || others.any fun r => r.1 ≤ c.toNat && c.toNat ≤ r.2

/-- Drops what counts as blank at both ends of a text. -/
def strip (blank : Char → Bool) (cs : List Char) : List Char :=
  ((cs.dropWhile blank).reverse.dropWhile blank).reverse

end DraftSchema.Blank
