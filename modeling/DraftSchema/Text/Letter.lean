/-!
Capital and small letters of the Latin, Greek and Cyrillic alphabets. Most small letters stand at a
fixed distance behind their capitals.
-/
namespace DraftSchema.Letter

/-- Ranges of small letters, with how far their capitals are in front of them. -/
def ranges : List (Nat × Nat × Nat) :=
  [(0x61, 0x7a, 0x20), (0xe0, 0xf6, 0x20), (0xf8, 0xfe, 0x20), (0x3b1, 0x3c1, 0x20),
   (0x3c3, 0x3cb, 0x20), (0x430, 0x44f, 0x20), (0x450, 0x45f, 0x50)]

/-- The capital of a small letter. -/
def upper? (c : Char) : Option (List Char) :=
  if c = 'ß' then some ['S', 'S']
  else if c = 'ÿ' then some ['Ÿ']
  else if c = 'µ' then some ['Μ']
  else if c = 'ς' then some ['Σ']
  else
    (ranges.find? fun r => r.1 ≤ c.toNat && c.toNat ≤ r.2.1).map fun r =>
      [Char.ofNat (c.toNat - r.2.2)]

/-- The small letter of a capital. -/
def lower? (c : Char) : Option Char :=
  if c = 'Ÿ' then some 'ÿ'
  else
    (ranges.find? fun r => r.1 ≤ c.toNat + r.2.2 && c.toNat + r.2.2 ≤ r.2.1).map fun r =>
      Char.ofNat (c.toNat + r.2.2)

/-- Whether a character is a capital letter. -/
def isUpper (c : Char) : Bool := (lower? c).isSome

/-- Whether a character is a small letter. -/
def isLower (c : Char) : Bool := (upper? c).isSome

/-- Whether a character is a letter of one of the alphabets. -/
def isLetter (c : Char) : Bool := isUpper c || isLower c

/-- A character as a capital. -/
def upper (c : Char) : List Char := (upper? c).getD [c]

/-- A character as a small letter. -/
def lower (c : Char) : Char := (lower? c).getD c

/-- A text whose words begin with capitals and go on in small letters; `inside` says whether a
letter stands in front of it. -/
def title : (inside : Bool) → List Char → List Char
  | _, [] => []
  | inside, c :: cs =>
    (if inside then [lower c] else if c = 'ß' then ['S', 's'] else upper c)
      ++ title (isLetter c) cs

/-- A text that begins with a capital and goes on in small letters. -/
def capitalize : List Char → List Char
  | [] => []
  | c :: cs => (if c = 'ß' then ['S', 's'] else upper c) ++ cs.map lower

/-- A character in the other case. -/
def swapped (c : Char) : List Char := if isUpper c then [lower c] else upper c

end DraftSchema.Letter
