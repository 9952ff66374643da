/-!
Patterns that match one literal text. Only the characters that every common dialect of regular
expressions treats specially are escaped. What such a pattern means is said by `search`, which looks
for it in a text.
-/
namespace DraftSchema.Pattern

/-! ## Writing -/

/-- The characters that are escaped. -/
def specials : List Char :=
  ['.', '*', '+', '?', '^', '$', '\x7b', '\x7d', '(', ')', '|', '[', ']', '\\']

/-- One literal character inside a pattern. -/
def escapeChar (c : Char) : List Char := if c ∈ specials then ['\\', c] else [c]

def escapeChars (cs : List Char) : List Char := cs.flatMap escapeChar

/-- The pattern text of a literal. -/
def escape (literal : String) : String := String.ofList (escapeChars literal.toList)

/-- The characters of the pattern that matches a literal and nothing else. -/
def exactChars (cs : List Char) : List Char :=
  '^' :: (escapeChars cs ++ ['$', '(', '?', '!', '\\', 'n', ')'])

/-- The pattern that matches exactly a literal. The end mark also stands before a final line
break, which the look-ahead rules out. -/
def exact (literal : String) : String := String.ofList (exactChars literal.toList)

/-! ## Meaning -/

/-- Whether a character stands for something else than itself in a regular expression: any character,
the start or the end of the text, how often what precedes it occurs, a choice, a group, a set of
characters, a count, or the character that follows it. -/
def isMark : Char → Bool
  | '.' => true
  | '^' | '$' => true
  | '*' | '+' | '?' => true
  | '|' => true
  | '(' | ')' => true
  | '[' | ']' => true
  | '\x7b' | '\x7d' => true
  | '\\' => true
  | _ => false

/-- The parts of a pattern for literals. -/
inductive Part where
  /-- The start of the text. -/
  | start
  /-- The end of the text, or the place before a line break that ends it. -/
  | finish
  /-- A place that no line break follows. -/
  | noBreak
  | char (c : Char)
  deriving DecidableEq, Repr

/-- The parts of a pattern, unless it has others than those for literals: an escaped mark stands for
the mark, and every other character for itself. -/
def parts? : List Char → Option (List Part)
  | [] => some []
  | '(' :: '?' :: '!' :: '\\' :: 'n' :: ')' :: rest => (parts? rest).map (.noBreak :: ·)
  | '^' :: rest => (parts? rest).map (.start :: ·)
  | '$' :: rest => (parts? rest).map (.finish :: ·)
  | '\\' :: c :: rest => if isMark c then (parts? rest).map (.char c :: ·) else none
  | c :: rest => if isMark c then none else (parts? rest).map (.char c :: ·)

/-- Whether the parts match at the front of a text; `first` says whether it starts there. -/
def matchesAt (first : Bool) (text : List Char) : List Part → Bool
  | [] => true
  | .start :: rest => first && matchesAt first text rest
  | .finish :: rest => (text = [] || text = ['\n']) && matchesAt first text rest
  | .noBreak :: rest => text.head? ≠ some '\n' && matchesAt first text rest
  | .char c :: rest =>
    match text with
    | [] => false
    | d :: text => c = d && matchesAt false text rest

/-- Whether the parts match somewhere in a text. -/
def searchFrom (parts : List Part) (first : Bool) : List Char → Bool
  | [] => matchesAt first [] parts
  | c :: text => matchesAt first (c :: text) parts || searchFrom parts false text

/-- Whether a pattern matches somewhere in a text, if it is one for literals. -/
def search (pattern text : String) : Option Bool :=
  (parts? pattern.toList).map fun parts => searchFrom parts true text.toList

end DraftSchema.Pattern
