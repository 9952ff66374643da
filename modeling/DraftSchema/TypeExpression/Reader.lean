import DraftSchema.TypeExpression
import DraftSchema.TypeExpression.Token
import DraftSchema.Text.Quoted

/-!
Reading written annotations. Operations bind in the usual order: choices and conditions least, then
comparisons, then joined types, then arithmetic, then attributes, items and calls.
-/
namespace DraftSchema.TypeExpression

/-- The words that cannot be names. -/
def keywords : List String :=
  ["and", "as", "assert", "async", "await", "break", "class", "continue", "def", "del", "elif",
   "else", "except", "finally", "for", "from", "global", "if", "import", "in", "is", "lambda",
   "nonlocal", "not", "or", "pass", "raise", "return", "try", "while", "with", "yield"]

/-- The words behind a sign, if they begin with it. -/
def afterSign? (s : String) : List Token → Option (List Token)
  | .sign t :: rest => if s = t then some rest else none
  | _ => none

/-- The words behind a keyword, if they begin with it. -/
def afterWord? (s : String) : List Token → Option (List Token)
  | .name t :: rest => if s = t then some rest else none
  | _ => none

/-- The operation of a sign at a level of binding, if it belongs there: joining first, then sums, then
products. -/
def operation? (level : Nat) (s : String) :
    Option (TypeExpression → TypeExpression → TypeExpression) :=
  let arith (table : List (String × Arithmetic)) :=
    (table.find? fun e => e.1 = s).map fun e => TypeExpression.arith e.2
  let mixed (list : List String) := if list.contains s then some (TypeExpression.mixed s) else none
  match level with
  | 0 => arith [("|", .either)]
  | 1 => mixed ["^"]
  | 2 => mixed ["&"]
  | 3 => mixed ["<<", ">>"]
  | 4 => arith [("+", .add), ("-", .sub)]
  | _ => (arith [("*", .mul), ("/", .div), ("//", .floorDiv), ("%", .mod)]).orElse
      fun _ => mixed ["@"]

/-- The number of the levels of binding. -/
def levels : Nat := 6

/-- The comparison of a sign. -/
def relation? (s : String) : Option Relation :=
  [Relation.lt, .le, .gt, .ge, .eq, .ne].find? fun r => r.symbol = s

/-- Whether a word stands in a list of parameters. -/
def isParameter : Token → Bool
  | .name s => !keywords.contains s
  | .sign s => s = ","
  | _ => false

/-- The comparison at the front of words, and what is left. -/
def comparing? (ts : List Token) :
    Option ((TypeExpression → TypeExpression → TypeExpression) × List Token) :=
  match ts with
  | .sign s :: rest => (relation? s).map fun op => (.compare op, rest)
  | .name "in" :: rest => some (.member, rest)
  | .name "not" :: .name "in" :: rest => some (fun a b => .not (.member a b), rest)
  | _ => none

mutual

/-- A function, of which nothing but its name is kept, a condition, or what binds closer. -/
def expression? : (fuel : Nat) → List Token → Option (TypeExpression × List Token)
  | 0, _ => none
  | fuel + 1, .name "lambda" :: ts => do
    let rest ← afterSign? ":" (ts.dropWhile isParameter)
    let (_, rest) ← expression? fuel rest
    return (.constant .function, rest)
  | fuel + 1, ts => do
    let (yes, rest) ← disjunction? fuel ts
    match afterWord? "if" rest with
    | none => return (yes, rest)
    | some rest =>
      let (test, rest) ← disjunction? fuel rest
      let rest ← afterWord? "else" rest
      let (no, rest) ← expression? fuel rest
      return (.cond test yes no, rest)

def disjunction? : (fuel : Nat) → List Token → Option (TypeExpression × List Token)
  | 0, _ => none
  | fuel + 1, ts => do
    let (a, rest) ← conjunction? fuel ts
    match afterWord? "or" rest with
    | none => return (a, rest)
    | some rest =>
      let (b, rest) ← disjunction? fuel rest
      return (.or a b, rest)

def conjunction? : (fuel : Nat) → List Token → Option (TypeExpression × List Token)
  | 0, _ => none
  | fuel + 1, ts => do
    let (a, rest) ← negation? fuel ts
    match afterWord? "and" rest with
    | none => return (a, rest)
    | some rest =>
      let (b, rest) ← conjunction? fuel rest
      return (.and a b, rest)

def negation? : (fuel : Nat) → List Token → Option (TypeExpression × List Token)
  | 0, _ => none
  | fuel + 1, ts =>
    match afterWord? "not" ts with
    | none => comparison? fuel ts
    | some rest => (negation? fuel rest).map fun r => (.not r.1, r.2)

def comparison? : (fuel : Nat) → List Token → Option (TypeExpression × List Token)
  | 0, _ => none
  | fuel + 1, ts => do
    let (a, rest) ← chain? fuel 0 ts
    match comparing? rest with
    | none => return (a, rest)
    | some _ => comparisons? fuel a rest

/-- Comparisons behind an operand, each operand but the last being compared with the next one. -/
def comparisons? : (fuel : Nat) → TypeExpression → List Token →
    Option (TypeExpression × List Token)
  | 0, _, _ => none
  | fuel + 1, a, ts => do
    let (compared, rest) ← comparing? ts
    let (b, rest) ← chain? fuel 0 rest
    match comparing? rest with
    | none => return (compared a b, rest)
    | some _ =>
      let (more, rest) ← comparisons? fuel b rest
      return (.and (compared a b) more, rest)

/-- Operations of a level, from left to right. -/
def chain? : (fuel : Nat) → (level : Nat) → List Token → Option (TypeExpression × List Token)
  | 0, _, _ => none
  | fuel + 1, level, ts =>
    if levels ≤ level then unary? fuel ts
    else do
      let (a, rest) ← chain? fuel (level + 1) ts
      chainRest? fuel level a rest

/-- What follows an operand of a level. -/
def chainRest? : (fuel : Nat) → (level : Nat) → TypeExpression → List Token →
    Option (TypeExpression × List Token)
  | 0, _, _, _ => none
  | fuel + 1, level, a, ts =>
    match ts with
    | .sign s :: rest =>
      match operation? level s with
      | none => some (a, ts)
      | some op => do
        let (b, rest) ← chain? fuel (level + 1) rest
        chainRest? fuel level (op a b) rest
    | _ => some (a, ts)

def unary? : (fuel : Nat) → List Token → Option (TypeExpression × List Token)
  | 0, _ => none
  | fuel + 1, ts =>
    match ts with
    | .sign "-" :: rest => (unary? fuel rest).map fun r => (.neg r.1, r.2)
    | .sign "+" :: rest => (unary? fuel rest).map fun r => (.plus r.1, r.2)
    | .sign "~" :: rest => (unary? fuel rest).map fun r => (.complement r.1, r.2)
    | ts => power? fuel ts

def power? : (fuel : Nat) → List Token → Option (TypeExpression × List Token)
  | 0, _ => none
  | fuel + 1, ts => do
    let (a, rest) ← atom? fuel ts
    let (a, rest) ← trailer? fuel a rest
    match afterSign? "**" rest with
    | none => return (a, rest)
    | some rest =>
      let (b, rest) ← unary? fuel rest
      return (.arith .pow a b, rest)

/-- Attributes, items and calls behind an operand. -/
def trailer? : (fuel : Nat) → TypeExpression → List Token → Option (TypeExpression × List Token)
  | 0, _, _ => none
  | fuel + 1, a, ts =>
    match ts with
    | .sign "." :: .name s :: rest =>
      if keywords.contains s then none else trailer? fuel (.attr a s) rest
    | .sign "." :: _ => none
    | .sign "[" :: rest => do
      let (parts, comma, rest) ← parts? fuel "]" rest
      match parts, comma with
      | [], _ => none
      | [key], false => trailer? fuel (.item a key) rest
      | keys, _ => trailer? fuel (.item a (.tuple keys)) rest
    | .sign "(" :: rest => do
      let (parts, _, rest) ← parts? fuel ")" rest
      trailer? fuel (.call a parts) rest
    | _ => some (a, ts)

def atom? : (fuel : Nat) → List Token → Option (TypeExpression × List Token)
  | 0, _ => none
  | fuel + 1, ts =>
    match ts with
    | .name s :: rest => if keywords.contains s then none else some (.name s, rest)
    | .constant (.text s) :: .constant (.text t) :: rest =>
      atom? fuel (.constant (.text (s ++ t)) :: rest)
    | .constant v :: rest => some (.constant v, rest)
    | .sign "..." :: rest => some (.name "Ellipsis", rest)
    | .sign "(" :: rest => do
      let (parts, comma, rest) ← parts? fuel ")" rest
      match parts, comma with
      | [a], false => return (a, rest)
      | parts, _ => return (.tuple parts, rest)
    | .sign "[" :: rest => do
      let (parts, _, rest) ← parts? fuel "]" rest
      return (.list parts, rest)
    | _ => none

/-- Parts between commas up to a closing bracket, and whether there was a comma. -/
def parts? : (fuel : Nat) → (close : String) → List Token →
    Option (List TypeExpression × Bool × List Token)
  | 0, _, _ => none
  | fuel + 1, close, ts =>
    match afterSign? close ts with
    | some rest => some ([], false, rest)
    | none => do
      let (a, rest) ← expression? fuel ts
      match afterSign? close rest with
      | some rest => return ([a], false, rest)
      | none =>
        let rest ← afterSign? "," rest
        let (more, _, rest) ← parts? fuel close rest
        return (a :: more, true, rest)

end

/-- The expression that words spell, with line breaks around it. A comma makes a tuple. -/
def ofTokens? (ts : List Token) : Option TypeExpression :=
  let isBreak (t : Token) : Bool := t matches .newline
  let ts := ts.dropWhile isBreak
  let fuel := 24 * (ts.length + 2)
  match expression? fuel ts with
  | some (a, rest) =>
    if rest.all isBreak then some a
    else
      match afterSign? "," rest with
      | none => none
      | some rest =>
        let (line, others) := (rest.takeWhile (!isBreak ·), rest.dropWhile (!isBreak ·))
        match parts? fuel ")" (line ++ [.sign ")"]) with
        | some (parts, _, []) => if others.all isBreak then some (.tuple (a :: parts)) else none
        | _ => none
  | none => none

/-- Whether the first line with something in it begins with a blank. -/
def isIndented : (fuel : Nat) → List Char → Bool
  | 0, _ => false
  | fuel + 1, cs =>
    let rest := cs.dropWhile fun c => c = ' ' || c = '\t' || c = '\x0c'
    match rest with
    | [] => false
    | '\n' :: rest => isIndented fuel rest
    | '#' :: rest => isIndented fuel (rest.dropWhile (· ≠ '\n'))
    | _ => rest.length < cs.length

/-- The fault of a text that is no expression. -/
def malformed (text : String) : Fault :=
  .stated (.other "SyntaxError")
    ("Forward reference must be an expression -- got " ++ Quoted.text text)

/-- The expression after a star, which binds closer than a comparison. -/
def starred? (ts : List Token) : Option TypeExpression :=
  let isBreak (t : Token) : Bool := t matches .newline
  let ts := ts.filter (!isBreak ·)
  match chain? (24 * (ts.length + 2)) 0 ts with
  | some (a, []) => some (.first a)
  | _ => none

/-- The expression that characters spell. -/
def ofChars? (cs : List Char) : Option TypeExpression :=
  match cs with
  | '*' :: rest => (Token.scan? (rest.length + 1) 0 rest).bind starred?
  | cs =>
    if isIndented (cs.length + 1) cs then none
    else (Token.scan? (cs.length + 1) 0 cs).bind ofTokens?

/-- The expression that a text spells. A star in front asks for the parts of what follows. -/
def read (text : String) : Except Fault TypeExpression :=
  let cs := text.toList.map fun c => if c = '\r' then '\n' else c
  if text.isEmpty then .error (.outOfRange "string")
  else if cs.contains '\x00' then
    .error (.stated .value "source code string cannot contain null bytes")
  else
    match ofChars? cs with
    | some a => .ok a
    | none => .error (malformed text)

end DraftSchema.TypeExpression
