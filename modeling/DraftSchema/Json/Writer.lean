import DraftSchema.Number.Shortest
import DraftSchema.Number.Whole
import DraftSchema.Text.Quoted
import DraftSchema.Value.Kind

/-!
Writing documents as JSON text. Everything beyond printable ASCII is written by its code, in two
halves where it needs them. A compact text has one blank after commas and colons; an indented one
has each member and element on a line of its own.
-/
namespace DraftSchema.Json

/-- No text is as long. -/
def widthLimit : Nat := Nat.pow 2 63

/-- The greatest width of an indentation that there is room for. -/
def roomLimit : Nat := Nat.pow 2 34

/-- How a text is laid out. -/
inductive Layout where
  | compact
  | indented (unit : List Char)
  deriving DecidableEq, Repr

/-- The layout that an indentation asks for: a width, a text to indent with, or nothing. -/
def Layout.ofIndent (kindName : Value → String) (indent : Value) : Except Fault Layout :=
  match indent with
  | .null => .ok .compact
  | .text s => .ok (.indented s.toList)
  | v =>
    match v.toInt? with
    | none => .error (.repeated (kindName v))
    | some n =>
      if n < -(widthLimit : Int) ∨ (widthLimit : Int) ≤ n then .error .countTooLarge
      else if (roomLimit : Int) < n then .error .outOfMemory
      else .ok (.indented (List.replicate n.toNat ' '))

/-! ## Texts -/

/-- A code of sixteen bits. -/
def unitChars (n : Nat) : List Char := '\\' :: 'u' :: Quoted.hex 4 n

/-- The code of a character; those beyond sixteen bits have a leading and a trailing half. -/
def codeChars (n : Nat) : List Char :=
  if n < 0x10000 then unitChars n
  else
    let m := n - 0x10000
    unitChars (0xd800 + m / 0x400) ++ unitChars (0xdc00 + m % 0x400)

/-- One character of a text. -/
def charChars (c : Char) : List Char :=
  if c = '"' then ['\\', '"']
  else if c = '\\' then ['\\', '\\']
  else if c = '\n' then ['\\', 'n']
  else if c = '\r' then ['\\', 'r']
  else if c = '\t' then ['\\', 't']
  else if c = '\x08' then ['\\', 'b']
  else if c = '\x0c' then ['\\', 'f']
  else if 0x20 ≤ c.toNat ∧ c.toNat < 0x7f then [c]
  else codeChars c.toNat

/-- A text in quotes. -/
def textChars (s : String) : List Char := '"' :: (s.toList.flatMap charChars ++ ['"'])

/-! ## Words and numbers -/

/-- Nothing. -/
def nullChars : List Char := ['n', 'u', 'l', 'l']

/-- A truth value. -/
def boolChars (b : Bool) : List Char :=
  if b then ['t', 'r', 'u', 'e'] else ['f', 'a', 'l', 's', 'e']

/-- A floating-point number; the words for what is no finite number are no standard JSON. -/
def floatChars : Binary64 → List Char
  | .nan _ => "NaN".toList
  | .infinity negative => if negative then "-Infinity".toList else "Infinity".toList
  | .finite negative m e _ => Binary64.finiteChars negative m e

/-! ## Names -/

/-- The fault of a key that no member can be named by. -/
def badName (type : String) : Fault :=
  .stated .type ("keys must be str, int, float, bool or None, not " ++ type)

/-- The name of a member: a text, or what else is written without brackets, in quotes. -/
def nameChars (typeName : Value → String) (key : Value) : Except Fault (List Char) :=
  let quoted (cs : List Char) : List Char := '"' :: (cs ++ ['"'])
  match key with
  | .text s => .ok (textChars s)
  | .null => .ok (quoted nullChars)
  | .bool b => .ok (quoted (boolChars b))
  | .int n => quoted <$> Whole.chars n
  | .float x => .ok (quoted (floatChars x))
  | key => .error (badName (typeName key))

/-! ## Documents -/

/-- A line break and the indentation of a depth, if the layout has lines. -/
def newline (layout : Layout) (depth : Nat) : List Char :=
  match layout with
  | .compact => []
  | .indented unit => '\n' :: (List.replicate depth unit).flatten

/-- What stands between two elements. -/
def separator (layout : Layout) (depth : Nat) : List Char :=
  match layout with
  | .compact => [',', ' ']
  | .indented _ => ',' :: newline layout depth

/-- Elements between brackets; `depth` is that of the elements. -/
def bracket (layout : Layout) (depth : Nat) (first last : Char) (parts : List (List Char)) :
    List Char :=
  if parts.isEmpty then [first, last]
  else
    first :: (newline layout depth ++ (parts.intersperse (separator layout depth)).flatten
      ++ newline layout (depth - 1) ++ [last])

mutual

/-- The text of a document at a depth; `typeName` names the types that have no JSON form. -/
def chars (typeName : Value → String) (layout : Layout) (depth : Nat) :
    Value → Except Fault (List Char)
  | .null => .ok nullChars
  | .bool b => .ok (boolChars b)
  | .int n => Whole.chars n
  | .float x => .ok (floatChars x)
  | .text s => .ok (textChars s)
  | .list _ xs => do
    return bracket layout (depth + 1) '[' ']' (← elementChars typeName layout (depth + 1) xs)
  | .tuple xs => do
    return bracket layout (depth + 1) '[' ']' (← elementChars typeName layout (depth + 1) xs)
  | .dict _ es => do
    return bracket layout (depth + 1) '\x7b' '\x7d' (← memberChars typeName layout (depth + 1) es)
  | v => .error (.notSerializable (typeName v))

def elementChars (typeName : Value → String) (layout : Layout) (depth : Nat) :
    List Value → Except Fault (List (List Char))
  | [] => .ok []
  | x :: xs => do
    let part ← chars typeName layout depth x
    return part :: (← elementChars typeName layout depth xs)

def memberChars (typeName : Value → String) (layout : Layout) (depth : Nat) :
    List (Value × Value) → Except Fault (List (List Char))
  | [] => .ok []
  | (k, x) :: es => do
    let name ← nameChars typeName k
    let part ← chars typeName layout depth x
    return (name ++ ':' :: ' ' :: part) :: (← memberChars typeName layout depth es)

end

/-- The text of a document. -/
def write (typeName : Value → String) (layout : Layout) (document : Value) :
    Except Fault String :=
  String.ofList <$> chars typeName layout 0 document

end DraftSchema.Json
