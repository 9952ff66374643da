import DraftSchema.Number.Shortest
import DraftSchema.Number.Whole
import DraftSchema.Value.Kind

/-!
How values are shown in messages. A text is shown as it is when it stands alone and in quotes
inside another value; the rules in the store are shown through a function that the caller gives.
What holds a whole number with too many digits cannot be shown.
-/
namespace DraftSchema.Value

/-- How the foreign things with a known form are shown. -/
def foreignText : String → String
  | "set" => "\x7b1\x7d"
  | "frozenset" => "frozenset(\x7b1\x7d)"
  | "ellipsis" => "Ellipsis"
  | "NotImplementedType" => "NotImplemented"
  | kind => "<" ++ kind ++ " object>"

/-- How a truth value is shown. -/
def boolText (b : Bool) : String := if b then "True" else "False"

/-- The elements of a tuple, of which a single one is followed by a comma. -/
def tupleText : List String → String
  | [x] => "(" ++ x ++ ",)"
  | xs => "(" ++ String.intercalate ", " xs ++ ")"

/-- The places where the types are declared that are not built in. -/
def typeScopes : List (String × String) :=
  [("Pattern", "re"), ("Decimal", "decimal"), ("Fraction", "fractions"),
   ("Range", "json_schema_builder.expressions"), ("PathSegment", "json_schema_builder.expressions"),
   ("_PathRecorder", "json_schema_builder.expressions"),
   ("_Operand", "json_schema_builder.expressions"),
   ("_Comparison", "json_schema_builder.expressions"), ("ABCMeta", "abc"), ("_AnyMeta", "typing"),
   ("_GenericAlias", "typing"), ("_AnnotatedAlias", "typing"), ("_UnionGenericAlias", "typing"),
   ("ForwardRef", "typing"), ("GenericAlias", "types"), ("UnionType", "types")]

/-- The name of a class with the place where it is declared, if it is not built in. -/
def scopedName (name : String) : String :=
  match typeScopes.find? fun e => e.1 = name with
  | some (_, scope) => scope ++ "." ++ name
  | none => name

/-- How a choice is shown: by bars, or by name, a choice of one type and nothing being optional.
Each member comes with whether it is the absent one. -/
def choiceText (barred : Bool) (members : List (Bool × String)) : String :=
  if barred then
    String.intercalate " | " (members.map fun m => if m.1 then "None" else m.2)
  else
    match members with
    | [(true, _), (_, t)] => "typing.Optional[" ++ t ++ "]"
    | [(_, t), (true, _)] => "typing.Optional[" ++ t ++ "]"
    | _ => "typing.Union[" ++ String.intercalate ", " (members.map Prod.snd) ++ "]"

/-- What a type is shown with for each of its notes. -/
def noteTexts (notes : Nat) : String := String.join (List.replicate notes ", 'note'")

/-- How a class is shown that stands alone. -/
def classText (name : String) : String := "<class '" ++ name ++ "'>"

mutual

/-- How a value is shown inside another. -/
def quoted (detail : NodeId → Except Fault String) : Value → Except Fault String
  | .null => .ok "None"
  | .bool b => .ok (boolText b)
  | .int n => Whole.text n
  | .float x => .ok x.toText
  | .text s => .ok (Quoted.text s)
  | .bytes s => .ok (Quoted.bytes s)
  | .list _ xs => do return "[" ++ String.intercalate ", " (← quotedAll detail xs) ++ "]"
  | .tuple xs => tupleText <$> quotedAll detail xs
  | .dict _ es => do
    return "\x7b" ++ String.intercalate ", " (← quotedEntries detail es) ++ "\x7d"
  | .regex r => .ok r.text
  | .function .. => .ok "<function>"
  | .range bounds => quotedBounds detail bounds
  | .node id => detail id
  | .type t => do
    let shown ← memberText detail t
    return if t.isClass && (t matches .basic _ | .model _) then classText shown else shown
  | .nodeClass c => .ok (classText (c.scope ++ "." ++ c.name))
  | .builtin name => .ok ("<built-in function " ++ name ++ ">")
  | .foreign _ kind => .ok (foreignText kind)
  | .sized _ => .ok "<object>"
  | .recorder .. => .ok "<_PathRecorder object>"
  | .operand .. => .ok "<_Operand object>"
  | .comparison .. => .ok "<_Comparison object>"
  | .method owner name => do
    return "<bound method " ++ name ++ " of " ++ (← owner.quoted detail) ++ ">"
  | .classMethod c name => .ok ("<function " ++ c.name ++ "." ++ name ++ ">")

def quotedAll (detail : NodeId → Except Fault String) : List Value → Except Fault (List String)
  | [] => .ok []
  | x :: xs => do
    let shown ← x.quoted detail
    return shown :: (← quotedAll detail xs)

def quotedEntries (detail : NodeId → Except Fault String) :
    List (Value × Value) → Except Fault (List String)
  | [] => .ok []
  | (k, x) :: es => do
    let name ← k.quoted detail
    let shown ← x.quoted detail
    return (name ++ ": " ++ shown) :: (← quotedEntries detail es)

def quotedBounds (detail : NodeId → Except Fault String) : Bounds Value → Except Fault String
  | ⟨min, max, minExclusive, maxExclusive, ofLength⟩ => do
    let min ← min.quoted detail
    let max ← max.quoted detail
    let minExclusive ← minExclusive.quoted detail
    let maxExclusive ← maxExclusive.quoted detail
    return "Range(min=" ++ min ++ ", max=" ++ max ++ ", min_exclusive=" ++ minExclusive
      ++ ", max_exclusive=" ++ maxExclusive ++ ", of_length=" ++ (← ofLength.quoted detail) ++ ")"

/-- How a type is shown inside another. -/
def memberText (detail : NodeId → Except Fault String) : TypeForm Value → Except Fault String
  | .basic name => .ok (scopedName name)
  | .any => .ok "typing.Any"
  | .model m => .ok (m.scope ++ "." ++ m.name)
  | .list t => do return "typing.List[" ++ (← memberText detail t) ++ "]"
  | .dict k v => do
    let key ← memberText detail k
    return "typing.Dict[" ++ key ++ ", " ++ (← memberText detail v) ++ "]"
  | .generic name ts => do
    let members ← memberTexts detail ts
    return name ++ "[" ++ String.intercalate ", " (members.map Prod.snd) ++ "]"
  | .annotated t notes => do
    return "typing.Annotated[" ++ (← memberText detail t) ++ noteTexts notes ++ "]"
  | .union barred members => choiceText barred <$> memberTexts detail members
  | .reference name => .ok ("ForwardRef(" ++ Quoted.text name ++ ")")
  | .other v =>
    match v with
    | .nodeClass c => .ok (c.scope ++ "." ++ c.name)
    | .foreign _ "ellipsis" => .ok "..."
    | v => v.quoted detail

def memberTexts (detail : NodeId → Except Fault String) :
    List (TypeForm Value) → Except Fault (List (Bool × String))
  | [] => .ok []
  | t :: ts => do
    let shown ← memberText detail t
    return (t.isAbsent, shown) :: (← memberTexts detail ts)

end

/-- How a value that stands alone is shown; `plain` shows a rule that stands alone, and `detail` one
inside another value. -/
def shown (plain detail : NodeId → Except Fault String) : Value → Except Fault String
  | .text s => .ok s
  | .node id => plain id
  | v => v.quoted detail

end DraftSchema.Value
