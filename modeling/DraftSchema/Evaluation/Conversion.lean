import DraftSchema.Evaluation.Operation

/-!
What types and built-in functions give when they are called.
-/
namespace DraftSchema.Build

/-- Reads a whole number in decimal digits; `shown` is how the numeral is shown in a fault. -/
def wholeNumeral (shown : String) (numeral : List Char) : Except Fault Int :=
  let (negative, digits) := Decimal.sign numeral
  match Decimal.digits digits with
  | (d :: ds, []) =>
    let count := ds.length + 1
    let n : Int := Decimal.ofDigits (d :: ds)
    if Whole.digitLimit < count then .error (.tooManyDigits Whole.digitLimit (some count))
    else .ok (if negative then -n else n)
  | _ => .error (.badNumeral "int" (Typing.cut 200 shown))

/-- The whole number that a text spells. -/
def spelled (s : String) : Build Value := do
  return .int (← ofExcept (wholeNumeral (Quoted.text s) (Decimal.body s)))

/-- A rational without its fraction. -/
def truncate (q : Rat) : Int := if q < 0 then q.ceil else q.floor

/-- The whole number made from a value. -/
def toWhole (v : Value) : Build Value :=
  match v with
  | .float x =>
    match x.denote with
    | .exact q => pure (.int (truncate q))
    | .infinite _ => fail .infinityToInteger
    | .undefined => fail .nanToInteger
  | .text s => spelled s
  | .bytes s => do
    let numeral := Blank.strip Blank.isPlain s.toList
    return .int (← ofExcept (wholeNumeral (Quoted.bytes s) numeral))
  | v =>
    match v.toInt? with
    | some n => pure (.int n)
    | none => failOn (.noConversion "int") v

/-- The floating-point number made from a value. -/
def toReal (v : Value) : Build Value :=
  let read (s shown : String) : Build Value := do
    match Binary64.ofText? (← fresh) s with
    | some x => return .float x
    | none => fail (.badNumeral "float" shown)
  match v with
  | .text s => read s (Quoted.text s)
  | .bytes s => read s (Quoted.bytes s)
  | v => do
    match ← toFloat v with
    | some x => return .float x
    | none => failOn (.noConversion "float") v

/-- What a built-in class gives for one argument. -/
def convert (name : String) (v : Value) : Build Value :=
  match name with
  | "str" => .text <$> fromStore fun s => s.valueText v
  | "bool" => do return .bool (← truth v)
  | "int" => toWhole v
  | "float" => toReal v
  | "list" => do list (← elements v)
  | "tuple" => do return .tuple (← elements v)
  | "dict" => do dict (← entriesOf v)
  | "type" => do return classOf (← store) v
  | "object" => fail (.noArguments "object")
  | "NoneType" => fail (.noInstances "NoneType takes no arguments")
  | name => do
    if name = Value.recorderClass then recorder (← elements v)
    else return .foreign (← fresh) name

/-- What a built-in class gives for no argument. -/
def initial (name : String) : Build Value :=
  match name with
  | "str" => pure (.text "")
  | "bool" => pure (.bool false)
  | "int" => pure (.int 0)
  | "float" => pure (.float (.zero false))
  | "list" => list []
  | "tuple" => pure (.tuple [])
  | "dict" => dict []
  | "NoneType" => pure .null
  | "type" => fail (.arity "type")
  | name => do
    if name = Value.recorderClass then recorder [] else return .foreign (← fresh) name

/-- What a type gives when it is called. -/
def instantiate (args : List Value) : TypeForm Value → Build Value
  | .basic name | .generic name _ =>
    match args with
    | [] => initial name
    | [v] => convert name v
    | _ => fail (.arity name)
  | .any => fail (.noInstances "Any cannot be instantiated")
  | .model m =>
    match args with
    | [] => do return .foreign (← fresh) m.name
    | _ => fail (.noArguments m.name)
  | .list _ => fail (.noInstances "Type List cannot be instantiated; use list() instead")
  | .dict .. => fail (.noInstances "Type Dict cannot be instantiated; use dict() instead")
  | .annotated t _ => instantiate args t
  | .union true ts => failOn .notCallable (.type (.union true ts))
  | .union false _ => fail (.noInstances "Cannot instantiate typing.Union")
  | .reference name => failOn .notCallable (.type (.reference name))
  | .other v => failOn .notCallable v

/-- What a built-in function gives. -/
def applyBuiltin (name : String) (args : List Value) : Build Value :=
  match name, args with
  | "len", [v] => length v
  | "abs", [v] => absolute v
  | name, _ => fail (.arity name)

end DraftSchema.Build
