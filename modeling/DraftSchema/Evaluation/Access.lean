import DraftSchema.Evaluation.Method
import DraftSchema.Node.Attribute
import DraftSchema.Workspace

/-!
Reading parts of values: attributes, items, slices, elements and lengths. On a recorder each access
by name gives a recorder of the longer path.
-/
namespace DraftSchema.Build

/-- A fault about the type of a value. -/
def failOn {α : Type} (fault : String → Fault) (v : Value) : Build α := do
  fail (fault (← kindName v))

/-! ## Attributes -/

/-- The attribute under which a recorder keeps its path. -/
def pathAttribute : String := "_PathRecorder__parts"

/-- What recorders are documented with. -/
def recorderWords : String := "Proxy recording every attribute or key accessed on it."

/-- An attribute of a recorder: what it has itself, a fault for other reserved names, and else the
longer path. -/
def recorderAttribute (id : Nat) (path : List Value) (name : String) : Build Value :=
  if name = pathAttribute then pure (.tuple path)
  else if name = "__class__" then pure (.type (.basic Value.recorderClass))
  else if name = "__slots__" then pure (.tuple [.text "__parts"])
  else if name = "__module__" then pure (.text "json_schema_builder.expressions")
  else if name = "__doc__" then pure (.text recorderWords)
  else if Method.ofRecorder name then pure (.method (.recorder id path) name)
  else if Store.isReserved name then fail (.reserved name)
  else recorder (path ++ [.text name])

/-- The attributes of bounds. -/
def boundsAttributes (b : Bounds Value) : Entries String Value :=
  [("min", b.min), ("max", b.max), ("min_exclusive", b.minExclusive),
   ("max_exclusive", b.maxExclusive), ("of_length", b.ofLength)]

/-- The attributes of a recorded comparison. -/
def comparisonAttributes (operand : Nat) (ofLength : Bool) (op : Relation) (value : Value) :
    Entries String Value :=
  [("operand", .operand operand ofLength), ("operator", .text op.symbol), ("value", value)]

/-- The attributes of a whole number. -/
def intAttributes (n : Int) : Entries String Value :=
  [("real", .int n), ("imag", .int 0), ("numerator", .int n), ("denominator", .int 1)]

/-- The attributes of a pattern. -/
def regexAttributes (r : Regex) : Entries String Value :=
  [("pattern", if r.onBytes then .bytes r.source else .text r.source)]

/-- The attributes that a class of rules has itself. -/
def classAttributes (c : NodeClass) : Entries String Value :=
  let keyword := match c with
    | .combinator => [("keyword", .text CombinatorKind.plain.keyword)]
    | .anyOf => [("keyword", .text CombinatorKind.anyOf.keyword)]
    | .oneOf => [("keyword", .text CombinatorKind.oneOf.keyword)]
    | .allOf => [("keyword", .text CombinatorKind.allOf.keyword)]
    | .object => [("accepts_properties", .bool ObjectKind.plain.acceptsProperties)]
    | .schema => [("accepts_properties", .bool ObjectKind.schema.acceptsProperties)]
    | .dictionary => [("accepts_properties", .bool ObjectKind.dictionary.acceptsProperties)]
    | _ => []
  [("__name__", .text c.name), ("__qualname__", .text c.name), ("__module__", .text c.scope)]
    ++ keyword

/-- The class of a value. -/
def classOf (s : Store) (v : Value) : Value :=
  match v with
  | .node id =>
    match s.get? id with
    | some node => .nodeClass node.rule.nodeClass
    | none => .null
  | v => .type (.basic (s.typeName v))

/-- The attributes of a type that are not those of its class. -/
def typeAttribute? (t : TypeForm Value) (name : String) : Option Value :=
  if name = "__name__" ∨ name = "__qualname__" then t.name?.map .text else none

/-- The attribute of a value that is no recorder and no operand. -/
def plainAttribute? (s : Store) (v : Value) (name : String) : Option Value :=
  if name = "__class__" then some (classOf s v)
  else if Method.has s v name then some (.method v name)
  else
    match v with
    | .comparison _ operand ofLength op value =>
      (comparisonAttributes operand ofLength op value).get? name
    | .range b => (boundsAttributes b).get? name
    | .node id => (s.get? id).bind (·.attribute? name)
    | .regex r => (regexAttributes r).get? name
    | .int n => (intAttributes n).get? name
    | .bool b => (intAttributes (if b then 1 else 0)).get? name
    | .float x => Entries.get? [("real", .float x), ("imag", .float (.zero false))] name
    | .type t => typeAttribute? t name
    | .nodeClass c =>
      if Method.ofClass c name then some (.classMethod c name) else (classAttributes c).get? name
    | .builtin f => if name = "__name__" then some (.text f) else none
    | _ => none

/-- An attribute that a value keeps. -/
def keptAttribute (v : Value) (name : String) : Build Value := do
  let s ← store
  match plainAttribute? s v name with
  | some part => pure part
  | none => fail (s.missing v name)

/-- `v.name`. To read a length takes a number, be it that of an operand or of data. -/
def attr (v : Value) (name : String) : Build Value :=
  match v with
  | .recorder id path => recorderAttribute id path name
  | .operand _ ofLength =>
    if name = "length" then if ofLength then refuse .notAComparison else operand true
    else if name = "of_length" then pure (.bool ofLength)
    else if name = "__class__" then pure (.type (.basic "_Operand"))
    else if Method.comparisons.any (·.1 = name) then pure (.method v name)
    else failOn (fun type => .noAttribute ("'" ++ type ++ "' object") name) v
  | .sized n =>
    if name = "length" then do
      let _ ← fresh
      return .int n
    else keptAttribute v name
  | v => keptAttribute v name

/-! ## Items -/

/-- Makes sure that a value can be a key. -/
def checkKey (key : Value) : Build Unit :=
  match key.unhashable? with
  | some v => failOn .unhashable v
  | none => pure ()

/-- The bytes that are kept as characters. -/
def byteValues (s : String) : List Value := s.toList.map fun c => .int c.toNat

/-- The element at a position, negative ones counted from the end. -/
def at? {α : Type} (xs : List α) (index : Int) : Option α :=
  let position := if index < 0 then index + xs.length else index
  if position < 0 then none else xs[position.toNat]?

/-- No sequence has as many elements. -/
def countLimit : Nat := Nat.pow 2 63

/-- Whether a number is small enough to count the elements of a sequence, from either end. -/
def isCount (n : Int) : Bool := -(countLimit : Int) ≤ n && n < countLimit

/-- The element at a position of a sequence. -/
def itemAt (owner : String) (xs : List Value) (key : Value) : Build Value :=
  match key.toInt? with
  | none => failOn (.badIndex owner) key
  | some index =>
    match at? xs index with
    | some x => pure x
    | none => fail (if isCount index then .outOfRange owner else .positionTooLarge)

/-- The fault of a key that is missing. -/
def absentKey (s : Store) (key : Value) : Fault :=
  match s.valueDetail key with
  | .ok shown => .missingKey shown
  | .error _ => .hiddenKey

/-- The value of a mapping under a key. -/
def lookup (entries : Entries Value Value) (key : Value) : Build Value := do
  checkKey key
  match entries.get? key with
  | some x => pure x
  | none => fail (absentKey (← store) key)

/-- `v[key]`. To read a part by its name takes a number, be it a part of a recorder or of a mapping. -/
def item (v key : Value) : Build Value :=
  match v with
  | .recorder _ path =>
    match key with
    | .text name => recorder (path ++ [.text name])
    | key => do refuse (.pathKey (← typeName key))
  | .list _ xs => itemAt "list" xs key
  | .tuple xs => itemAt "tuple" xs key
  | .text s => itemAt "string" (s.toList.map fun c => .text (String.singleton c)) key
  | .bytes s => itemAt "byte" (byteValues s) key
  | .dict _ entries => do
    let _ ← fresh
    lookup entries key
  | .type t => fromStore fun s => Typing.subscript s t key
  | .nodeClass c => fail (.stated .type ("type '" ++ c.name ++ "' is not subscriptable"))
  | v => failOn .notSubscriptable v

/-- The part of a list from one position up to another, negative ones counted from the end. -/
def between {α : Type} (xs : List α) (start stop : Option Int) : List α :=
  let place (i : Int) : Nat := (if i < 0 then i + xs.length else i).toNat
  let first := (start.map place).getD 0
  let last := (stop.map place).getD xs.length
  (xs.take last).drop first

/-- `v[start:stop]` -/
def slice (v : Value) (start stop : Option Int) : Build Value :=
  match v with
  | .recorder .. => refuse (.pathKey "slice")
  | .list _ xs => list (between xs start stop)
  | .tuple xs => pure (.tuple (between xs start stop))
  | .text s => pure (.text (String.ofList (between s.toList start stop)))
  | .bytes s => pure (.bytes (String.ofList (between s.toList start stop)))
  | .dict .. => fail (.unhashable "slice")
  | .type _ | .nodeClass _ => do item v (.foreign (← fresh) "slice")
  | v => failOn .notSubscriptable v

/-! ## Elements -/

/-- The elements of what has the type of a collection that rules know nothing else about. -/
def foreignElements? (kind : String) : Option (List Value) :=
  if kind = "set" ∨ kind = "frozenset" then some [.int 1]
  else if kind = "bytearray" then some (byteValues "bytes")
  else if kind = "range" then some [.int 0]
  else none

/-- The elements of a value in order. -/
def elements (v : Value) : Build (List Value) :=
  match v with
  | .text s => pure (s.toList.map fun c => .text (String.singleton c))
  | .bytes s => pure (byteValues s)
  | .list _ xs => pure xs
  | .tuple xs => pure xs
  | .dict _ entries => pure (entries.map Prod.fst)
  | .recorder .. => refuse (.pathKey "int")
  | .foreign _ kind =>
    match foreignElements? kind with
    | some xs => pure xs
    | none => failOn .notIterable v
  | v => failOn .notIterable v

/-- How many elements a value has. -/
def length (v : Value) : Build Value :=
  match v with
  | .text s => pure (.int s.length)
  | .bytes s => pure (.int s.length)
  | .list _ xs => pure (.int xs.length)
  | .tuple xs => pure (.int xs.length)
  | .dict _ entries => pure (.int entries.length)
  | .foreign _ kind =>
    match foreignElements? kind with
    | some xs => pure (.int xs.length)
    | none => failOn .noLength v
  | v => failOn .noLength v

/-! ## Entries -/

/-- Entries that are given as pairs, put to those before them; `index` counts the pairs. -/
def pairEntries (index : Nat) (found : Entries Value Value) :
    List Value → Build (Entries Value Value)
  | [] => pure found
  | v :: vs => do
    match ← attempt (elements v) with
    | .error f => fail (if f.kind = .type then .entryShape index else f)
    | .ok [key, x] =>
      checkKey key
      pairEntries (index + 1) (found.set key x) vs
    | .ok xs => fail (.entryLength index xs.length)

/-- Entries that are given as a mapping or as pairs. -/
def entriesOf (v : Value) : Build (Entries Value Value) :=
  match v with
  | .dict _ entries => pure entries
  | .recorder .. => failOn .notCallable v
  | v => do pairEntries 0 [] (← elements v)

end DraftSchema.Build
