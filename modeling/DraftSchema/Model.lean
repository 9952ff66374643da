import DraftSchema.Node.Path
import DraftSchema.Typing

/-!
Models: declared classes whose annotated fields say which properties a builder may have. A field's
annotation leads to the type that the next name of a path is looked up in. What a written annotation
means is given by a function `read`, which gives for a text the value that it stands for.
-/
namespace DraftSchema

/-- A declared class: itself and its bases by their numbers, each before its own bases, and the
annotations of its own fields. -/
structure Model where
  reference : ModelRef
  lineage : List Nat
  fields : Entries String Value

/-- The declared classes, by their numbers. -/
abbrev Catalog := List Model

namespace Catalog

/-- The declared class with a name, the latest one of several. -/
def model? (catalog : Catalog) (name : String) : Option Model :=
  catalog.reverse.find? fun m => m.reference.name = name

/-- The declared classes as far as names can tell them apart. -/
def withoutFields (catalog : Catalog) : Catalog := catalog.map fun m => { m with fields := [] }

/-! ## Bases in order -/

/-- The first head that stands in the tail of none of the lists. -/
def nextBase (lists : List (List Nat)) : Option Nat :=
  (lists.filterMap List.head?).find? fun h => lists.all fun l => !l.tail.contains h

/-- Merges lists so that each keeps its order, or gives what is left of them where that cannot be;
`fuel` bounds the length of the result. -/
def mergeBases : (fuel : Nat) → List (List Nat) → Except (List (List Nat)) (List Nat)
  | 0, _ => .ok []
  | fuel + 1, lists =>
    match nextBase lists with
    | none => if lists.all List.isEmpty then .ok [] else .error lists
    | some h => do
      let rest ← mergeBases fuel (lists.map fun l => if l.head? = some h then l.tail else l)
      return h :: rest

/-- The name of a declared class. -/
def nameOf (catalog : Catalog) (number : Nat) : String :=
  match catalog[number]? with
  | some m => m.reference.name
  | none => ""

/-- The fault of bases that cannot be put in order, with the lists that could not be merged. -/
def unordered (catalog : Catalog) (left : List (List Nat)) : Fault :=
  let heads := (left.filterMap List.head?).eraseDups
  .stated .type ("Cannot create a consistent method resolution\norder (MRO) for bases "
    ++ String.intercalate ", " (heads.map catalog.nameOf))

/-- The classes that a class with the given bases comes after, nearest first. -/
def lineageOf (catalog : Catalog) (bases : List Model) : Except Fault (List Nat) :=
  let numbers := bases.map fun m => m.reference.number
  let lists := bases.map (·.lineage) ++ [numbers]
  match mergeBases lists.flatten.length lists with
  | .ok ns => .ok ns
  | .error left => .error (catalog.unordered left)

/-- The first name that a list has twice. -/
def repeated? : List String → Option String
  | [] => none
  | n :: ns => if ns.contains n then some n else repeated? ns

/-- The catalog with one more class. Bases are the latest classes with their names. -/
def declare (catalog : Catalog) (scope name : String) (bases : List String)
    (fields : Entries String Value) : Except Fault Catalog := do
  let known ← bases.mapM fun b =>
    match catalog.model? b with
    | some m => Except.ok m
    | none => .error (.missingKey (Quoted.text b))
  if let some b := repeated? bases then throw (.stated .type ("duplicate base class " ++ b))
  let lineage ← catalog.lineageOf known
  let reference : ModelRef := { number := catalog.length, scope, name }
  let lineage := catalog.length :: lineage
  return catalog ++ [{ reference, lineage, fields := Entries.ofList fields }]

/-! ## Annotations -/

mutual

/-- The type with every text in it read and every note dropped. -/
def resolveType (s : Store) (read : String → Except Fault Value) :
    TypeForm Value → Except Fault (TypeForm Value)
  | .list t => do return .list (← resolveType s read t)
  | .dict k v => do
    let k ← resolveType s read k
    return .dict k (← resolveType s read v)
  | .generic name ts => do return .generic name (← resolveTypes s read ts)
  | .annotated t _ => resolveType s read t
  | .union barred ts => do
    let ts ← resolveTypes s read ts
    if barred then return Typing.union true ts else Typing.choice s ts
  | .reference text => do
    match ← read text with
    | .type t => return t
    | v => return .other v
  | .other (.text text) => do
    match ← read text with
    | .type t => return t
    | v => return .other v
  | .other v => .ok (.other v)
  | .basic name => .ok (.basic name)
  | .any => .ok .any
  | .model m => .ok (.model m)

def resolveTypes (s : Store) (read : String → Except Fault Value) :
    List (TypeForm Value) → Except Fault (List (TypeForm Value))
  | [] => .ok []
  | t :: ts => do
    let t ← resolveType s read t
    return t :: (← resolveTypes s read ts)

end

/-- What an annotation stands for. -/
def resolve (s : Store) (read : String → Except Fault Value) (hint : Value) : Except Fault Value :=
  match hint with
  | .null => .ok (.type .absent)
  | .text t => read t
  | .type t => .ofType <$> resolveType s read t
  | v => .ok v

/-- The fields with what their annotations stand for, added to those of the bases. -/
def resolveFields (s : Store) (read : String → Except Fault Value) :
    Entries String Value → Entries String Value → Except Fault (Entries String Value)
  | found, [] => .ok found
  | found, (name, hint) :: rest => do
    let v ← resolve s read hint
    resolveFields s read (found.set name v) rest

/-- The annotations of a class and its bases, the nearest last. -/
def inherited (catalog : Catalog) (m : Model) : Entries String Value :=
  (m.lineage.reverse.filterMap fun n => catalog[n]?).flatMap (·.fields)

/-- Whether a fault of reading annotations says that something in them is unknown. -/
def isUnknown (f : Fault) : Bool := f.kind = .name || f.kind = .type

/-- The fields that a type declares. Where something in their annotations is unknown, only a class's
own fields count, with their annotations as they are written. -/
def fields (catalog : Catalog) (s : Store) (read : String → Except Fault Value) (type : Value) :
    Except Fault (Entries String Value) :=
  match type with
  | .type (.model r) =>
    match catalog[r.number]? with
    | none => .ok []
    | some m =>
      match resolveFields s read [] (catalog.inherited m) with
      | .ok fields => .ok fields
      | .error f => if isUnknown f then .ok m.fields else .error f
  | _ => .ok []

/-- A choice of one type and nothing leads to that type. -/
def unwrap (hint : Value) : Value :=
  match hint with
  | .type t => (t.required?.map .ofType).getD hint
  | _ => hint

/-- Checks that each name of a path is declared on the type that the names before lead to. -/
def check (catalog : Catalog) (s : Store) (read : String → Except Fault Value)
    (label : Value → Except Fault String) :
    (seen : List Value) → (type : Value) → List Value → Except Fault Unit
  | _, _, [] => .ok ()
  | seen, type, name :: rest => do
    let fields ← catalog.fields s read type
    if let some f := s.unhashable? name then throw f
    let found := match name with
      | .text name => fields.get? name
      | _ => none
    match found with
    | some hint => catalog.check s read label (seen ++ [name]) (unwrap hint) rest
    | none => do
      let pointer ← s.pointer (seen ++ [name])
      throw (.refused (.undeclared (← s.valueText name) (← label type) pointer))

end Catalog

end DraftSchema
