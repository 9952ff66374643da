import DraftSchema.Workspace

/-!
Which operations a value has under which names. What they do when they are called is said where
calls are.
-/
namespace DraftSchema.Method

/-- The operations of everything that are kept in slots of a type. -/
def slots : List String :=
  ["__delattr__", "__eq__", "__ge__", "__getattribute__", "__gt__", "__hash__", "__le__", "__lt__",
   "__ne__", "__repr__", "__setattr__", "__str__"]

/-- Whether a recorder answers a name with an operation of its own. -/
def ofRecorder (name : String) : Bool :=
  Value.recorderMethods.contains name || Value.commonFunctions.contains name
    || slots.contains name

/-- The operations of builders. -/
def ofBuilders : List String := ["with_", "build", "json"]

/-- Whether rules of a class have an operation. -/
def ofClass (c : NodeClass) (name : String) : Bool :=
  match c with
  | .object => name = "to_dict" || name = "add_required"
  | .schema | .dictionary =>
    name = "to_dict" || name = "add_required" || ofBuilders.contains name
  | _ => name = "to_dict"

/-- The name of the class under which an operation of a class of rules is declared. -/
def ownerName (c : NodeClass) (name : String) : String :=
  if name = "to_dict" then c.writerName
  else if name = "add_required" then NodeClass.object.name
  else NodeClass.schema.name

/-! ## Operations of texts, collections and numbers -/

/-- How an operation is called: its name and how many arguments it takes. -/
structure Signature where
  name : String
  least : Nat := 0
  most : Nat := 0
  /-- Whether a wrong number of arguments is worded as taken, and not as expected. -/
  taken : Bool := false
  deriving DecidableEq, Repr

/-- So many things. -/
def counted (n : Nat) (thing : String) : String :=
  toString n ++ " " ++ thing ++ (if n = 1 then "" else "s")

/-- The fault of a wrong number of arguments for an operation of a type. -/
def Signature.mismatch (g : Signature) (owner : String) (given : Nat) : Fault :=
  let takes := if g.least = 0 ∧ g.most = 0 then some "no arguments"
    else if g.least = 1 ∧ g.most = 1 then some "exactly one argument"
    else none
  .stated .type <|
    match takes with
    | some what =>
      owner ++ "." ++ g.name ++ "() takes " ++ what ++ " (" ++ toString given ++ " given)"
    | none =>
      let (bound, n) := if given < g.least then ("at least ", g.least) else ("at most ", g.most)
      if g.taken then
        g.name ++ "() takes " ++ bound ++ counted n "argument"
          ++ " (" ++ toString given ++ " given)"
      else
        g.name ++ " expected " ++ (if g.least = g.most then "" else bound) ++ counted n "argument"
          ++ ", got " ++ toString given

/-- Operations that take no arguments. -/
def plain (names : List String) : List Signature := names.map fun name => { name }

/-- Operations that take one argument. -/
def single (names : List String) : List Signature :=
  names.map fun name => { name, least := 1, most := 1 }

/-- The operations of texts. -/
def ofTexts : List Signature :=
  plain ["capitalize", "casefold", "isalnum", "isalpha", "isascii", "isdecimal", "isdigit",
      "isidentifier", "islower", "isnumeric", "isprintable", "isspace", "istitle", "isupper",
      "lower", "swapcase", "title", "upper"]
    ++ single ["format_map", "join", "partition", "removeprefix", "removesuffix", "rpartition",
      "translate", "zfill"]
    ++ ["count", "endswith", "find", "index", "rfind", "rindex", "startswith"].map
      (fun name => ⟨name, 1, 3, true⟩)
    ++ ["lstrip", "rstrip", "strip"].map (fun name => ⟨name, 0, 1, false⟩)
    ++ ["center", "ljust", "rjust"].map (fun name => ⟨name, 1, 2, false⟩)
    ++ ["encode", "rsplit", "split"].map (fun name => ⟨name, 0, 2, true⟩)
    ++ [⟨"expandtabs", 0, 1, true⟩, ⟨"splitlines", 0, 1, true⟩, ⟨"replace", 2, 3, false⟩,
      ⟨"format", 0, countless, false⟩, ⟨"maketrans", 1, 3, false⟩]
where
  /-- More arguments than there ever are. -/
  countless : Nat := 1000000

/-- The operations of lists. -/
def ofLists : List Signature :=
  plain ["clear", "copy", "reverse", "sort"] ++ single ["append", "count", "extend", "remove"]
    ++ [⟨"index", 1, 3, false⟩, ⟨"insert", 2, 2, false⟩, ⟨"pop", 0, 1, false⟩]

/-- The operations of tuples. -/
def ofTuples : List Signature := single ["count"] ++ [⟨"index", 1, 3, false⟩]

/-- The operations of mappings. -/
def ofMappings : List Signature :=
  plain ["clear", "copy", "items", "keys", "popitem", "values"]
    ++ ["fromkeys", "get", "pop", "setdefault"].map (fun name => ⟨name, 1, 2, false⟩)
    ++ [⟨"update", 0, 1, false⟩]

/-- The operations of whole numbers. -/
def ofWholes : List Signature :=
  plain ["as_integer_ratio", "bit_count", "bit_length", "conjugate"]
    ++ [⟨"from_bytes", 1, 2, true⟩, ⟨"to_bytes", 0, 2, true⟩]

/-- The operations of floating-point numbers. -/
def ofReals : List Signature :=
  plain ["as_integer_ratio", "conjugate", "hex", "is_integer"] ++ single ["fromhex"]

/-- The operations that a type has under names of their own. -/
def named (type : String) : List Signature :=
  match type with
  | "str" => ofTexts
  | "list" => ofLists
  | "tuple" => ofTuples
  | "dict" => ofMappings
  | "int" | "bool" => ofWholes
  | "float" => ofReals
  | _ => []

/-- The operations behind signs that a type has as functions. -/
def functions (type : String) : List Signature :=
  match type with
  | "list" => single ["__getitem__"]
  | "dict" => single ["__contains__", "__getitem__"]
  | "int" | "bool" | "float" =>
    plain ["__ceil__", "__floor__", "__trunc__"] ++ [⟨"__round__", 0, 1, false⟩]
  | _ => []

/-- How an operation of a type is called, if it is not kept in a slot. -/
def signature? (type name : String) : Option Signature :=
  (named type ++ functions type).find? (·.name = name)

/-! ## Operations behind signs -/

/-- The operations that stand for arithmetic, with the operands in order and turned round. -/
def arithmetic : List (String × Arithmetic × String) :=
  [("__add__", .add, "__radd__"), ("__sub__", .sub, "__rsub__"), ("__mul__", .mul, "__rmul__"),
   ("__truediv__", .div, "__rtruediv__"), ("__floordiv__", .floorDiv, "__rfloordiv__"),
   ("__mod__", .mod, "__rmod__"), ("__pow__", .pow, "__rpow__"), ("__or__", .either, "__ror__")]

/-- The operations that stand for comparisons. -/
def comparisons : List (String × Relation) :=
  [("__lt__", .lt), ("__le__", .le), ("__eq__", .eq), ("__ne__", .ne), ("__gt__", .gt),
   ("__ge__", .ge)]

/-- The operations behind signs that whole and floating-point numbers have. -/
def ofNumbers : List String :=
  ["__abs__", "__add__", "__bool__", "__ceil__", "__divmod__", "__float__", "__floor__",
   "__floordiv__", "__getnewargs__", "__int__", "__mod__", "__mul__", "__neg__", "__pos__",
   "__pow__", "__radd__", "__rdivmod__", "__rfloordiv__", "__rmod__", "__rmul__", "__round__",
   "__rpow__", "__rsub__", "__rtruediv__", "__sub__", "__truediv__", "__trunc__"]

/-- The operations behind signs that only whole numbers have. -/
def ofWholesOnly : List String :=
  ["__and__", "__index__", "__invert__", "__lshift__", "__or__", "__rand__", "__rlshift__",
   "__ror__", "__rrshift__", "__rshift__", "__rxor__", "__xor__"]

/-- The operations behind signs that a type has besides those of everything. -/
def special (type : String) : List String :=
  match type with
  | "str" =>
    ["__add__", "__contains__", "__getitem__", "__getnewargs__", "__iter__", "__len__", "__mod__",
     "__mul__", "__rmod__", "__rmul__"]
  | "list" =>
    ["__add__", "__class_getitem__", "__contains__", "__delitem__", "__getitem__", "__iadd__",
     "__imul__", "__iter__", "__len__", "__mul__", "__reversed__", "__rmul__", "__setitem__"]
  | "tuple" =>
    ["__add__", "__class_getitem__", "__contains__", "__getitem__", "__getnewargs__", "__iter__",
     "__len__", "__mul__", "__rmul__"]
  | "dict" =>
    ["__class_getitem__", "__contains__", "__delitem__", "__getitem__", "__ior__", "__iter__",
     "__len__", "__or__", "__reversed__", "__ror__", "__setitem__"]
  | "int" | "bool" => ofNumbers ++ ofWholesOnly
  | "float" => ofNumbers ++ ["__getformat__"]
  | "NoneType" => ["__bool__"]
  | "function" | "builtin_function_or_method" => ["__call__"]
  | _ => []

/-- Whether something has no number by which it could be a key. -/
def hasNoHash (type : String) : Bool := type = "list" || type = "dict"

/-- Whether the values of a type have an operation. -/
def ofType (type : String) (name : String) : Bool :=
  (named type).any (·.name = name) || (special type).contains name
    || Value.commonFunctions.contains name || name = "__init__"
    || (slots.contains name && !(name = "__hash__" && hasNoHash type))

/-- The types of which all operations are known. -/
def knownTypes : List String :=
  ["str", "list", "tuple", "dict", "int", "bool", "float", "NoneType", "function",
   "builtin_function_or_method"]

/-- Whether a value has an operation. -/
def has (s : Store) (v : Value) (name : String) : Bool :=
  match v with
  | .node id =>
    match s.get? id with
    | some node => ofClass node.rule.nodeClass name || slots.contains name && name ≠ "__hash__"
    | none => false
  | .type (.basic type) =>
    (named type).any (·.name = name) || (special type).contains name
  | v =>
    let type := s.typeName v
    knownTypes.contains type && ofType type name

end DraftSchema.Method
