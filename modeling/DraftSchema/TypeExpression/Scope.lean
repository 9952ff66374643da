import DraftSchema.Model

/-!
What the names in written annotations stand for: the declared classes, what every scope has of its
own, and the built-in classes and functions, each of these hiding the later ones.
-/
namespace DraftSchema.TypeExpression

/-- The built-in classes. -/
def builtinClasses : List String :=
  ["ArithmeticError", "AssertionError", "AttributeError", "BaseException", "BaseExceptionGroup",
   "BlockingIOError", "BrokenPipeError", "BufferError", "BytesWarning", "ChildProcessError",
   "ConnectionAbortedError", "ConnectionError", "ConnectionRefusedError",
   "ConnectionResetError", "DeprecationWarning", "EOFError", "EncodingWarning", "Exception",
   "ExceptionGroup", "FileExistsError", "FileNotFoundError", "FloatingPointError",
   "FutureWarning", "GeneratorExit", "ImportError", "ImportWarning", "IndentationError",
   "IndexError", "InterruptedError", "IsADirectoryError", "KeyError", "KeyboardInterrupt",
   "LookupError", "MemoryError", "ModuleNotFoundError", "NameError", "NotADirectoryError",
   "NotImplementedError", "OSError", "OverflowError", "PendingDeprecationWarning",
   "PermissionError", "ProcessLookupError", "RecursionError", "ReferenceError",
   "ResourceWarning", "RuntimeError", "RuntimeWarning", "StopAsyncIteration", "StopIteration",
   "SyntaxError", "SyntaxWarning", "SystemError", "SystemExit", "TabError", "TimeoutError",
   "TypeError", "UnboundLocalError", "UnicodeDecodeError", "UnicodeEncodeError",
   "UnicodeError", "UnicodeTranslateError", "UnicodeWarning", "UserWarning", "ValueError",
   "Warning", "ZeroDivisionError", "bool", "bytearray", "bytes", "classmethod", "complex",
   "dict", "enumerate", "filter", "float", "frozenset", "int", "list", "map", "memoryview",
   "object", "property", "range", "reversed", "set", "slice", "staticmethod", "str", "super",
   "tuple", "type", "zip"]

/-- The built-in functions. -/
def builtinFunctions : List String :=
  ["__build_class__", "__import__", "abs", "aiter", "all", "anext", "any", "ascii", "bin",
   "breakpoint", "callable", "chr", "compile", "delattr", "dir", "divmod", "eval", "exec",
   "format", "getattr", "globals", "hasattr", "hash", "hex", "id", "input", "isinstance",
   "issubclass", "iter", "len", "locals", "max", "min", "next", "oct", "open", "ord", "pow",
   "print", "repr", "round", "setattr", "sorted", "sum", "vars"]

/-- Other names of built-in classes. -/
def classAliases : List (String × String) :=
  [("EnvironmentError", "OSError"), ("IOError", "OSError")]

/-- What every scope has of its own: its name, and no words about itself. -/
def ofScope? (scope name : String) : Option Value :=
  if name = "__name__" ∨ name = "__module__" then some (.text scope)
  else if ["__doc__", "__loader__", "__package__", "__spec__"].contains name then some .null
  else none

/-- What is built in under a name. -/
def builtin? (name : String) : Option Value :=
  match classAliases.find? fun e => e.1 = name with
  | some (_, className) => some (.type (.basic className))
  | none =>
    if builtinClasses.contains name then some (.type (.basic name))
    else if builtinFunctions.contains name then some (.builtin name)
    else if name = "Ellipsis" then some (.foreign 0 "ellipsis")
    else if name = "NotImplemented" then some (.foreign 0 "NotImplementedType")
    else if name = "__debug__" then some (.bool true)
    else none

/-- The scope that classes are declared in. -/
def scopeOf (c : Catalog) : String := (c.head?.map fun m => m.reference.scope).getD ""

/-- What a name stands for. -/
def named (c : Catalog) (name : String) : Except Fault Value :=
  match c.model? name with
  | some m => .ok (.type (.model m.reference))
  | none =>
    match (ofScope? (scopeOf c) name).or (builtin? name) with
    | some v => .ok v
    | none => .error (.stated .name ("name '" ++ name ++ "' is not defined"))

end DraftSchema.TypeExpression
