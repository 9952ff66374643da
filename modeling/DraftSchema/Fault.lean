import DraftSchema.Operator

/-!
What can go wrong. A refusal is the library's own answer to a rule it cannot take; other faults
arise while the body of a function runs. Each cause is a constructor, with its wording in one
place.
-/
namespace DraftSchema

/-- The kinds of faults, of which some are cases of others. -/
inductive FaultKind where
  | type | attribute
  | lookup | key | hiddenKey | index
  | value | unicode
  | arithmetic | zeroDivision | overflow | floatingPoint
  | runtime | recursion | notImplemented
  | name | assertion | system | exhausted | memory
  | other (name : String)
  deriving DecidableEq, Repr, Inhabited

/-- Whether a fault of this kind only says that a function did more with its argument than a
recording of it allows: type, attribute, lookup, value and arithmetic faults. -/
def FaultKind.isRecoverable : FaultKind → Bool
  | .type | .attribute | .lookup | .key | .hiddenKey | .index | .value | .unicode
  | .arithmetic | .zeroDivision | .overflow | .floatingPoint => true
  | .runtime | .recursion | .notImplemented | .name | .assertion | .system | .exhausted
  | .memory | .other _ => false

/-- The codes of refusals. -/
inductive Code where
  | invalidSelector | invalidExpression | unsupportedType | propertyNotFound | pathConflict
  | unsupportedFormat
  deriving DecidableEq, Repr, Inhabited

namespace Code

/-- All codes, in order. -/
def all : List Code :=
  [invalidSelector, invalidExpression, unsupportedType, propertyNotFound, pathConflict,
   unsupportedFormat]

/-- The number of a code. -/
def number : Code → Nat
  | invalidSelector => 1
  | invalidExpression => 2
  | unsupportedType => 3
  | propertyNotFound => 4
  | pathConflict => 5
  | unsupportedFormat => 6

/-- The kind of fault that a refusal with this code also is. -/
def kind : Code → FaultKind
  | invalidSelector | invalidExpression | pathConflict | unsupportedFormat => .value
  | unsupportedType => .type
  | propertyNotFound => .lookup

/-- Whether the code belongs to what was read from a function: a path or a comparison. -/
def isReading : Code → Bool
  | invalidSelector | invalidExpression => true
  | _ => false

end Code

/-- Why a rule is refused. -/
inductive Refusal where
  /-- A selector did more than access properties; the detail is the fault it met. -/
  | notAPath (detail : Option String)
  /-- A selector used a key that is not a text. -/
  | pathKey (type : String)
  /-- An explicit path has an element that is not a text. -/
  | pathName (type : String)
  /-- Neither a function nor a path was given as selector. -/
  | notASelector (type : String)
  /-- A predicate is not one supported comparison. -/
  | notAComparison
  /-- A length rule has a negative maximum. -/
  | negativeLength (shown : String)
  /-- A raw value cannot become a rule. -/
  | unsupported (type : String)
  /-- A combinator was not given a list. -/
  | notAList (owner type : String)
  /-- A format is not one of the known ones. -/
  | unknownFormat (shown : String) (known : List String)
  /-- A property is not declared on the model's type. -/
  | undeclared (name owner pointer : String)
  /-- A path runs through something that cannot hold properties. -/
  | conflict (shown pointer : String)
  /-- A refusal stated in so many words. -/
  | stated (code : Code) (words : String) (pointer : Option String)
  deriving DecidableEq, Repr

namespace Refusal

def code : Refusal → Code
  | notAPath _ | pathKey _ | pathName _ | notASelector _ => .invalidSelector
  | notAComparison | negativeLength _ => .invalidExpression
  | unsupported _ | notAList .. => .unsupportedType
  | unknownFormat .. => .unsupportedFormat
  | undeclared .. => .propertyNotFound
  | conflict .. => .pathConflict
  | stated code _ _ => code

/-- The pointer to the property that was being built, if one is known. -/
def pointer? : Refusal → Option String
  | undeclared _ _ pointer => some pointer
  | conflict _ pointer => some pointer
  | stated _ _ pointer => pointer
  | _ => none

/-- The reason in words. -/
def message : Refusal → String
  | notAPath none => "Selector must be a plain property access chain"
  | notAPath (some detail) => "Selector must be a plain property access chain: " ++ detail
  | pathKey type => "Selector keys must be strings, got " ++ type
  | pathName type => "Property names must be strings, got " ++ type
  | notASelector type => "Unsupported selector '" ++ type ++ "'"
  | notAComparison => "Invalid expression"
  | negativeLength shown => "Length cannot be less than zero (maximum " ++ shown ++ ")"
  | unsupported type => "Unsupported type '" ++ type ++ "'"
  | notAList owner type => owner ++ " expects a list of schemas, got '" ++ type ++ "'"
  | unknownFormat shown known =>
    "Unsupported format '" ++ shown ++ "', expected one of: " ++ String.intercalate ", " known
  | undeclared name owner _ => "Property '" ++ name ++ "' could not be found on " ++ owner
  | conflict shown _ => "Cannot add properties to " ++ shown
  | stated _ words _ => words

/-- The whole text: the reason, after the pointer if one is known. -/
def text (r : Refusal) : String :=
  match r.pointer? with
  | some pointer => "Error at '" ++ pointer ++ "': " ++ r.message
  | none => r.message

end Refusal

/-- A fault met while rules are read, built or written. The texts in the constructors name types
and operators as they are shown. -/
inductive Fault where
  | refused (refusal : Refusal)
  | stated (kind : FaultKind) (words : String)
  /-- An operator has no meaning for its operands. -/
  | operands (operator : Arithmetic) (left right : String)
  /-- A sequence can only be joined to its like. -/
  | joined (owner : String) (verb : String) (type : String)
  /-- A sequence can only be repeated a whole number of times. -/
  | repeated (type : String)
  | unordered (operator : Relation) (left right : String)
  | negated (type : String)
  | absolute (type : String)
  | notCallable (type : String)
  | arity (name : String)
  /-- An operation of a class is called without the rule that it is for. -/
  | noOwner (operation : String)
  | noAttribute (owner name : String)
  /-- A name that is kept for protocols and not answered. -/
  | reserved (name : String)
  | noLength (type : String)
  | notIterable (type : String)
  | notContainer (type : String)
  | notText (type : String)
  | notSubscriptable (type : String)
  | badIndex (owner type : String)
  | outOfRange (owner : String)
  /-- A position is beyond every sequence. -/
  | positionTooLarge
  /-- A count is beyond every sequence. -/
  | countTooLarge
  /-- A repeated text is longer than a text can be. -/
  | repetitionTooLong (words : String)
  /-- There is no room for a result. -/
  | outOfMemory
  | missingKey (shown : String)
  /-- A key is missing that has no text, such as a number with too many digits. -/
  | hiddenKey
  | unhashable (type : String)
  /-- A divisor is zero, or the base of a negative power; `real` when an operand was not whole. -/
  | zeroDivisor (operator : Arithmetic) (real : Bool)
  /-- A whole number is beyond every floating-point number. -/
  | tooLargeToConvert
  /-- The quotient of whole numbers is beyond every floating-point number. -/
  | quotientTooLarge
  /-- A power is beyond every floating-point number. -/
  | powerTooLarge
  | nanToInteger
  | infinityToInteger
  | notReal (type : String)
  | noConversion (target type : String)
  | badNumeral (target shown : String)
  /-- A numeral has more digits than are written or read; what is read has `count` of them. -/
  | tooManyDigits (limit : Nat) (count : Option Nat)
  | noArguments (name : String)
  | noInstances (words : String)
  | notSerializable (type : String)
  /-- An element that should be an entry of a mapping has not two members. -/
  | entryLength (index length : Nat)
  /-- An element that should be an entry of a mapping has no members. -/
  | entryShape (index : Nat)
  | tooDeep
  deriving DecidableEq, Repr

namespace Fault

def kind : Fault → FaultKind
  | refused r => r.code.kind
  | stated kind _ => kind
  | operands .. | joined .. | repeated _ | unordered .. | negated _ | absolute _ | notCallable _
  | arity _ | noOwner _ | noLength _ | notIterable _ | notContainer _ | notText _ | notSubscriptable _
  | badIndex .. | unhashable _ | notReal _ | noConversion .. | noArguments _ | noInstances _
  | notSerializable _ | entryShape _ => .type
  | noAttribute .. | reserved _ => .attribute
  | outOfRange _ | positionTooLarge => .index
  | missingKey _ => .key
  | hiddenKey => .hiddenKey
  | zeroDivisor .. => .zeroDivision
  | tooLargeToConvert | quotientTooLarge | powerTooLarge | infinityToInteger | countTooLarge
  | repetitionTooLong _ => .overflow
  | outOfMemory => .memory
  | nanToInteger | badNumeral .. | tooManyDigits .. | entryLength .. => .value
  | tooDeep => .recursion

/-- The target's own name for what it can be made from. -/
def convertible (target : String) : String :=
  if target = "int" then "a string, a bytes-like object or a real number"
  else "a string or a real number"

/-- How a division by zero is worded. -/
def zeroDivisorText : Arithmetic → Bool → String
  | .div, false => "division by zero"
  | .div, true => "float division by zero"
  | .mod, false => "integer modulo by zero"
  | .mod, true => "float modulo"
  | .pow, _ => "0.0 cannot be raised to a negative power"
  | _, false => "integer division or modulo by zero"
  | _, true => "float floor division by zero"

def text : Fault → String
  | refused r => r.text
  | stated _ words => words
  | operands operator left right =>
    "unsupported operand type(s) for " ++ operator.symbol ++ ": '" ++ left ++ "' and '" ++ right ++ "'"
  | joined owner verb type =>
    "can only " ++ verb ++ " " ++ owner ++ " (not \"" ++ type ++ "\") to " ++ owner
  | repeated type => "can't multiply sequence by non-int of type '" ++ type ++ "'"
  | unordered operator left right =>
    "'" ++ operator.symbol ++ "' not supported between instances of '" ++ left ++ "' and '" ++ right
      ++ "'"
  | negated type => "bad operand type for unary -: '" ++ type ++ "'"
  | absolute type => "bad operand type for abs(): '" ++ type ++ "'"
  | notCallable type => "'" ++ type ++ "' object is not callable"
  | arity name => name ++ "() received an unsupported number of arguments"
  | noOwner operation => operation ++ "() missing 1 required positional argument: 'self'"
  | noAttribute owner name => owner ++ " has no attribute '" ++ name ++ "'"
  | reserved name => name
  | noLength type => "object of type '" ++ type ++ "' has no len()"
  | notIterable type => "'" ++ type ++ "' object is not iterable"
  | notContainer type => "argument of type '" ++ type ++ "' is not iterable"
  | notText type => "'in <string>' requires string as left operand, not " ++ type
  | notSubscriptable type => "'" ++ type ++ "' object is not subscriptable"
  | badIndex owner type =>
    if owner = "string" then "string indices must be integers, not '" ++ type ++ "'"
    else owner ++ " indices must be integers or slices, not " ++ type
  | outOfRange owner =>
    if owner = "byte" then "index out of range" else owner ++ " index out of range"
  | positionTooLarge | countTooLarge => "cannot fit 'int' into an index-sized integer"
  | repetitionTooLong words => words
  | outOfMemory => ""
  | missingKey shown => shown
  | hiddenKey => ""
  | unhashable type => "unhashable type: '" ++ type ++ "'"
  | zeroDivisor operator real => zeroDivisorText operator real
  | tooLargeToConvert => "int too large to convert to float"
  | quotientTooLarge => "integer division result too large for a float"
  | powerTooLarge => "(34, 'Numerical result out of range')"
  | nanToInteger => "cannot convert float NaN to integer"
  | infinityToInteger => "cannot convert float infinity to integer"
  | notReal type => "must be real number, not " ++ type
  | noConversion target type =>
    target ++ "() argument must be " ++ convertible target ++ ", not '" ++ type ++ "'"
  | badNumeral target shown =>
    if target = "int" then "invalid literal for int() with base 10: " ++ shown
    else "could not convert string to float: " ++ shown
  | tooManyDigits limit count =>
    "Exceeds the limit (" ++ toString limit ++ " digits) for integer string conversion"
      ++ (count.elim "" fun n => ": value has " ++ toString n ++ " digits")
      ++ "; use sys.set_int_max_str_digits() to increase the limit"
  | noArguments name => name ++ "() takes no arguments"
  | noInstances words => words
  | notSerializable type => "Object of type " ++ type ++ " is not JSON serializable"
  | entryLength index length =>
    "dictionary update sequence element #" ++ toString index ++ " has length "
      ++ toString length ++ "; 2 is required"
  | entryShape index =>
    "cannot convert dictionary update sequence element #" ++ toString index ++ " to a sequence"
  | tooDeep => "maximum recursion depth exceeded"

end Fault

end DraftSchema
