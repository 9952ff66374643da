import DraftSchema.Construction.Arguments
import DraftSchema.Keyword
import DraftSchema.Length
import DraftSchema.Pattern

/-!
Making rules from arguments and from raw values. A raw value is compiled into the rule it stands
for: a text or pattern, a truth value, a number, a rule as it is, or the bounds of a predicate.
-/
namespace DraftSchema

/-- What a plain text stands for: the one allowed value, or a pattern that matches nothing else. -/
inductive LiteralMode where
  | enum | pattern
  deriving DecidableEq, Repr

/-- The names of the modes, in order. -/
def LiteralMode.names : List String := ["ENUM", "PATTERN"]

/-! ## Rules without rules inside -/

/-- A rule for texts that says nothing. -/
def StringRule.any : StringRule :=
  { format := none, pattern := none, minLength := none, maxLength := none, allowed := none }

/-- A rule for numbers that says nothing. -/
def NumberRule.any : NumberRule :=
  { multipleOf := none, minimum := none, maximum := none, exclusiveMinimum := none,
    exclusiveMaximum := none }

/-- A rule for arrays that says nothing. -/
def ArrayRule.any : ArrayRule :=
  { minItems := none, maxItems := none, uniqueItems := none, items := .free,
    additionalItems := none }

/-- The number that a length is written as. -/
def lengthValue (n : Option Nat) : Option Value := n.map fun n => .int n

/-- The rule for numbers within bounds. -/
def NumberRule.ofBounds (b : Bounds Value) : NumberRule :=
  { NumberRule.any with
    minimum := b.min.present
    maximum := b.max.present
    exclusiveMinimum := if b.minExclusive.isTrue then some (.bool true) else none
    exclusiveMaximum := if b.maxExclusive.isTrue then some (.bool true) else none }

/-- The rule with explicit parts in place of its own. -/
def NumberRule.override (r : NumberRule) (args : Arguments) : NumberRule :=
  { multipleOf := args.present .multipleOf
    minimum := args.present .minimum <|> r.minimum
    maximum := args.present .maximum <|> r.maximum
    exclusiveMinimum := args.present .exclusiveMinimum <|> r.exclusiveMinimum
    exclusiveMaximum := args.present .exclusiveMaximum <|> r.exclusiveMaximum }

/-- The rule for arrays with lengths within bounds. -/
def ArrayRule.ofLengths (b : LengthBounds) : ArrayRule :=
  { ArrayRule.any with minItems := lengthValue b.least, maxItems := lengthValue b.most }

namespace Construction

open Build

/-- A known format. -/
def checkFormat (format : Option Value) : Build Unit :=
  match format with
  | none => pure ()
  | some (.text name) =>
    if stringFormats.contains name then pure () else refuse (.unknownFormat name stringFormats)
  | some v => do refuse (.unknownFormat (← fromStore fun s => s.valueText v) stringFormats)

/-- The source of a pattern that is given as a text or compiled. -/
def patternSource (pattern : Option Value) : Build (Option Value) :=
  match pattern with
  | none => pure none
  | some (.text source) => pure (some (.text source))
  | some v => do return (← attr v "pattern").present

/-- The allowed values, if some are given. -/
def allowedValues (allowed : Option Value) : Build (Option (List Value)) :=
  match allowed with
  | none => pure none
  | some v => do return some (← elements v)

/-- The lengths that are given, if any are. -/
def lengths (call : Caller) (length : Option Value) : Build LengthBounds :=
  match length with
  | none => pure {}
  | some v => Length.bounds call v

/-- A rule for texts. -/
def stringRule (call : Caller) (args : Arguments) : Build StringRule := do
  let format := args.present .format
  checkFormat format
  let pattern ← patternSource (args.present .pattern)
  let allowed ← allowedValues (args.present .enum)
  let b ← lengths call (args.present .length)
  return {
    format, pattern, allowed
    minLength := args.present .minLength <|> lengthValue b.least
    maxLength := args.present .maxLength <|> lengthValue b.most }

/-- The rule for numbers that a predicate on them describes. -/
def numberRange (call : Caller) (v : Value) : Build NumberRule := do
  let b ← Predicate.range call v
  if ← truth b.ofLength then refuse .notAComparison
  return .ofBounds b

/-- A rule for numbers. -/
def numberRule (call : Caller) (args : Arguments) : Build NumberRule := do
  let r ← match args.present .value with
    | none => pure NumberRule.any
    | some v => numberRange call v
  return r.override args

/-! ## Compiling raw values -/

/-- The rule that a predicate describes: one for numbers, or for the length of arrays. -/
def ofPredicate (call : Caller) (predicate : Value) : Build Rule := do
  let b ← Predicate.bounds call predicate
  if b.ofLength.isTrue then
    return .array (.ofLengths (← Length.bounds call (.range b)))
  else return .number (.ofBounds b)

/-- The rule for a raw value that is no rule yet. -/
def ruleOf (call : Caller) (mode : LiteralMode) (v : Value) : Build Rule :=
  match v with
  | .regex r => do
    let source := if r.onBytes then Value.bytes r.source else .text r.source
    return .string { StringRule.any with pattern := ← patternSource (some source) }
  | .text s =>
    match mode with
    | .enum => pure (.string { StringRule.any with allowed := some [.text s] })
    | .pattern =>
      pure (.string { StringRule.any with pattern := some (.text (Pattern.exact s)) })
  | .bool b => pure (.boolean (some [.bool b]))
  | .int n =>
    pure (.number { NumberRule.any with minimum := some (.int n), maximum := some (.int n) })
  | .float x =>
    pure (.number { NumberRule.any with minimum := some (.float x), maximum := some (.float x) })
  | v =>
    if v.isCallable && !v.isClass then ofPredicate call v
    else do refuse (.unsupported (← typeName v))

/-- The rule that a raw value stands for; a rule stands for itself. -/
def compile (call : Caller) (mode : LiteralMode) (v : Value) : Build NodeId :=
  match v with
  | .node id => pure id
  | v => do alloc (← ruleOf call mode v) (.bool true)

/-- The rules that raw values stand for. -/
def compileAll (call : Caller) : List Value → Build (List NodeId)
  | [] => pure []
  | v :: vs => do
    let id ← compile call .enum v
    return id :: (← compileAll call vs)

/-! ## Rules with rules inside -/

/-- What the elements of an array must satisfy. -/
def itemsRule (call : Caller) (items : Option Value) : Build Items :=
  match items with
  | none => pure .free
  | some (.list _ vs) => do return .each (← compileAll call vs)
  | some (.tuple vs) => do return .each (← compileAll call vs)
  | some v => do return .every (← compile call .enum v)

/-- A rule for arrays. -/
def arrayRule (call : Caller) (args : Arguments) : Build ArrayRule := do
  let b ← lengths call (args.present .length)
  let items ← itemsRule call (args.present .items)
  return {
    minItems := args.present .minItems <|> lengthValue b.least
    maxItems := args.present .maxItems <|> lengthValue b.most
    uniqueItems := args.present .uniqueItems
    items
    additionalItems := args.present .additionalItems }

/-- The value, unless it counts as false. -/
def unlessFalse (v : Option Value) : Build (Option Value) :=
  match v with
  | none => pure none
  | some v => do return if ← truth v then some v else none

/-- Named values that are given as a mapping or as pairs. -/
def propertyEntries (properties : Option Value) : Build (Entries Value Value) := do
  match ← unlessFalse properties with
  | none => return []
  | some v => entriesOf v

/-- A list of names in which equal ones stand once. -/
def distinctNames (names : List Value) : List Value → Build (List Value)
  | [] => pure names
  | v :: vs => do
    if ← among v names then distinctNames names vs else distinctNames (names ++ [v]) vs

/-- The names that are listed as required. -/
def requiredNames (required : Option Value) : Build (List Value) := do
  match ← unlessFalse required with
  | none => return []
  | some v => distinctNames [] (← elements v)

/-- A rule for objects with everything given. -/
def objectRule (args : Arguments) : Build ObjectRule := do
  let properties ← propertyEntries (args.get? .properties)
  let required ← requiredNames (args.get? .requiredProperties)
  return {
    kind := .plain, model := .null, properties, required
    additional := args.present .additionalProperties }

/-- A builder without properties. -/
def builderRule (kind : ObjectKind) (args : Arguments) : ObjectRule :=
  { kind, model := (args.get? .model).getD .null, properties := [], required := []
    additional := args.present .additionalProperties }

/-- The rules of a combinator. -/
def children (call : Caller) (owner : NodeClass) (schemas : Option Value) : Build (List NodeId) :=
  match schemas with
  | some (.list _ vs) => compileAll call vs
  | some (.tuple vs) => compileAll call vs
  | some v => do refuse (.notAList owner.name (← typeName v))
  | none => fail (.arity owner.name)

/-- The rule of a negation. -/
def negated (call : Caller) (owner : NodeClass) (schema : Option Value) : Build NodeId :=
  match schema with
  | some v => compile call .enum v
  | none => fail (.arity owner.name)

/-- The rule of a class that the arguments describe. -/
def ruleFrom (call : Caller) (c : NodeClass) (args : Arguments) : Build Rule :=
  match c with
  | .string => .string <$> stringRule call args
  | .number => .number <$> numberRule call args
  | .boolean => .boolean <$> allowedValues (args.present .enum)
  | .array => .array <$> arrayRule call args
  | .object => .object <$> objectRule args
  | .schema => pure (.object (builderRule .schema args))
  | .dictionary => pure (.object (builderRule .dictionary args))
  | .combinator => .combinator .plain <$> children call c (args.get? .schemas)
  | .anyOf => .combinator .anyOf <$> children call c (args.get? .schemas)
  | .oneOf => .combinator .oneOf <$> children call c (args.get? .schemas)
  | .allOf => .combinator .allOf <$> children call c (args.get? .schemas)
  | .negation => .negation <$> negated call c (args.get? .schema)

/-- Makes a rule. -/
def construct (call : Caller) (c : NodeClass) (args : Arguments) : Build NodeId := do
  alloc (← ruleFrom call c args) args.required

end Construction

end DraftSchema
