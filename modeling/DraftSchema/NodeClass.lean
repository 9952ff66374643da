/-!
The classes of rules, and the parameters that rules of a class are made from. Each class takes its
first parameters by position as well as by name.
-/
namespace DraftSchema

/-- The classes of rules. -/
inductive NodeClass where
  | string | number | boolean | array | object
  | combinator | anyOf | oneOf | allOf
  | negation
  | schema | dictionary
  deriving DecidableEq, Repr, Inhabited

/-- What the parts of a rule are given by. -/
inductive Parameter where
  | length | format | pattern | minLength | maxLength | enum
  | value | multipleOf | minimum | maximum | exclusiveMinimum | exclusiveMaximum
  | minItems | maxItems | uniqueItems | items | additionalItems
  | properties | requiredProperties | additionalProperties
  | schemas | schema
  | model
  | required
  deriving DecidableEq, Repr

namespace NodeClass

/-- All classes. -/
def all : List NodeClass :=
  [string, number, boolean, array, object, combinator, anyOf, oneOf, allOf, negation, schema,
   dictionary]

/-- The name a class of rules is shown by. -/
def name : NodeClass → String
  | string => "StringSchema"
  | number => "NumberSchema"
  | boolean => "BooleanSchema"
  | array => "ArraySchema"
  | object => "ObjectSchema"
  | combinator => "Combinator"
  | anyOf => "AnyOf"
  | oneOf => "OneOf"
  | allOf => "AllOf"
  | negation => "Not"
  | schema => "Schema"
  | dictionary => "DictionarySchema"

/-- The place where a class of rules is shown to be declared. -/
def scope : NodeClass → String
  | string => "json_schema_builder.constraints.strings"
  | number => "json_schema_builder.constraints.numbers"
  | boolean => "json_schema_builder.constraints.booleans"
  | array => "json_schema_builder.constraints.arrays"
  | object => "json_schema_builder.constraints.objects"
  | combinator | anyOf | oneOf | allOf | negation => "json_schema_builder.constraints.logical"
  | schema | dictionary => "json_schema_builder.schema"

/-- The class under whose name a class is written as a document: its own, or the one that it has
this from. -/
def writerName : NodeClass → String
  | string | number | boolean | array | object => "TypeSchema"
  | combinator | anyOf | oneOf | allOf => "Combinator"
  | negation => "Not"
  | schema => "Schema"
  | dictionary => "DictionarySchema"

/-- The parameters of a class that may be given by position, in order. -/
def positional : NodeClass → List Parameter
  | .string => [.length]
  | .number => [.value]
  | .boolean => [.enum, .required]
  | .array => [.length]
  | .object => [.properties, .requiredProperties, .additionalProperties, .required]
  | .combinator | .anyOf | .oneOf | .allOf => [.schemas, .required]
  | .negation => [.schema, .required]
  | .schema | .dictionary => [.model]

end NodeClass

end DraftSchema
