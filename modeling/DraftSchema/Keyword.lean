/-!
The vocabulary of Draft-04: keyword names, type names, and the formats a string rule may name.
-/
namespace DraftSchema

/-- The keywords that rules are written with. -/
inductive Keyword where
  | schema | type
  | minimum | maximum | exclusiveMinimum | exclusiveMaximum | multipleOf
  | minLength | maxLength | pattern | format
  | items | additionalItems | minItems | maxItems | uniqueItems
  | properties | additionalProperties | required
  | allOf | anyOf | oneOf | not
  | enum
  deriving DecidableEq, Repr

namespace Keyword

/-- The member name of a keyword in a document. -/
def text : Keyword → String
  | schema => "$schema"
  | type => "type"
  | minimum => "minimum"
  | maximum => "maximum"
  | exclusiveMinimum => "exclusiveMinimum"
  | exclusiveMaximum => "exclusiveMaximum"
  | multipleOf => "multipleOf"
  | minLength => "minLength"
  | maxLength => "maxLength"
  | pattern => "pattern"
  | format => "format"
  | items => "items"
  | additionalItems => "additionalItems"
  | minItems => "minItems"
  | maxItems => "maxItems"
  | uniqueItems => "uniqueItems"
  | properties => "properties"
  | additionalProperties => "additionalProperties"
  | required => "required"
  | allOf => "allOf"
  | anyOf => "anyOf"
  | oneOf => "oneOf"
  | not => "not"
  | enum => "enum"

end Keyword

/-- The identifier of the draft that every built document names. -/
def draft04 : String := "http://json-schema.org/draft-04/schema#"

/-- The formats a string rule may name. -/
def stringFormats : List String := ["date-time", "email", "hostname", "ipv4", "ipv6", "uri"]

/-- The version of this library. -/
def version : String := "1.0.0"

end DraftSchema
