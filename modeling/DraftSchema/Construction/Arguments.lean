import DraftSchema.Value

/-!
The arguments that rules are made from: values for parameters. Each class of rules takes its first
parameters by position as well as by name.
-/
namespace DraftSchema

/-- Given parts of a rule. -/
abbrev Arguments := List (Parameter × Value)

namespace Arguments

/-- The value given for a parameter. -/
def get? (args : Arguments) (p : Parameter) : Option Value :=
  (args.find? fun a => a.1 = p).map Prod.snd

/-- The value given for a parameter, if one that is present is given. -/
def present (args : Arguments) (p : Parameter) : Option Value := (args.get? p).bind Value.present

/-- Whether the rule is required: it is unless something else is said. -/
def required (args : Arguments) : Value := (args.get? .required).getD (.bool true)

/-- Arguments by position and by name, unless there are too many. -/
def ofPositional? (c : NodeClass) (values : List Value) (named : Arguments) : Option Arguments :=
  if values.length ≤ c.positional.length then some (c.positional.zip values ++ named) else none

end Arguments

end DraftSchema
