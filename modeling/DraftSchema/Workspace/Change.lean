import DraftSchema.Value.Objects
import DraftSchema.Workspace

/-!
Changes of lists and mappings in a workspace. An object changes everywhere at once: in the rules
that hold it and in the variables.
-/
namespace DraftSchema

/-- A rule with a function applied to all the values in it. -/
def Rule.mapValues (f : Value → Value) : Rule → Rule
  | .string r => .string
      { format := r.format.map f, pattern := r.pattern.map f, minLength := r.minLength.map f
        maxLength := r.maxLength.map f, allowed := r.allowed.map (·.map f) }
  | .number r => .number
      { multipleOf := r.multipleOf.map f, minimum := r.minimum.map f, maximum := r.maximum.map f
        exclusiveMinimum := r.exclusiveMinimum.map f
        exclusiveMaximum := r.exclusiveMaximum.map f }
  | .boolean allowed => .boolean (allowed.map (·.map f))
  | .array r => .array
      { r with
        minItems := r.minItems.map f, maxItems := r.maxItems.map f
        uniqueItems := r.uniqueItems.map f, additionalItems := r.additionalItems.map f }
  | .object r => .object
      { r with
        model := f r.model, properties := r.properties.map fun e => (e.1, f e.2)
        required := r.required.map f, additional := r.additional.map f }
  | .combinator kind children => .combinator kind children
  | .negation child => .negation child

/-- The rules with a function applied to all the values in them. -/
def Store.mapValues (s : Store) (f : Value → Value) : Store :=
  ⟨s.nodes.map fun node => ⟨node.rule.mapValues f, f node.required⟩⟩

/-- A workspace with a function applied to all the values in it. -/
def Workspace.mapValues (w : Workspace) (f : Value → Value) : Workspace :=
  let vars := w.vars.map fun e => (e.1, { e.2 with value := f e.2.value })
  { w with store := w.store.mapValues f, vars }

namespace Build

/-- Changes the lists and mappings, each by its number and what it holds. -/
def change (onList : Nat → List Value → List Value)
    (onDict : Nat → Entries Value Value → Entries Value Value) : Build Unit := fun w =>
  .ok () (w.mapValues (Value.mapObjects onList onDict))

/-- Gives a list other elements. -/
def refill (id : Nat) (xs : List Value) : Build Unit :=
  change (fun i ys => if id ≠ 0 ∧ i = id then xs else ys) fun _ es => es

/-- Gives a mapping other entries. -/
def remap (id : Nat) (entries : Entries Value Value) : Build Unit :=
  change (fun _ xs => xs) fun i es => if id ≠ 0 ∧ i = id then entries else es

end Build

end DraftSchema
