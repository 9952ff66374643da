import DraftSchema.Keyword
import DraftSchema.Pattern
import DraftSchema.Value.Key
import DraftSchema.Value.Kind

/-!
What documents mean under Draft-04, as far as numbers and texts go. A bound holds for the numbers on
its side, and for itself unless it is said to be exclusive. A pattern holds for the texts it is found
in, and allowed values for themselves.
-/
namespace DraftSchema.Draft04

/-- The member of a document under a keyword. -/
def member? (document : Value) (k : Keyword) : Option Value :=
  match document with
  | .dict _ members => Entries.get? members (.text k.text)
  | _ => none

/-- The document found by following a path of properties. -/
def property? (document : Value) : List Value → Option Value
  | [] => some document
  | name :: rest =>
    match member? document .properties with
    | some (.dict _ properties) => (Entries.get? properties name).bind fun d => property? d rest
    | _ => none

/-- Whether a bound stands in a relation to a number; the strict relation is meant where the document
says that the bound is exclusive. A bound that is no number holds for nothing. -/
def boundHolds (document : Value) (bound exclusive : Keyword) (within strictly : Relation)
    (q : Rat) : Bool :=
  match member? document bound with
  | none => true
  | some v =>
    let op := match member? document exclusive with
      | some (.bool true) => strictly
      | _ => within
    match v.denote? with
    | some x => Extended.holds op x (.exact q)
    | none => false

/-- Whether the bounds of a document accept a number. -/
def acceptsNumber (document : Value) (q : Rat) : Bool :=
  boundHolds document .minimum .exclusiveMinimum .le .lt q
    && boundHolds document .maximum .exclusiveMaximum .ge .gt q

/-- Whether the type that a document names, if it names one, is that of texts. -/
def isForTexts (document : Value) : Bool :=
  (member? document .type).all (· == .text "string")

/-- Whether a bound of lengths stands in a relation to the length of a text. -/
def lengthHolds (document : Value) (bound : Keyword) (op : Relation) (text : String) : Bool :=
  (member? document bound).all fun v =>
    v.denote?.any fun x => Extended.holds op x (.exact text.length)

/-- Whether a value is among the allowed ones, if these are listed. -/
def isAllowed (document v : Value) : Bool :=
  match member? document .enum with
  | none => true
  | some (.list _ allowed) => allowed.any (· == v)
  | some _ => false

/-- Whether the pattern of a document, if it has one, is found in a text. It is not known of patterns
that are not for literals. -/
def patternHolds? (document : Value) (text : String) : Option Bool :=
  match member? document .pattern with
  | none => some true
  | some (.text pattern) => Pattern.search pattern text
  | some _ => none

/-- Whether a document accepts a text, as far as its pattern is known. -/
def acceptsText (document : Value) (text : String) : Option Bool :=
  (patternHolds? document text).map fun found =>
    isForTexts document && lengthHolds document .minLength .le text
      && lengthHolds document .maxLength .ge text && isAllowed document (.text text) && found

end DraftSchema.Draft04
