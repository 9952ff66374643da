import DraftSchema.Value

/-!
Lists and mappings as objects that may change. A value holds objects by their numbers; what changes
in one of them changes wherever it is held.
-/
namespace DraftSchema.Value

mutual

/-- The numbers of the lists and mappings in a document, as often as it holds them. Tuples do not
change, nor does what they hold. -/
def objects : Value → List Nat
  | .list id xs => id :: objectsOf xs
  | .dict id es => id :: objectsUnder es
  | _ => []

def objectsOf : List Value → List Nat
  | [] => []
  | x :: xs => x.objects ++ objectsOf xs

def objectsUnder : List (Value × Value) → List Nat
  | [] => []
  | (_, x) :: es => x.objects ++ objectsUnder es

end

mutual

/-- A value in which the lists and mappings are changed, each by its number and what it holds after
what it holds has changed. -/
def mapObjects (onList : Nat → List Value → List Value)
    (onDict : Nat → Entries Value Value → Entries Value Value) : Value → Value
  | .list id xs => .list id (onList id (mapAll onList onDict xs))
  | .tuple xs => .tuple (mapAll onList onDict xs)
  | .dict id es => .dict id (onDict id (mapUnder onList onDict es))
  | .range bounds => .range (mapBounds onList onDict bounds)
  | v => v

def mapAll (onList : Nat → List Value → List Value)
    (onDict : Nat → Entries Value Value → Entries Value Value) : List Value → List Value
  | [] => []
  | x :: xs => x.mapObjects onList onDict :: mapAll onList onDict xs

def mapUnder (onList : Nat → List Value → List Value)
    (onDict : Nat → Entries Value Value → Entries Value Value) :
    List (Value × Value) → List (Value × Value)
  | [] => []
  | (k, x) :: es => (k, x.mapObjects onList onDict) :: mapUnder onList onDict es

def mapBounds (onList : Nat → List Value → List Value)
    (onDict : Nat → Entries Value Value → Entries Value Value) : Bounds Value → Bounds Value
  | ⟨min, max, minExclusive, maxExclusive, ofLength⟩ =>
    ⟨min.mapObjects onList onDict, max.mapObjects onList onDict,
     minExclusive.mapObjects onList onDict, maxExclusive.mapObjects onList onDict,
     ofLength.mapObjects onList onDict⟩

end

end DraftSchema.Value
