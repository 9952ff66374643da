import DraftSchema.Evaluation.Operation
import DraftSchema.Evaluation.TextMethod
import DraftSchema.Workspace.Change

/-!
The operations of lists, tuples and mappings. Those that change a list or a mapping change it
wherever it is held.
-/
namespace DraftSchema.Build

/-! ## Sequences -/

/-- Whether an element is a value, being the same or equal. -/
def isElement (v x : Value) : Build Bool :=
  if x == v then pure true else do truth (← compare .eq x v)

/-- How many elements are a value. -/
def countAmong (v : Value) : List Value → Build Nat
  | [] => pure 0
  | x :: xs => do
    let here ← isElement v x
    return (if here then 1 else 0) + (← countAmong v xs)

/-- The position of the first element that is a value. -/
def indexAmong (v : Value) : List Value → Build (Option Nat)
  | [] => pure none
  | x :: xs => do
    if ← isElement v x then return some 0 else return (← indexAmong v xs).map (· + 1)

/-- The position of a value in the chosen part of a sequence. -/
def indexOf (xs : List Value) (v : Value) (args : List Value) (absent : Build Fault) :
    Build Value := do
  let refused := Fault.stated .type "slice indices must be integers or have an __index__ method"
  let first ← positionOf xs.length 0 refused args[0]?
  let last ← positionOf xs.length xs.length refused args[1]?
  match ← indexAmong v ((xs.take last).drop first) with
  | some n => return .int (first + n)
  | none => fail (← absent)

/-- What an operation of a tuple gives. -/
def applyTuple (xs : List Value) (name : String) (args : List Value) : Build Value :=
  match name, args with
  | "count", [v] => do return .int (← countAmong v xs)
  | "index", v :: args =>
    indexOf xs v args (pure (.stated .value "tuple.index(x): x not in tuple"))
  | name, _ => fail (.arity name)

/-! ## Lists -/

/-- The elements that go on as a list begins: each below the one before it, or none. The first one
before them is `last`; what is left comes second. -/
def runAfter (s : Store) (falling : Bool) (last : Value) :
    List Value → Except Fault (List Value × List Value)
  | [] => .ok ([], [])
  | x :: xs => do
    if (← ordered s .lt x last) = falling then
      let (more, rest) ← runAfter s falling x xs
      return (x :: more, rest)
    else return ([], x :: xs)

/-- The place behind all sorted elements that are not above a value, looked for by halves between
two places; `fuel` bounds how often. -/
def placeAmong (s : Store) (xs : List Value) (v : Value) : (fuel first last : Nat) →
    Except Fault Nat
  | 0, first, _ => .ok first
  | fuel + 1, first, last =>
    if first < last then do
      let middle := first + (last - first) / 2
      let x := xs.getD middle .null
      if ← ordered s .lt v x then placeAmong s xs v fuel first middle
      else placeAmong s xs v fuel (middle + 1) last
    else .ok first

/-- Puts values among sorted ones. -/
def insertAll (s : Store) (sorted : List Value) : List Value → Except Fault (List Value)
  | [] => .ok sorted
  | v :: vs => do
    let n ← placeAmong s sorted v (sorted.length + 1) 0 sorted.length
    insertAll s (sorted.take n ++ v :: sorted.drop n) vs

/-- Values in order, equal ones as they came. What is in order at the front is left so, or turned
round, and the others are put among it. -/
def sorted (s : Store) : List Value → Except Fault (List Value)
  | x :: y :: rest => do
    let falling ← ordered s .lt y x
    let (more, rest) ← runAfter s falling y rest
    let run := x :: y :: more
    insertAll s (if falling then run.reverse else run) rest
  | xs => .ok xs

/-- Where a new element goes. -/
def slotOf (length : Nat) (index : Int) : Nat :=
  min (if index < 0 then index + length else index).toNat length

/-- Takes the element at a position out of a list. -/
def takeOut (id : Nat) (xs : List Value) (position : Option Value) : Build Value := do
  let index ← position.elim (pure (-1)) countOf
  if xs.isEmpty then fail (.stated .index "pop from empty list")
  match at? xs index with
  | none => fail (.stated .index "pop index out of range")
  | some v =>
    refill id (xs.eraseIdx (if index < 0 then index + xs.length else index).toNat)
    return v

/-- Changes the elements of a list. -/
def changed (id : Nat) (xs : List Value) : Build Value := do
  refill id xs
  return .null

/-- What an operation of a list gives. -/
def applyList (id : Nat) (xs : List Value) (name : String) (args : List Value) : Build Value :=
  match name, args with
  | "count", [v] => do return .int (← countAmong v xs)
  | "index", v :: args =>
    indexOf xs v args do
      let shown ← fromStore fun s => s.valueDetail v
      return .stated .value (shown ++ " is not in list")
  | "copy", [] => list xs
  | "append", [v] => changed id (xs ++ [v])
  | "extend", [v] => do changed id (xs ++ (← elements v))
  | "insert", [index, v] => do
    let n := slotOf xs.length (← countOf index)
    changed id (xs.take n ++ v :: xs.drop n)
  | "pop", args => takeOut id xs args[0]?
  | "remove", [v] => do
    match ← indexAmong v xs with
    | some n => changed id (xs.eraseIdx n)
    | none => fail (.stated .value "list.remove(x): x not in list")
  | "reverse", [] => changed id xs.reverse
  | "clear", [] => changed id []
  | "sort", [] => do changed id (← fromStore fun s => sorted s xs)
  | name, _ => fail (.arity name)

/-! ## Mappings -/

/-- Changes the entries of a mapping. -/
def changedEntries (id : Nat) (entries : Entries Value Value) : Build Value := do
  remap id entries
  return .null

/-- Takes an entry out of a mapping. -/
def takeEntry (id : Nat) (entries : Entries Value Value) (key : Value) (absent : Option Value) :
    Build Value := do
  if !entries.isEmpty then checkKey key
  match entries.get? key, absent with
  | some v, _ =>
    remap id (entries.erase key)
    return v
  | none, some v => return v
  | none, none => fail (absentKey (← store) key)

/-- What an operation of a mapping gives. -/
def applyMapping (id : Nat) (entries : Entries Value Value) (name : String) (args : List Value) :
    Build Value :=
  match name, args with
  | "get", key :: args => do
    checkKey key
    return (entries.get? key).getD (args.head?.getD .null)
  | "keys", [] => list (entries.map Prod.fst)
  | "values", [] => list (entries.map Prod.snd)
  | "items", [] => list (entries.map fun e => .tuple [e.1, e.2])
  | "copy", [] => dict entries
  | "pop", key :: args => takeEntry id entries key args.head?
  | "popitem", [] =>
    match entries.getLast? with
    | none => fail (.missingKey (Quoted.text "popitem(): dictionary is empty"))
    | some (key, v) => do
      remap id entries.dropLast
      return .tuple [key, v]
  | "setdefault", key :: args => do
    checkKey key
    match entries.get? key with
    | some v => return v
    | none =>
      let v := args.head?.getD .null
      remap id (entries.set key v)
      return v
  | "update", [] => pure .null
  | "update", [v] => do
    let more ← entriesOf v
    changedEntries id (more.foldl (fun acc e => acc.set e.1 e.2) entries)
  | "clear", [] => changedEntries id []
  | "fromkeys", keys :: args => do
    let v := args.head?.getD .null
    let pairs := (← elements keys).map fun key => Value.tuple [key, v]
    dict (← pairEntries 0 [] pairs)
  | name, _ => fail (.arity name)

end DraftSchema.Build
