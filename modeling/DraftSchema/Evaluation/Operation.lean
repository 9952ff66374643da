import DraftSchema.Evaluation.Format
import DraftSchema.Number.Power

/-!
Operations on values: comparisons, arithmetic and membership. A comparison with the argument of a
predicate is recorded and not made; with the argument on the right its converse is recorded.
-/
namespace DraftSchema

/-- Whether an order of two things satisfies a comparison. -/
def Relation.admits : Relation → Ordering → Bool
  | .lt, o => o == .lt
  | .le, o => o != .gt
  | .gt, o => o == .gt
  | .ge, o => o != .lt
  | .eq, o => o == .eq
  | .ne, o => o != .eq

namespace Build

/-! ## Comparison -/

mutual

/-- Whether an order holds between two values: numbers by what they denote, texts character by
character, sequences by their first difference. -/
def ordered (s : Store) (op : Relation) : Value → Value → Except Fault Bool
  | .text a, .text b => .ok (op.admits (compare a b))
  | .bytes a, .bytes b => .ok (op.admits (compare a b))
  | .list _ as, .list _ bs => orderedAll s op as bs
  | .tuple as, .tuple bs => orderedAll s op as bs
  | a, b =>
    match a.denote?, b.denote? with
    | some x, some y => .ok (Extended.holds op x y)
    | _, _ => .error (.unordered op (s.kindName a) (s.kindName b))

def orderedAll (s : Store) (op : Relation) : List Value → List Value → Except Fault Bool
  | a :: as, b :: bs => do
    let equal ← if a == b then .ok true else s.equal a b
    if equal then orderedAll s op as bs else ordered s op a b
  | as, bs => .ok (op.admits (compare as.length bs.length))

end

/-- A comparison of two values that are no operands. -/
def related (s : Store) (op : Relation) (a b : Value) : Except Fault Bool :=
  match op with
  | .eq => s.equal a b
  | .ne => (!·) <$> s.equal a b
  | op => ordered s op a b

/-- The comparison of an operand with a value, as a record. -/
def comparison (operand : Nat) (ofLength : Bool) (op : Relation) (value : Value) :
    Build Value := do
  return .comparison (← fresh) operand ofLength op value

/-- `a op b` -/
def compare (op : Relation) (a b : Value) : Build Value :=
  match a, b with
  | .operand id ofLength, b => comparison id ofLength op b
  | a, .operand id ofLength => comparison id ofLength op.converse a
  | a, b => do return .bool (← fromStore fun s => related s op a b)

/-! ## Membership -/

/-- Whether a list holds a value: elements are compared with it from the first on. -/
def among (v : Value) : List Value → Build Bool
  | [] => pure false
  | x :: xs => do
    let here ← if x == v then pure true else do truth (← compare .eq x v)
    if here then pure true else among v xs

/-- Whether one list of characters stands inside another. -/
def isInfix (part : List Char) : List Char → Bool
  | [] => part.isEmpty
  | c :: cs => part.isPrefixOf (c :: cs) || isInfix part cs

/-- Whether bytes hold other bytes, or a byte given by its number. -/
def bytesContain (s : String) (v : Value) : Build Bool :=
  match v, v.toInt? with
  | .bytes part, _ => pure (isInfix part.toList s.toList)
  | _, some n =>
    if 0 ≤ n ∧ n < 256 then pure (s.toList.any fun c => (c.toNat : Int) = n)
    else fail (.stated .value "byte must be in range(0, 256)")
  | v, none =>
    failOn (fun type => .stated .type ("a bytes-like object is required, not '" ++ type ++ "'")) v

/-- Whether something of a type that rules know nothing about holds a value. Sets only hold what can
be a key, but can be asked for sets. -/
def foreignContains (container : Value) (kind : String) (v : Value) : Build Bool :=
  match foreignElements? kind with
  | none => failOn .notContainer container
  | some xs =>
    if kind = "bytearray" then bytesContain "bytes" v
    else if kind = "range" then among v xs
    else
      match v with
      | .foreign _ "set" => pure false
      | v => do
        checkKey v
        among v xs

/-- `v in container` -/
def contains (v container : Value) : Build Bool :=
  match container with
  | .list _ xs => among v xs
  | .tuple xs => among v xs
  | .text s =>
    match v with
    | .text part => pure (isInfix part.toList s.toList)
    | v => failOn .notText v
  | .bytes s => bytesContain s v
  | .dict _ entries => do
    checkKey v
    return (Entries.get? entries v).isSome
  | .recorder .. => refuse (.pathKey "int")
  | .foreign _ kind => foreignContains container kind v
  | container => failOn .notContainer container

/-! ## Arithmetic -/

/-- A fault about the operands of an operation. -/
def failOperands (op : Arithmetic) (a b : Value) : Build Value := do
  fail (.operands op (← kindName a) (← kindName b))

/-- The largest exponent of a whole power that there is room for. -/
def powerLimit : Nat := Nat.pow 2 32

/-- A whole number to a natural power. -/
def wholePower (a : Int) (n : Nat) : Build Value :=
  if a.natAbs ≤ 1 then pure (.int (if n = 0 then 1 else if n % 2 = 0 then a * a else a))
  else if n ≤ powerLimit then pure (.int (Int.pow a n))
  else fail .outOfMemory

/-- A power of floating-point numbers, which may be no real number. -/
def floatPower (x y : Binary64) : Build Value :=
  match x.pow y with
  | .real z => float z
  | .divided => fail (.zeroDivisor .pow true)
  | .tooLarge => fail .powerTooLarge
  | .imaginary => do return .foreign (← fresh) "complex"
  | .imaginaryTooLarge => fail (.stated .overflow "complex exponentiation")

/-- The binary digits that either of two whole numbers has; a negative one has all but those of its
complement. -/
def eitherDigits (a b : Int) : Int :=
  match a, b with
  | .ofNat m, .ofNat n => .ofNat (m ||| n)
  | .negSucc m, .negSucc n => .negSucc (m &&& n)
  | .negSucc m, .ofNat n => .negSucc (m - (m &&& n))
  | .ofNat m, .negSucc n => .negSucc (n - (n &&& m))

/-- Arithmetic of whole numbers. Division gives the nearest floating-point number. -/
def wholeArithmetic (op : Arithmetic) (a b : Int) : Build Value :=
  match op with
  | .add => pure (.int (a + b))
  | .sub => pure (.int (a - b))
  | .mul => pure (.int (a * b))
  | .div =>
    if b = 0 then fail (.zeroDivisor .div false)
    else
      let x := Binary64.ofRat (decide (a < 0) != decide (b < 0)) ((a : Rat) / b)
      if x.isFinite then pure (.float x) else fail .quotientTooLarge
  | .floorDiv => if b = 0 then fail (.zeroDivisor .floorDiv false) else pure (.int (a.fdiv b))
  | .mod => if b = 0 then fail (.zeroDivisor .mod false) else pure (.int (a.fmod b))
  | .pow =>
    if 0 ≤ b then wholePower a b.toNat
    else
      match Binary64.ofInt? a, Binary64.ofInt? b with
      | some x, some y => floatPower x y
      | _, _ => fail .tooLargeToConvert
  | .either => pure (.int (eitherDigits a b))

/-- Arithmetic of floating-point numbers. -/
def floatArithmetic (op : Arithmetic) (x y : Binary64) : Build Value :=
  match op with
  | .add => float (x.add y)
  | .sub => float (x.sub y)
  | .mul => float (x.mul y)
  | .div => if y.isZero then fail (.zeroDivisor .div true) else float (x.div y)
  | .floorDiv => if y.isZero then fail (.zeroDivisor .floorDiv true) else float (x.floorDiv y)
  | .mod => if y.isZero then fail (.zeroDivisor .mod true) else float (x.floorMod y)
  | .pow => floatPower x y
  | .either => failOperands .either (.float x) (.float y)

/-- The floating-point number that a number is converted to. -/
def toFloat (v : Value) : Build (Option Binary64) :=
  match v with
  | .float x => pure (some x)
  | v =>
    match v.toInt? with
    | none => pure none
    | some n =>
      match Binary64.ofInt? n with
      | some x => pure (some x)
      | none => fail .tooLargeToConvert

/-- A sequence repeated. -/
def repeated {α : Type} (xs : List α) (count : Int) : List α :=
  if xs.isEmpty then [] else (List.replicate count.toNat xs).flatten

/-- A sequence times a count. -/
def times (v : Value) (count : Int) : Build Value :=
  match v with
  | .text s => pure (.text (String.ofList (repeated s.toList count)))
  | .bytes s => pure (.bytes (String.ofList (repeated s.toList count)))
  | .list _ xs => list (repeated xs count)
  | .tuple xs => pure (.tuple (repeated xs count))
  | v => failOperands .mul v (.int count)

/-- The greatest length of a repeated sequence that there is room for. -/
def roomLimit : Nat := Nat.pow 2 34

/-- The fault of a repetition that there is no room for. -/
def noRoom (v : Value) (length : Nat) : Fault :=
  if length < countLimit then .outOfMemory
  else
    match v with
    | .text _ => .repetitionTooLong "repeated string is too long"
    | .bytes _ => .repetitionTooLong "repeated bytes are too long"
    | _ => .outOfMemory

/-- How many elements a sequence has. -/
def sequenceLength : Value → Nat
  | .text s => s.length
  | .bytes s => s.length
  | .list _ xs => xs.length
  | .tuple xs => xs.length
  | _ => 0

/-- Whether a value is a sequence that can be joined and repeated. -/
def isSequence : Value → Bool
  | .text _ | .bytes _ | .list .. | .tuple _ => true
  | _ => false

/-- A product with a sequence on one side. -/
def product (a b : Value) : Build Value := do
  let (sequence, count) := if isSequence a then (a, b) else (b, a)
  if !isSequence sequence then failOperands .mul a b
  else
    match count.toInt? with
    | none => failOn .repeated count
    | some n =>
      let length := sequenceLength sequence * n.toNat
      if !isCount n then fail .countTooLarge
      else if roomLimit < length then fail (noRoom sequence length)
      else times sequence n

/-- A sum with a sequence on the left. -/
def join (a b : Value) : Build Value :=
  match a, b with
  | .text x, .text y => pure (.text (x ++ y))
  | .bytes x, .bytes y => pure (.bytes (x ++ y))
  | .list _ xs, .list _ ys => list (xs ++ ys)
  | .tuple xs, .tuple ys => pure (.tuple (xs ++ ys))
  | .text _, b => failOn (.joined "str" "concatenate") b
  | .list .., b => failOn (.joined "list" "concatenate") b
  | .tuple _, b => failOn (.joined "tuple" "concatenate") b
  | .bytes _, b => failOn (fun type => .stated .type ("can't concat " ++ type ++ " to bytes")) b
  | a, b => failOperands .add a b

/-- Bytes with their marks replaced; only bytes without marks are supported. -/
def formattedBytes (s : String) (v : Value) : Build Value :=
  match v with
  | .tuple [] => pure (.bytes s)
  | v =>
    if hasItems v && !(v matches .bytes _ | .foreign _ "bytearray") then pure (.bytes s)
    else fail (.stated .type "not all arguments converted during bytes formatting")

/-- The numbers with the digits of either, or the choice between two types. -/
def either (a b : Value) : Build Value :=
  match a, b with
  | .bool x, .bool y => pure (.bool (x || y))
  | a, b =>
    match a.toInt?, b.toInt? with
    | some m, some n => wholeArithmetic .either m n
    | _, _ => do
      match Typing.join? (← store) a b with
      | some choice => ofExcept choice
      | none => failOperands .either a b

/-- Arithmetic of numbers of which one at least is no whole number, and of what is no number. -/
def mixedArithmetic (op : Arithmetic) (a b : Value) : Build Value := do
  if a.denote?.isSome && b.denote?.isSome then
    match ← toFloat a, ← toFloat b with
    | some x, some y => floatArithmetic op x y
    | _, _ => failOperands op a b
  else
    match op, a with
    | .add, _ => join a b
    | .mul, _ => product a b
    | .mod, .text s => formatted s b
    | .mod, .bytes s => formattedBytes s b
    | _, _ => failOperands op a b

/-- `a op b` -/
def arithmetic (op : Arithmetic) (a b : Value) : Build Value :=
  match op with
  | .either => either a b
  | op =>
    match a.toInt?, b.toInt? with
    | some m, some n => wholeArithmetic op m n
    | _, _ => mixedArithmetic op a b

/-- `-v` -/
def negate (v : Value) : Build Value :=
  match v with
  | .float x => float x.neg
  | v =>
    match v.toInt? with
    | some n => pure (.int (-n))
    | none => failOn .negated v

/-- The distance from zero. -/
def absolute (v : Value) : Build Value :=
  match v with
  | .float x => float x.abs
  | v =>
    match v.toInt? with
    | some n => pure (.int n.natAbs)
    | none => failOn .absolute v

end Build

end DraftSchema
