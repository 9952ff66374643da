import DraftSchema.Fault
import DraftSchema.Node.Document

/-!
Loose equality. Numbers are equal by what they denote, truth values counting as numbers; mappings
whatever the order of their entries; lists element by element; rules by their documents. Elements
that are one and the same are equal even where equality would deny it.
-/
namespace DraftSchema

namespace Value

/-- Whether two values are one and the same thing, of a kind of which equality says otherwise, says
nothing, or takes a closer look: a number that is none, the argument of a predicate, or a rule. -/
def isSelf : Value → Value → Bool
  | .float (.nan a), .float (.nan b) => a = b
  | .operand a p, .operand b q => a = b && p = q
  | .node a, .node b => a = b
  | _, _ => false

/-- Whether a value is compared as a whole. -/
def isWhole : Value → Bool
  | .list .. | .tuple _ | .dict .. | .range _ | .node _ => false
  | _ => true

/-- Equality of values as wholes: of numbers by what they denote, of others as keys. The argument of a
predicate does not tell. -/
def equalWhole (a b : Value) : Except Fault Bool :=
  if a.isOperand || b.isOperand then .error (.refused .notAComparison)
  else
    match a.denote?, b.denote? with
    | some x, some y => .ok (x.same y)
    | none, none => .ok (a.isWhole && b.isWhole && a == b)
    | _, _ => .ok false

/-- Whether two answers are both yes; after any other answer the second one does not count. -/
@[macro_inline] def andAlso (here rest : Except Fault Bool) : Except Fault Bool :=
  match here with
  | .ok true => rest
  | answer => answer

mutual

/-- Equality of two values; `nodes` compares rules. -/
def equalWith (nodes : NodeId → NodeId → Except Fault Bool) : Value → Value → Except Fault Bool
  | .list _ as, .list _ bs => if as.length = bs.length then equalAll nodes as bs else .ok false
  | .tuple as, .tuple bs => if as.length = bs.length then equalAll nodes as bs else .ok false
  | .dict _ as, .dict _ bs =>
    if as.length = bs.length then equalEntries nodes as bs else .ok false
  | .range a, .range b => equalBounds nodes a b
  | .node a, .node b => nodes a b
  | a, b => equalWhole a b

/-- Equality of lists, the shorter one deciding how far. -/
def equalAll (nodes : NodeId → NodeId → Except Fault Bool) :
    List Value → List Value → Except Fault Bool
  | a :: as, b :: bs =>
    andAlso (if a.isSelf b then .ok true else a.equalWith nodes b) (equalAll nodes as bs)
  | _, _ => .ok true

/-- Whether every entry has an equal one under its name. -/
def equalEntries (nodes : NodeId → NodeId → Except Fault Bool) :
    List (Value × Value) → List (Value × Value) → Except Fault Bool
  | (k, a) :: as, bs =>
    match Entries.get? bs k with
    | some b =>
      andAlso (if a.isSelf b then .ok true else a.equalWith nodes b) (equalEntries nodes as bs)
    | none => .ok false
  | [], _ => .ok true

/-- Equality of bounds, part by part. -/
def equalBounds (nodes : NodeId → NodeId → Except Fault Bool) :
    Bounds Value → Bounds Value → Except Fault Bool
  | ⟨a, b, c, d, e⟩, ⟨a', b', c', d', e'⟩ =>
    andAlso (if a.isSelf a' then .ok true else a.equalWith nodes a') <|
    andAlso (if b.isSelf b' then .ok true else b.equalWith nodes b') <|
    andAlso (if c.isSelf c' then .ok true else c.equalWith nodes c') <|
    andAlso (if d.isSelf d' then .ok true else d.equalWith nodes d') <|
    andAlso (if e.isSelf e' then .ok true else e.equalWith nodes e') (.ok true)

end

end Value

namespace Store

/-- Equality of rules by their documents; `fuel` bounds how deep rules stand inside documents. -/
def equalNodes (s : Store) : (fuel : Nat) → NodeId → NodeId → Except Fault Bool
  | 0, _, _ => .error .tooDeep
  | fuel + 1, a, b => do
    let x ← s.document a
    let y ← s.document b
    x.equalWith (s.equalNodes fuel) y

/-- Loose equality of two values. -/
def equal (s : Store) (a b : Value) : Except Fault Bool :=
  a.equalWith (s.equalNodes (s.size + 1)) b

end Store

end DraftSchema
