/-!
The operators of expressions. Comparisons have a sign, a converse, and a meaning for
rationals; arithmetic has the signs that faults are worded with.
-/
namespace DraftSchema

/-- The six comparisons. -/
inductive Relation where
  | lt | le | gt | ge | eq | ne
  deriving DecidableEq, Repr, Inhabited

namespace Relation

/-- The sign a comparison is written with. -/
def symbol : Relation → String
  | .lt => "<"
  | .le => "<="
  | .gt => ">"
  | .ge => ">="
  | .eq => "=="
  | .ne => "!="

/-- The comparison that says the same with its two sides exchanged. -/
def converse : Relation → Relation
  | .lt => .gt
  | .le => .ge
  | .gt => .lt
  | .ge => .le
  | .eq => .eq
  | .ne => .ne

@[simp] theorem converse_converse (r : Relation) : r.converse.converse = r := by cases r <;> rfl

/-- Whether the comparison holds between two rationals. -/
def holds : Relation → Rat → Rat → Bool
  | .lt, a, b => a < b
  | .le, a, b => a ≤ b
  | .gt, a, b => b < a
  | .ge, a, b => b ≤ a
  | .eq, a, b => a = b
  | .ne, a, b => a ≠ b

theorem holds_converse (r : Relation) (a b : Rat) : r.converse.holds a b = r.holds b a := by
  cases r <;> simp [converse, holds, eq_comm]

end Relation

/-- The operations on two operands; `either` joins types to a choice. -/
inductive Arithmetic where
  | add | sub | mul | div | floorDiv | mod | pow | either
  deriving DecidableEq, Repr, Inhabited

/-- The sign of an operation in the text of a fault. -/
def Arithmetic.symbol : Arithmetic → String
  | .add => "+"
  | .sub => "-"
  | .mul => "*"
  | .div => "/"
  | .floorDiv => "//"
  | .mod => "%"
  | .pow => "** or pow()"
  | .either => "|"

end DraftSchema
