import DraftSchema.Operator

/-!
The exact values that numbers denote: rationals, the two infinities, and "not a number", which is
unordered and unequal to everything, itself included. Mixed comparisons of whole and floating
numbers are made here, so that they are exact.
-/
namespace DraftSchema

/-- What a number denotes exactly. -/
inductive Extended where
  | undefined
  | infinite (negative : Bool)
  | exact (q : Rat)
  deriving DecidableEq

namespace Extended

/-- A number strictly below another; nothing undefined is. -/
def less : Extended → Extended → Bool
  | .exact a, .exact b => a < b
  | .infinite true, .exact _ => true
  | .exact _, .infinite false => true
  | .infinite true, .infinite false => true
  | _, _ => false

/-- Equality of what is denoted; nothing undefined equals anything. -/
def same : Extended → Extended → Bool
  | .exact a, .exact b => a = b
  | .infinite a, .infinite b => a = b
  | _, _ => false

/-- The six comparisons on denoted numbers. -/
def holds : Relation → Extended → Extended → Bool
  | .lt, a, b => less a b
  | .le, a, b => less a b || same a b
  | .gt, a, b => less b a
  | .ge, a, b => less b a || same a b
  | .eq, a, b => same a b
  | .ne, a, b => !same a b

theorem holds_exact (r : Relation) (a b : Rat) :
    holds r (.exact a) (.exact b) = r.holds a b := by
  cases r <;> simp only [holds, less, same, Relation.holds, decide_not, ne_eq,
    ← Bool.decide_or]
  · exact decide_eq_decide.mpr Rat.le_iff_lt_or_eq.symm
  · exact decide_eq_decide.mpr ⟨fun h => Rat.le_iff_lt_or_eq.mpr (h.imp id Eq.symm),
      fun h => (Rat.le_iff_lt_or_eq.mp h).imp id Eq.symm⟩

end Extended

end DraftSchema
