import DraftSchema.Evaluation.Call
import DraftSchema.Proofs.Output
import Mathlib.Data.Rat.Floor

/-!
# Lengths within bounds

A length is a natural number, so a bound that is exclusive or broken comes to the nearest whole number
inside it, and one below zero to zero. Lengths lie between these numbers exactly when they lie within
the bounds; where a greatest length is refused because it is below zero, none does.
-/

namespace DraftSchema

/-- There is no bound, or it is a finite number; truth values count as numbers. -/
def Value.IsFinite (v : Value) : Prop := v = .null ∨ ∃ q, v.denote? = some (.exact q)

theorem Value.present_of_denote? {v : Value} {x : Extended} (h : v.denote? = some x) :
    v.present = some v := by
  cases v <;> first | rfl | cases h

namespace Length

/-! ## Whole numbers inside a bound -/

/-- The least whole number that a lower bound allows. -/
theorem lowest_le_iff (q : Rat) (exclusive : Bool) (n : Int) :
    lowest q exclusive ≤ n ↔ (if exclusive then Relation.lt else .le).holds q n = true := by
  cases exclusive with
  | false =>
    have hceil : q.ceil ≤ n ↔ q ≤ n := Rat.ceil_le_iff
    simpa [lowest, Relation.holds] using hceil
  | true =>
    have hfloor : q.floor < n ↔ q < n := Rat.floor_lt_iff
    simpa [lowest, Relation.holds, Int.add_one_le_iff] using hfloor

/-- The greatest whole number that an upper bound allows. -/
theorem le_highest_iff (q : Rat) (exclusive : Bool) (n : Int) :
    n ≤ highest q exclusive ↔ (if exclusive then Relation.gt else .ge).holds q n = true := by
  cases exclusive with
  | false =>
    have hfloor : n ≤ q.floor ↔ n ≤ q := Rat.le_floor_iff
    simpa [highest, Relation.holds] using hfloor
  | true =>
    have hceil : n < q.ceil ↔ n < q := Rat.lt_ceil_iff
    simpa [highest, Relation.holds, Int.le_sub_one_iff] using hceil

/-! ## One bound -/

variable {kindName : Value → String} {v : Value}

theorem exact_of_denote? {q : Rat} (h : v.denote? = some (.exact q)) : exact kindName v = .ok q := by
  rw [exact, h]

theorem limits_of_denote? {q : Rat} (h : v.denote? = some (.exact q)) (op : Relation) (x : Rat) :
    v.limits op x = op.holds q x := by
  rw [Value.limits, Value.present_of_denote? h]
  simp only [h, Extended.holds_exact]

/-- The least length that a lower bound allows stands for the bound. A bound below zero allows all
lengths, and so does the length zero. -/
theorem least_exact (kindName : Value → String) (hv : v.IsFinite) (exclusive : Bool) :
    ∃ o, least kindName v exclusive = .ok o ∧ ∀ n : Nat,
      (o.all fun least => decide (least ≤ n)) = v.limits (if exclusive then .lt else .le) n := by
  rcases hv with rfl | ⟨q, hq⟩
  · exact ⟨none, rfl, fun _ => rfl⟩
  · refine ⟨some (lowest q exclusive).toNat, ?_, fun n => ?_⟩
    · rw [least, Value.present_of_denote? hq]
      dsimp only
      rw [exact_of_denote? hq]
      rfl
    · rw [limits_of_denote? hq, Option.all_some, Bool.eq_iff_iff, decide_eq_true_iff,
        Int.toNat_le, lowest_le_iff]
      rfl

/-- What says that a greatest length lies below zero: a refusal, save where the length has too many
digits for the text of one. -/
def Negative (f : Fault) : Prop :=
  (∃ shown, f = .refused (.negativeLength shown)) ∨ f = .tooManyDigits Whole.digitLimit none

theorem most_of_denote? (kindName : Value → String) {q : Rat} (hq : v.denote? = some (.exact q))
    (exclusive : Bool) : most kindName v exclusive
      = if highest q exclusive < 0 then
          Whole.text (highest q exclusive) >>= fun shown => .error (.refused (.negativeLength shown))
        else .ok (some (highest q exclusive).toNat) := by
  rw [most, Value.present_of_denote? hq]
  dsimp only
  rw [exact_of_denote? hq]
  simp only [bind, Except.bind]
  split
  · cases Whole.text (highest q exclusive) <;> rfl
  · rfl

/-- The greatest length that an upper bound allows stands for the bound; if there is none, the bound
allows no length. -/
theorem most_exact (kindName : Value → String) (hv : v.IsFinite) (exclusive : Bool) :
    (∃ o, most kindName v exclusive = .ok o ∧ ∀ n : Nat,
      (o.all fun most => decide (n ≤ most)) = v.limits (if exclusive then .gt else .ge) n) ∨
    ∃ f, most kindName v exclusive = .error f ∧ Negative f ∧
      ∀ n : Nat, v.limits (if exclusive then .gt else .ge) n = false := by
  rcases hv with rfl | ⟨q, hq⟩
  · exact .inl ⟨none, rfl, fun _ => rfl⟩
  · have hlimits : ∀ n : Nat, v.limits (if exclusive then .gt else .ge) n = true ↔
        (n : Int) ≤ highest q exclusive := by
      intro n
      rw [limits_of_denote? hq, le_highest_iff]
      rfl
    rw [most_of_denote? kindName hq]
    by_cases hlow : highest q exclusive < 0
    · right
      rw [if_pos hlow]
      have hnone : ∀ n : Nat, v.limits (if exclusive then .gt else .ge) n = false := by
        intro n
        rw [← Bool.not_eq_true, hlimits]
        omega
      unfold Whole.text Whole.chars
      split
      · exact ⟨_, rfl, .inl ⟨_, rfl⟩, hnone⟩
      · exact ⟨_, rfl, .inr rfl, hnone⟩
    · left
      rw [if_neg hlow]
      refine ⟨_, rfl, fun n => ?_⟩
      rw [Option.all_some, Bool.eq_iff_iff, decide_eq_true_iff, hlimits]
      omega

/-! ## Both bounds -/

/-- Lengths that are made from finite bounds admit what the bounds admit; if none can be made, the
bounds admit nothing. -/
theorem ofBounds_exact (kindName : Value → String) {b : Bounds Value} (hmin : b.min.IsFinite)
    (hmax : b.max.IsFinite) :
    (∃ lengths, ofBounds kindName b = .ok lengths ∧ ∀ n : Nat, lengths.admits n = b.admits n) ∨
    ∃ f, ofBounds kindName b = .error f ∧ Negative f ∧ ∀ n : Nat, b.admits n = false := by
  obtain ⟨least, hleast, hbelow⟩ := least_exact kindName hmin b.minExclusive.isTrue
  rcases most_exact kindName hmax b.maxExclusive.isTrue with
    ⟨most, hmost, habove⟩ | ⟨f, hmost, hnegative, hnone⟩
  · refine .inl ⟨⟨least, most⟩, ?_, fun n => ?_⟩
    · rw [ofBounds, hleast, hmost]
      rfl
    · rw [LengthBounds.admits, Bounds.admits, ← hbelow n, ← habove n]
  · refine .inr ⟨f, ?_, hnegative, fun n => ?_⟩
    · rw [ofBounds, hleast, hmost]
      rfl
    · rw [Bounds.admits, hnone n, Bool.and_false]

open Build

/-- A rule for texts and one for arrays that are made from a length alone have its lengths, or meet its
fault. -/
theorem rules_of_length (call : Caller) {v : Value} (hv : v.present = some v) (w : Workspace) :
    Construction.stringRule call [(.length, v)] w = (do
      let b ← bounds call v
      return { StringRule.any with
        minLength := lengthValue b.least, maxLength := lengthValue b.most } : Build StringRule) w ∧
    Construction.arrayRule call [(.length, v)] w = (ArrayRule.ofLengths <$> bounds call v) w := by
  have hgiven : Arguments.present [(.length, v)] .length = some v := hv
  constructor
  · unfold Construction.stringRule
    rw [hgiven]
    rfl
  · unfold Construction.arrayRule
    rw [hgiven]
    rfl

/-- The lengths that finite bounds come to, given as such or by a predicate, admit exactly the natural
numbers that the bounds admit, and rules for texts and arrays are made with them. If there are no such
lengths because the greatest one would lie below zero, the bounds admit no natural number. -/
theorem bounds_exact {call : Caller} {v : Value} {w w₁ : Workspace} {b : Bounds Value}
    (hb : Predicate.range call v w = .ok b w₁) (hmin : b.min.IsFinite) (hmax : b.max.IsFinite) :
    (∃ lengths, bounds call v w = .ok lengths w₁ ∧ (∀ n : Nat, lengths.admits n = b.admits n) ∧
      Construction.stringRule call [(.length, v)] w = .ok { StringRule.any with
        minLength := lengthValue lengths.least, maxLength := lengthValue lengths.most } w₁ ∧
      Construction.arrayRule call [(.length, v)] w = .ok (.ofLengths lengths) w₁) ∨
    ∃ f, bounds call v w = .error f w₁ ∧ Negative f ∧ (∀ n : Nat, b.admits n = false) ∧
      Construction.stringRule call [(.length, v)] w = .error f w₁ ∧
      Construction.arrayRule call [(.length, v)] w = .error f w₁ := by
  have hv : v.present = some v := by
    cases v <;> first | rfl | cases hb
  obtain ⟨hstring, harray⟩ := rules_of_length call hv w
  rw [hstring, harray]
  rcases ofBounds_exact w₁.store.kindName hmin hmax with
    ⟨lengths, hlengths, hadmits⟩ | ⟨f, hf, hnegative, hnone⟩
  · have hbounds : bounds call v w = .ok lengths w₁ :=
      (bind_of_ok hb).trans (fromStore_of_ok hlengths)
    exact .inl ⟨lengths, hbounds, hadmits, bind_of_ok hbounds, bind_of_ok hbounds⟩
  · have hbounds : bounds call v w = .error f w₁ := (bind_of_ok hb).trans (fromStore_of_error hf)
    exact .inr ⟨f, hbounds, hnegative, hnone, bind_of_error hbounds, bind_of_error hbounds⟩

/-- Above minus one and a half and below seven: at most six, and nothing else. -/
theorem bounds_exact_below_seven :
    ∃ b : Bounds Value, b.min.denote? = some (.exact (-3 / 2)) ∧ b.max = .int 7 ∧
      Predicate.range Build.call (.range b) {} = .ok b {} ∧ b.min.IsFinite ∧ b.max.IsFinite ∧
      bounds Build.call (.range b) {} = .ok ⟨some 0, some 6⟩ {} ∧
      ∀ n : Nat, LengthBounds.admits ⟨some 0, some 6⟩ n = b.admits n := by
  have hdenote : (Value.float (.ofRat false (-3 / 2))).denote? = some (.exact (-3 / 2)) := by
    decide +kernel
  let b : Bounds Value :=
    ⟨.float (.ofRat false (-3 / 2)), .int 7, .bool true, .bool true, .bool false⟩
  have hmin : b.min.IsFinite := .inr ⟨_, hdenote⟩
  have hmax : b.max.IsFinite := .inr ⟨7, rfl⟩
  have hresult : (bounds Build.call (.range b)).result {} = .ok ⟨some 0, some 6⟩ := by
    decide +kernel
  have hlengths := ok_of_result hresult
  refine ⟨b, hdenote, rfl, rfl, hmin, hmax, ?_⟩
  rcases @bounds_exact Build.call (.range b) {} {} b rfl hmin hmax with
    ⟨lengths, hbounds, hadmits, -⟩ | ⟨f, hbounds, -⟩
  · obtain ⟨rfl, -⟩ := EStateM.Result.ok.inj (hlengths.symm.trans hbounds)
    exact ⟨hbounds, hadmits⟩
  · cases hlengths.symm.trans hbounds

end Length

end DraftSchema
