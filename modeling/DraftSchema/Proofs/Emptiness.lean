import DraftSchema.Proofs.Counting
import DraftSchema.Proofs.Uniform
import Mathlib.Algebra.Order.Archimedean.Basic

/-!
# Bounds that no length lies within

A length rule is refused when its upper bound alone allows no length. Whether a length lies between
two bounds is seen only from both of them, and that is not looked at: bounds that leave a gap without
whole numbers, or that stand the wrong way round, come to a least length above the greatest one. Of
the comparisons with a number, equality with a positive number that is not whole does this, and no
other.
-/

namespace DraftSchema

/-- The least length lies above the greatest one. -/
def LengthBounds.Crossed (b : LengthBounds) : Prop :=
  ∃ least most, b.least = some least ∧ b.most = some most ∧ most < least

/-- No length lies within bounds exactly when they are crossed. -/
theorem LengthBounds.admits_none_iff (b : LengthBounds) :
    (∀ n, b.admits n = false) ↔ b.Crossed := by
  obtain ⟨least, most⟩ := b
  constructor
  · intro h
    cases least with
    | none =>
      have hzero := h 0
      cases most <;> simp [admits] at hzero
    | some least =>
      have hleast := h least
      cases most with
      | none => simp [admits] at hleast
      | some most => exact ⟨least, most, rfl, rfl, by simpa [admits] using hleast⟩
  · rintro ⟨least, most, hleast, hmost, hlt⟩ n
    cases hleast
    cases hmost
    simp only [admits, Option.all_some, Bool.and_eq_false_iff, decide_eq_false_iff_not]
    omega

/-- Whether a number is not above the upper bound. -/
def Bounds.admitsBelow (b : Bounds Value) (q : Rat) : Bool :=
  b.max.limits (if b.maxExclusive.isTrue then .gt else .ge) q

theorem Bounds.admits_of_admitsBelow {b : Bounds Value} {q : Rat} (h : b.admitsBelow q = false) :
    b.admits q = false := by
  rw [admitsBelow] at h
  rw [admits, h, Bool.and_false]

namespace Length

open Build

variable {call : Caller} {v : Value} {w w₁ : Workspace} {b : Bounds Value}

/-! ## Three outcomes -/

/-- The lengths of a value are refused, since the greatest one would lie below zero. -/
def Refused (call : Caller) (v : Value) (w : Workspace) : Prop :=
  ∃ shown w₁, bounds call v w = .error (.refused (.negativeLength shown)) w₁

/-- The refusal has no text, since the greatest length has too many digits. -/
def Unworded (call : Caller) (v : Value) (w : Workspace) : Prop :=
  ∃ w₁, bounds call v w = .error (.tooManyDigits Whole.digitLimit none) w₁

/-- A value comes to lengths of which the least one lies above the greatest one. -/
def Crossing (call : Caller) (v : Value) (w : Workspace) : Prop :=
  ∃ lengths w₁, bounds call v w = .ok lengths w₁ ∧ lengths.Crossed

/-! ### Refusals without a text -/

theorem le_highest_add_one (q : Rat) (exclusive : Bool) : q ≤ highest q exclusive + 1 := by
  cases exclusive with
  | true =>
    have hceil := Rat.le_ceil (x := q)
    simpa [highest] using hceil
  | false =>
    have hfloor := Rat.lt_floor_add_one q
    push_cast at hfloor
    exact hfloor.le

theorem limit_le_of_text {n : Int} {f : Fault} (h : Whole.text n = .error f) :
    Whole.limit ≤ n.natAbs := by
  by_contra hlt
  rw [Whole.text, Whole.chars, if_pos (by omega)] at h
  cases h

/-- Only an upper bound far below zero has a greatest length that cannot be written. -/
theorem far_of_unworded {kindName : Value → String} (hmin : b.min.IsFinite) (hmax : b.max.IsFinite)
    (h : ofBounds kindName b = .error (.tooManyDigits Whole.digitLimit none)) :
    ∃ q, b.max.denote? = some (.exact q) ∧ q ≤ 1 - (Whole.limit : Rat) := by
  obtain ⟨least, hleast, -⟩ := least_exact kindName hmin b.minExclusive.isTrue
  rw [ofBounds, hleast] at h
  rcases hmax with hnull | ⟨q, hq⟩
  · rw [hnull] at h
    cases h
  · refine ⟨q, hq, ?_⟩
    rw [most_of_denote? kindName hq] at h
    split at h
    · rename_i hneg
      cases htext : Whole.text (highest q b.maxExclusive.isTrue) with
      | ok shown =>
        rw [htext] at h
        cases h
      | error f =>
        have hdigits := limit_le_of_text htext
        have hfar : highest q b.maxExclusive.isTrue + 1 ≤ 1 - (Whole.limit : Int) := by omega
        exact (le_highest_add_one q _).trans (by exact_mod_cast hfar)
    · cases h

/-! ### Bounds that are given -/

/-- Lengths are not made exactly where the upper bound alone allows none. -/
theorem outcome_of_finite (hb : Predicate.range call v w = .ok b w₁) (hmin : b.min.IsFinite)
    (hmax : b.max.IsFinite) :
    ((Refused call v w ∨ Unworded call v w) ∧ ∀ n : Nat, b.admitsBelow n = false) ∨
    ∃ lengths, bounds call v w = .ok lengths w₁ ∧ (∀ n : Nat, lengths.admits n = b.admits n) ∧
      ∃ n : Nat, b.admitsBelow n = true := by
  obtain ⟨least, hleast, hbelow⟩ := least_exact w₁.store.kindName hmin b.minExclusive.isTrue
  rcases most_exact w₁.store.kindName hmax b.maxExclusive.isTrue with
    ⟨most, hmost, habove⟩ | ⟨f, hmost, hnegative, hnone⟩
  · right
    have hmade : ofBounds w₁.store.kindName b = .ok ⟨least, most⟩ := by
      rw [ofBounds, hleast, hmost]
      rfl
    refine ⟨⟨least, most⟩, (bind_of_ok hb).trans (fromStore_of_ok hmade), fun n => ?_, 0, ?_⟩
    · rw [LengthBounds.admits, Bounds.admits, ← hbelow n, ← habove n]
    · rw [Bounds.admitsBelow, ← habove 0]
      simp
  · left
    have hmade : ofBounds w₁.store.kindName b = .error f := by
      rw [ofBounds, hleast, hmost]
      rfl
    have hbounds : bounds call v w = .error f w₁ := (bind_of_ok hb).trans (fromStore_of_error hmade)
    refine ⟨?_, hnone⟩
    rcases hnegative with ⟨shown, rfl⟩ | rfl
    · exact .inl ⟨shown, w₁, hbounds⟩
    · exact .inr ⟨w₁, hbounds⟩

/-- Bounds that no length lies within come to one of three outcomes, and no others do. They cross
where the upper bound alone allows a length. -/
theorem empty_iff (hb : Predicate.range call v w = .ok b w₁) (hmin : b.min.IsFinite)
    (hmax : b.max.IsFinite) :
    ((∀ n : Nat, b.admits n = false) ↔
      Refused call v w ∨ Unworded call v w ∨ Crossing call v w) ∧
    (Crossing call v w ↔
      (∀ n : Nat, b.admits n = false) ∧ ∃ n : Nat, b.admitsBelow n = true) ∧
    (Unworded call v w → ∃ q, b.max.denote? = some (.exact q) ∧ q ≤ 1 - (Whole.limit : Rat)) := by
  have hfar : Unworded call v w →
      ∃ q, b.max.denote? = some (.exact q) ∧ q ≤ 1 - (Whole.limit : Rat) := by
    rintro ⟨w₂, hunworded⟩
    have hbounds := (bind_of_ok hb).symm.trans hunworded
    cases hmade : ofBounds w₁.store.kindName b with
    | ok lengths => cases (fromStore_of_ok hmade).symm.trans hbounds
    | error f =>
      cases (fromStore_of_error hmade).symm.trans hbounds
      exact far_of_unworded hmin hmax hmade
  rcases outcome_of_finite hb hmin hmax with ⟨hrefused, hnone⟩ | ⟨lengths, hmade, hadmits, n, hn⟩
  · have hcrossing : ¬Crossing call v w := by
      rintro ⟨lengths, w₂, hmade, -⟩
      rcases hrefused with ⟨shown, w₃, hf⟩ | ⟨w₃, hf⟩ <;> cases hmade.symm.trans hf
    refine ⟨⟨fun _ => ?_, fun _ n => Bounds.admits_of_admitsBelow (hnone n)⟩, ?_, hfar⟩
    · rwa [← or_assoc, or_iff_left hcrossing]
    · refine iff_of_false hcrossing ?_
      rintro ⟨-, n, hn⟩
      rw [hnone n] at hn
      cases hn
  · have hrefused : ¬Refused call v w := by
      rintro ⟨shown, w₂, hf⟩
      cases hmade.symm.trans hf
    have hunworded : ¬Unworded call v w := by
      rintro ⟨w₂, hf⟩
      cases hmade.symm.trans hf
    have hcrossing : Crossing call v w ↔ ∀ n : Nat, b.admits n = false := by
      simp only [← hadmits, lengths.admits_none_iff]
      constructor
      · rintro ⟨lengths', w₂, hmade', hcrossed⟩
        cases hmade.symm.trans hmade'
        exact hcrossed
      · exact fun hcrossed => ⟨lengths, w₁, hmade, hcrossed⟩
    refine ⟨?_, ?_, hfar⟩
    · rw [or_iff_right hrefused, or_iff_right hunworded, hcrossing]
    · rw [hcrossing, and_iff_left ⟨n, hn⟩]

/-! ## Comparisons -/

section

variable {l : Literal} {c : Value} {q : Rat} {op : Relation}

/-- The bounds of a comparison with a finite number are the number or missing. -/
theorem bound_of_comparison {b : Bounds Value} {ofLength : Bool}
    (hb : Bounds.ofComparison? ofLength op c = some b) :
    (b.min = c ∨ b.min = .null) ∧ (b.max = c ∨ b.max = .null) := by
  cases op <;> cases hb <;> simp

/-- No natural number equals a positive number that is not whole. -/
theorem ne_natCast_iff : (∀ n : Nat, (n : Rat) ≠ q) ∧ 0 ≤ q ↔ 0 < q ∧ q.den ≠ 1 := by
  constructor
  · rintro ⟨hne, hq⟩
    refine ⟨lt_of_le_of_ne hq fun h => hne 0 (by simpa using h), fun hden => ?_⟩
    have hnum : (q.num : Rat) = q := Rat.den_eq_one_iff q |>.mp hden
    have hnonneg : 0 ≤ q.num := Rat.num_nonneg.mpr hq
    refine hne q.num.toNat ?_
    rw [← hnum]
    exact_mod_cast Int.toNat_of_nonneg (by simpa using hnonneg)
  · rintro ⟨hpos, hden⟩
    refine ⟨?_, hpos.le⟩
    rintro n rfl
    exact hden (Rat.den_natCast n)

/-- The upper bound of a comparison that holds for no length allows one exactly for an equality with a
positive number that is not whole. -/
theorem gap_of_comparison {b : Bounds Value} {ofLength : Bool}
    (hx : c.denote? = some (.exact q)) (hb : Bounds.ofComparison? ofLength op c = some b) :
    ((∀ n : Nat, op.holds n q = false) ∧ ∃ n : Nat, b.admitsBelow n = true) ↔
      op = .eq ∧ 0 < q ∧ q.den ≠ 1 := by
  have hlimits := limits_of_denote? hx
  cases op with
  | eq =>
    cases hb
    -- the upper bound allows a length if it allows zero
    have hbelow : (∃ n : Nat, Relation.ge.holds q n = true) ↔ 0 ≤ q := by
      constructor
      · rintro ⟨n, hn⟩
        have hle : (n : Rat) ≤ q := by simpa [Relation.holds] using hn
        exact n.cast_nonneg.trans hle
      · intro hq
        exact ⟨0, by simpa [Relation.holds] using hq⟩
    have hexact : ∀ n : Nat, Relation.eq.holds n q = false ↔ (n : Rat) ≠ q := by
      simp [Relation.holds]
    have hmost : (Value.bool false).isTrue = false := rfl
    simp only [Bounds.admitsBelow, hlimits, hmost, Bool.false_eq_true, if_false, hbelow, hexact,
      true_and]
    exact ne_natCast_iff
  | ne => cases hb
  | lt | le =>
    cases hb
    simp only [reduceCtorEq, false_and, iff_false, not_and, not_exists]
    intro hnone n
    have hn := hnone n
    rw [Bounds.admitsBelow, hlimits]
    simpa [Relation.holds, Value.isTrue, Value.truth] using hn
  | gt | ge =>
    cases hb
    simp only [reduceCtorEq, false_and, iff_false, not_and]
    intro hnone
    obtain ⟨n, hn⟩ := exists_nat_gt q
    have hle := hnone n
    simp only [Relation.holds, decide_eq_false_iff_not] at hle
    exact absurd hn (by linarith)

end

/-- Finite bounds that no length lies within come to lengths that are refused, or whose refusal cannot
be written, or that cross; all other finite bounds come to lengths that can be. For ranges both bounds
count. A comparison with a number crosses only if it is an equality with a positive number that is not
whole; all others that hold for no length are refused. -/
theorem bounds_empty_iff (w : Workspace) :
    (∀ (call : Caller) (b : Bounds Value), b.min.IsFinite → b.max.IsFinite →
      ((∀ n : Nat, b.admits n = false) ↔
        Refused call (.range b) w ∨ Unworded call (.range b) w ∨ Crossing call (.range b) w) ∧
      (Crossing call (.range b) w ↔
        (∀ n : Nat, b.admits n = false) ∧ ∃ n : Nat, b.admitsBelow n = true) ∧
      (Unworded call (.range b) w →
        ∃ q, b.max.denote? = some (.exact q) ∧ q ≤ 1 - (Whole.limit : Rat))) ∧
    ∀ (l : Literal) (c : Value) (q : Rat) (op : Relation), l.number? = some c →
      c.denote? = some (.exact q) → op ≠ .ne → ∀ body ∈ spellings op l, ∀ id : Nat,
      ((∀ n : Nat, op.holds n q = false) ↔ Refused Build.call (.function id body) w ∨
        Unworded Build.call (.function id body) w ∨ Crossing Build.call (.function id body) w) ∧
      (Crossing Build.call (.function id body) w ↔ op = .eq ∧ 0 < q ∧ q.den ≠ 1) ∧
      (Unworded Build.call (.function id body) w → q ≤ 1 - (Whole.limit : Rat)) := by
  constructor
  · intro call b hmin hmax
    exact empty_iff (v := .range b) rfl hmin hmax
  · intro l c q op hl hx hop body hbody id
    have hc := Literal.isBound_of_number? hl
    obtain ⟨ofLength, hspelling⟩ := run_spelling hl hx hbody
    obtain ⟨record, measured, next, hrun⟩ := hspelling id w.next { w with next := w.next + 1 }
    obtain ⟨b, hb, hadmits⟩ := Construction.exists_ofComparison? ofLength hc hx hop
    have hrange : Predicate.range Build.call (.function id body) w = .ok b { w with next } :=
      Predicate.bounds_of_record rfl hc hb hrun
    obtain ⟨hmin, hmax⟩ := bound_of_comparison hb
    have hfinite : ∀ v, v = c ∨ v = .null → v.IsFinite := by
      rintro v (rfl | rfl)
      · exact .inr ⟨q, hx⟩
      · exact .inl rfl
    obtain ⟨hempty, hcrossing, hfar⟩ := empty_iff hrange (hfinite _ hmin) (hfinite _ hmax)
    simp only [hadmits] at hempty hcrossing
    refine ⟨hempty, hcrossing.trans (gap_of_comparison hx hb), fun hunworded => ?_⟩
    obtain ⟨q', hq', hle⟩ := hfar hunworded
    rcases hmax with hmax | hmax
    · rw [hmax] at hq'
      cases hx.symm.trans hq'
      exact hle
    · rw [hmax] at hq'
      cases hq'

/-- At least five and at most three. -/
def fiveToThree : Bounds Value := ⟨.int 5, .int 3, .bool false, .bool false, .bool false⟩

theorem admits_fiveToThree (q : Rat) : fiveToThree.admits q = false := by
  have hfive := limits_of_denote? (v := .int 5) (q := 5) rfl .le q
  have hthree := limits_of_denote? (v := .int 3) (q := 3) rfl .ge q
  have hadmits : fiveToThree.admits q = (decide (5 ≤ q) && decide (q ≤ 3)) :=
    congrArg₂ (· && ·) hfive hthree
  rw [hadmits, Bool.and_eq_false_iff, decide_eq_false_iff_not, decide_eq_false_iff_not]
  by_cases hq : 5 ≤ q
  · exact .inr (by linarith)
  · exact .inl hq

theorem number?_float_half :
    (Literal.float "2.5").number? = some (.float (.ofRat false (5 / 2))) ∧
      (Value.float (.ofRat false (5 / 2))).denote? = some (.exact (5 / 2)) := by
  have hnumeral : Binary64.ofText? 0 "2.5" = some (.ofRat false (5 / 2)) := by decide +kernel
  have hdenote : (Binary64.ofRat false (5 / 2)).denote = .exact (5 / 2) := by decide +kernel
  exact ⟨congrArg (Option.map Value.float) hnumeral, congrArg some hdenote⟩

/-- Five against three, and a half between two and three. -/
theorem bounds_empty_iff_between :
    ∃ c, (Literal.float "2.5").number? = some c ∧ c.denote? = some (.exact (5 / 2)) ∧
      fiveToThree.min.IsFinite ∧ fiveToThree.max.IsFinite ∧
      Crossing Build.call (.range fiveToThree) {} ∧
      Crossing Build.call (.function 0 (.compare .eq .arg (.const (.float "2.5")))) {} := by
  obtain ⟨hl, hx⟩ := number?_float_half
  have hmin : fiveToThree.min.IsFinite := .inr ⟨5, rfl⟩
  have hmax : fiveToThree.max.IsFinite := .inr ⟨3, rfl⟩
  refine ⟨_, hl, hx, hmin, hmax, ?_, ?_⟩
  · obtain ⟨-, hcrossing, -⟩ := (bounds_empty_iff {}).1 Build.call fiveToThree hmin hmax
    exact hcrossing.mpr ⟨fun n => admits_fiveToThree n, 0, rfl⟩
  · obtain ⟨-, hcrossing, -⟩ :=
      (bounds_empty_iff {}).2 _ _ _ .eq hl hx (by decide) _ List.mem_cons_self 0
    exact hcrossing.mpr ⟨rfl, by norm_num, by decide +kernel⟩

/-- No length is two and a half, and none is at least five and at most three. Neither is refused. -/
theorem bounds_empty_unrefused :
    (∃ c w, (Literal.float "2.5").number? = some c ∧ c.denote? = some (.exact (5 / 2)) ∧
      (∀ n : Nat, Relation.eq.holds n (5 / 2) = false) ∧
      bounds Build.call (.function 0 (.compare .eq .arg (.const (.float "2.5")))) {}
        = .ok ⟨some 3, some 2⟩ w) ∧
    (∀ n : Nat, fiveToThree.admits n = false) ∧
      bounds Build.call (.range fiveToThree) {} = .ok ⟨some 5, some 3⟩ {} := by
  obtain ⟨hl, hx⟩ := number?_float_half
  refine ⟨⟨_, _, hl, hx, fun n => ?_, ok_of_result (by decide +kernel)⟩,
    fun n => admits_fiveToThree n, rfl⟩
  obtain ⟨hne, -⟩ := (ne_natCast_iff (q := 5 / 2)).mpr ⟨by norm_num, by decide +kernel⟩
  exact decide_eq_false (hne n)

end Length

end DraftSchema
