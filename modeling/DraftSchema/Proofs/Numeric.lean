import DraftSchema.Construction
import DraftSchema.Draft04
import DraftSchema.Node.Document
import DraftSchema.Proofs.Extraction

/-!
# What rules for numbers mean

A comparison of the argument with a number goes a long way: it is recorded, with its converse if the
argument stands on the right; the record is read as bounds; the bounds become a rule; and the rule is
written with a keyword for each bound and one that says that the bound is exclusive. At the end
Draft-04 accepts exactly the numbers for which the comparison holds.
-/

namespace DraftSchema

/-! ## Numbers that are written down -/

/-- Whether a numeral is finite does not depend on what tells apart the ones that are no number. -/
theorem Binary64.ofText?_of_exact {payload : Nat} {text : String} {x : Binary64} {q : Rat}
    (h : ofText? payload text = some x) (hx : x.denote = .exact q) (payload' : Nat) :
    ofText? payload' text = some x := by
  unfold ofText? at h ⊢
  dsimp only at h ⊢
  split
  · rename_i hnan
    rw [if_pos hnan] at h
    cases h
    cases hx
  · rename_i hnan
    rw [if_neg hnan] at h
    exact h

/-- The number that a literal spells, truth values aside. -/
def Literal.number? : Literal → Option Value
  | .int n => some (.int n)
  | .whole numeral =>
    (Build.wholeNumeral (Quoted.text numeral) (Decimal.body numeral)).toOption.map .int
  | .float numeral => (Binary64.ofText? 0 numeral).map .float
  | _ => none

section

open Build

variable {l : Literal} {c : Value} {x : Rat}

/-- What is spelled out as a number can be a bound. -/
theorem Literal.isBound_of_number? (hl : l.number? = some c) : c.isBound = true := by
  cases l with
  | int n =>
    cases hl
    rfl
  | whole numeral =>
    obtain ⟨n, -, rfl⟩ := Option.map_eq_some_iff.mp hl
    rfl
  | float numeral =>
    obtain ⟨y, -, rfl⟩ := Option.map_eq_some_iff.mp hl
    rfl
  | _ => cases hl

/-- A literal that spells a finite number is built into it everywhere, and nothing is touched. -/
theorem Literal.build_of_number? (hl : l.number? = some c) (hx : c.denote? = some (.exact x))
    (call : Caller) (w : Workspace) : ∃ next, l.build call w = .ok c { w with next } := by
  cases l with
  | int n =>
    cases hl
    exact ⟨w.next, rfl⟩
  | whole numeral =>
    obtain ⟨n, hn, rfl⟩ := Option.map_eq_some_iff.mp hl
    have hnumeral : wholeNumeral (Quoted.text numeral) (Decimal.body numeral) = .ok n := by
      cases h : wholeNumeral (Quoted.text numeral) (Decimal.body numeral) with
      | ok m =>
        rw [h] at hn
        cases hn
        rfl
      | error f =>
        rw [h] at hn
        cases hn
    refine ⟨w.next, bind_eq_ok.mpr ⟨n, w, ?_, rfl⟩⟩
    rw [hnumeral]
    rfl
  | float numeral =>
    obtain ⟨y, hy, rfl⟩ := Option.map_eq_some_iff.mp hl
    refine ⟨w.next + 1, bind_eq_ok.mpr ⟨w.next, _, rfl, ?_⟩⟩
    rw [Binary64.ofText?_of_exact hy (Option.some.inj hx) w.next]
    rfl
  | _ => cases hl

end

/-! ## Documents of bounds -/

namespace Draft04

/-- A bound that is written as it is, with whether it is exclusive beside it, holds for the numbers
that it limits. -/
theorem boundHolds_eq_limits {document bound : Value} {k exclusive : Keyword} {strict : Bool}
    (hbound : member? document k = bound.present)
    (hexclusive : bound.present.isSome = true →
      member? document exclusive = if strict then some (.bool true) else none)
    (within strictly : Relation) (q : Rat) :
    boundHolds document k exclusive within strictly q
      = bound.limits (if strict then strictly else within) q := by
  rw [boundHolds, Value.limits, hbound]
  cases hpresent : bound.present with
  | none => rfl
  | some v =>
    rw [hexclusive (by rw [hpresent]; rfl)]
    cases strict with
    | true => cases hv : v.denote? <;> simp [hv]
    | false => cases hv : v.denote? <;> simp [hv]

/-- The members of the document of a rule for numbers within bounds. -/
theorem member?_ofBounds (b : Bounds Value) :
    let document := typedDocument "number" (NumberRule.ofBounds b).keywords
    (member? document .minimum = b.min.present ∧ member? document .maximum = b.max.present) ∧
    (b.min.present.isSome = true → member? document .exclusiveMinimum
      = if b.minExclusive.isTrue then some (.bool true) else none) ∧
    (b.max.present.isSome = true → member? document .exclusiveMaximum
      = if b.maxExclusive.isTrue then some (.bool true) else none) := by
  cases hmin : b.min.present <;> cases hmax : b.max.present <;>
    cases hbelow : b.minExclusive.isTrue <;> cases habove : b.maxExclusive.isTrue <;>
    simp [member?, typedDocument, Value.record, NumberRule.keywords, NumberRule.ofBounds,
      NumberRule.any, Keyword.member, Keyword.text, Entries.get?_cons, Value.text_beq_text, hmin,
      hmax, hbelow, habove]

/-- The document of a rule for numbers accepts exactly the numbers within its bounds. -/
theorem acceptsNumber_ofBounds (b : Bounds Value) (q : Rat) :
    acceptsNumber (typedDocument "number" (NumberRule.ofBounds b).keywords) q = b.admits q := by
  obtain ⟨⟨hmin, hmax⟩, hbelow, habove⟩ := member?_ofBounds b
  rw [acceptsNumber, boundHolds_eq_limits hmin hbelow, boundHolds_eq_limits hmax habove,
    Bounds.admits]

end Draft04

/-! ## From comparisons to documents -/

namespace Construction

open Build

/-- A raw value is compiled everywhere to a rule for numbers that is written as a document. -/
def IsNumber (call : Caller) (mode : LiteralMode) (v document : Value) : Prop :=
  ∀ w, ∃ node w' rule, compile call mode v w = .ok node w' ∧
    w'.store.get? node = some ⟨.number rule, .bool true⟩ ∧ w'.store.document node = .ok document

/-- A rule without rules inside, made from a raw value. -/
theorem isNumber_of_ruleOf {call : Caller} {mode : LiteralMode} {v : Value} {r : NumberRule}
    (hv : Store.isNode v = false) (h : ∀ w, ∃ w', ruleOf call mode v w = .ok (.number r) w') :
    IsNumber call mode v (typedDocument "number" r.keywords) := by
  intro w
  obtain ⟨w', hw'⟩ := h w
  have hcompile : compile call mode v
      = (ruleOf call mode v >>= fun rule => alloc rule (.bool true)) := by
    cases v <;> first | rfl | cases hv
  have hget := Store.get?_alloc_self w'.store ⟨.number r, .bool true⟩
  refine ⟨(w'.store.alloc ⟨.number r, .bool true⟩).2,
    { w' with store := (w'.store.alloc ⟨.number r, .bool true⟩).1 }, r, ?_, hget, ?_⟩
  · rw [hcompile]
    exact bind_eq_ok.mpr ⟨_, w', hw', rfl⟩
  · rw [Store.document, Store.documentWithin, hget]
    rfl

/-- A predicate that comes to the record of a comparison with a number describes a rule for numbers
with the bounds of the comparison. -/
theorem isNumber_of_record {mode : LiteralMode} {id : Nat} {body : Expression Literal}
    {op : Relation} {c : Value} {b : Bounds Value} (hc : c.isBound = true)
    (hb : Bounds.ofComparison? false op c = some b)
    (hrun : ∀ operand w, ∃ record next, Build.call (.function id body) [.operand operand false] w
      = .ok (.comparison record operand false op c) { w with next }) :
    IsNumber Build.call mode (.function id body)
      (typedDocument "number" (NumberRule.ofBounds b).keywords) := by
  refine isNumber_of_ruleOf rfl fun w => ?_
  obtain ⟨record, next, hrun⟩ := hrun w.next { w with next := w.next + 1 }
  have hbounds : Predicate.bounds Build.call (.function id body) w = .ok b { w with next } :=
    Predicate.bounds_of_record rfl hc hb hrun
  have hlength : b.ofLength.isTrue = false := by
    cases op <;> cases hb <;> rfl
  refine ⟨{ w with next }, bind_eq_ok.mpr ⟨b, _, hbounds, ?_⟩⟩
  rw [hlength]
  rfl

section

variable {l : Literal} {c : Value} {x : Rat}

/-- A comparison of the argument with a number is recorded as it stands. -/
theorem run_compare_left (hl : l.number? = some c) (hx : c.denote? = some (.exact x))
    (op : Relation) (id operand : Nat) (w : Workspace) :
    ∃ record next, Build.call (.function id (.compare op .arg (.const l))) [.operand operand false] w
      = .ok (.comparison record operand false op c) { w with next } := by
  obtain ⟨next, hbuild⟩ := Literal.build_of_number? hl hx (callWithin 299) w
  exact ⟨next, next + 1,
    bind_eq_ok.mpr ⟨.operand operand false, w, rfl, bind_eq_ok.mpr ⟨c, _, hbuild, rfl⟩⟩⟩

/-- A comparison of a number with the argument is recorded as its converse. -/
theorem run_compare_right (hl : l.number? = some c) (hx : c.denote? = some (.exact x))
    (op : Relation) (id operand : Nat) (w : Workspace) :
    ∃ record next, Build.call (.function id (.compare op (.const l) .arg)) [.operand operand false] w
      = .ok (.comparison record operand false op.converse c) { w with next } := by
  obtain ⟨next, hbuild⟩ := Literal.build_of_number? hl hx (callWithin 299) w
  have hc := (Predicate.denote?_of_isBound (Literal.isBound_of_number? hl)).1
  refine ⟨next, next + 1, ?_⟩
  refine bind_eq_ok.mpr ⟨c, _, hbuild, bind_eq_ok.mpr ⟨.operand operand false, _, rfl, ?_⟩⟩
  rw [compare_of_operand_right hc]
  rfl

/-- The bounds that a comparison with a number stands for. -/
theorem exists_ofComparison? (ofLength : Bool) (hc : c.isBound = true)
    (hx : c.denote? = some (.exact x)) {op : Relation} (hop : op ≠ .ne) :
    ∃ b, Bounds.ofComparison? ofLength op c = some b ∧ ∀ q, b.admits q = op.holds q x := by
  obtain ⟨b, hb⟩ : ∃ b, Bounds.ofComparison? ofLength op c = some b := by
    cases op <;> first | exact ⟨_, rfl⟩ | exact absurd rfl hop
  refine ⟨b, hb, fun q => ?_⟩
  have hresult : Predicate.ofResult? (.comparison 0 0 ofLength op c) = some b := by
    rw [Predicate.ofResult?, if_pos hc, hb]
  obtain ⟨-, -, y, hy, hadmits⟩ := Predicate.admits_of_ofResult? hresult q
  cases hx.symm.trans hy
  rw [hadmits, Extended.holds_exact]

/-- A number is compiled to the rule that equality with it describes. -/
theorem isNumber_of_number? (hl : l.number? = some c) {b : Bounds Value}
    (hb : Bounds.ofComparison? false .eq c = some b) (call : Caller) (mode : LiteralMode) :
    IsNumber call mode c (typedDocument "number" (NumberRule.ofBounds b).keywords) := by
  have hc := Literal.isBound_of_number? hl
  cases hb
  cases c with
  | int n => exact isNumber_of_ruleOf rfl fun w => ⟨w, rfl⟩
  | float y => exact isNumber_of_ruleOf rfl fun w => ⟨w, rfl⟩
  | _ => cases hc

/-- A comparison of the argument with a finite number, the argument being on either side, is compiled
to a rule for numbers whose document accepts exactly the numbers that the comparison holds for; the
two spellings have one document. That of an equality is also the document of the number itself. -/
theorem compile_comparison (hl : l.number? = some c) (hx : c.denote? = some (.exact x))
    {op : Relation} (hop : op ≠ .ne) :
    ∃ document,
      (∀ mode id,
        IsNumber Build.call mode (.function id (.compare op .arg (.const l))) document) ∧
      (∀ mode id,
        IsNumber Build.call mode (.function id (.compare op.converse (.const l) .arg)) document) ∧
      (∀ q, Draft04.acceptsNumber document q = op.holds q x ∧
        Draft04.acceptsNumber document q = op.converse.holds x q) ∧
      (op = .eq → ∀ mode, IsNumber Build.call mode c document) := by
  have hc := Literal.isBound_of_number? hl
  obtain ⟨b, hb, hadmits⟩ := exists_ofComparison? false hc hx hop
  refine ⟨typedDocument "number" (NumberRule.ofBounds b).keywords, fun mode id => ?_,
    fun mode id => ?_, fun q => ?_, fun heq mode => ?_⟩
  · exact isNumber_of_record hc hb (run_compare_left hl hx op id)
  · refine isNumber_of_record hc hb fun operand w => ?_
    have hrun := run_compare_right hl hx op.converse id operand w
    rwa [Relation.converse_converse] at hrun
  · rw [Draft04.acceptsNumber_ofBounds, hadmits, Relation.holds_converse]
    exact ⟨rfl, rfl⟩
  · subst heq
    exact isNumber_of_number? hl hb Build.call mode

/-- Numbers above one half: the bound is said to be exclusive, whichever side it is written on. -/
theorem compile_comparison_half :
    ∃ document,
      (∀ mode id, IsNumber Build.call mode
        (.function id (.compare .gt .arg (.const (.float "0.5")))) document) ∧
      (∀ mode id, IsNumber Build.call mode
        (.function id (.compare .lt (.const (.float "0.5")) .arg)) document) ∧
      (∀ q, Draft04.acceptsNumber document q = Relation.gt.holds q (1 / 2) ∧
        Draft04.acceptsNumber document q = Relation.lt.holds (1 / 2) q) ∧
      (Relation.gt = .eq → ∀ mode,
        IsNumber Build.call mode (.float (.ofRat false (1 / 2))) document) :=
  have hnumeral : Binary64.ofText? 0 "0.5" = some (.ofRat false (1 / 2)) := by decide +kernel
  have hhalf : (Binary64.ofRat false (1 / 2)).denote = .exact (1 / 2) := by decide +kernel
  have hl : (Literal.float "0.5").number? = some (.float (.ofRat false (1 / 2))) :=
    congrArg (Option.map Value.float) hnumeral
  have hx : (Value.float (.ofRat false (1 / 2))).denote? = some (.exact (1 / 2)) :=
    congrArg some hhalf
  compile_comparison hl hx (by decide)

end

end Construction

end DraftSchema
