import DraftSchema.Proofs.Uniform

/-!
# Which predicates are accepted

A predicate is run on an operand once. Bodies that join comparisons of the argument by `and`, `or`,
`not` and a condition ask for the truth of a record on the way, whichever branch they take, and a
record has none. So of all such bodies, those that are one comparison with a number are accepted,
and the others are refused, all in the same words.
-/

namespace DraftSchema

open Build

/-! ## Bodies that join comparisons -/

/-- Whether a literal spells a number, a truth value, a text or nothing. -/
def Literal.isConstant : Literal → Bool
  | .null | .bool _ | .text _ => true
  | l => l.number?.isSome

namespace Expression

/-- Whether a body is the argument, its length, or a constant. -/
def isTerm : Expression Literal → Bool
  | .arg => true
  | .attr .arg name => name = "length"
  | .const l => l.isConstant
  | _ => false

/-- Whether a body is a number that is written down. -/
def isNumber : Expression Literal → Bool
  | .const l => l.number?.isSome
  | _ => false

/-- Whether a body joins comparisons of terms, each with the argument or its length on one side at
least. In a chain it is the first comparison that has it. -/
def joinsComparisons : Expression Literal → Bool
  | .compare _ left right => left.isTerm && right.isTerm && !(left.closed && right.closed)
  | .chain first _ middle _ last =>
    first.isTerm && middle.isTerm && last.isTerm && !(first.closed && middle.closed)
  | .and left right => left.joinsComparisons && right.joinsComparisons
  | .or left right => left.joinsComparisons && right.joinsComparisons
  | .not operand => operand.joinsComparisons
  | .cond test yes no =>
    test.joinsComparisons && yes.joinsComparisons && no.joinsComparisons
  | _ => false

/-- Whether a body is one comparison, other than an inequality, that has a number on one side and
the argument or its length on the other. -/
def isBounding : Expression Literal → Bool
  | .compare op left right =>
    op ≠ .ne && (!left.closed && right.isNumber || left.isNumber && !right.closed)
  | _ => false

end Expression

/-- Whether a numeral spells a number does not depend on what tells apart the ones that are no
number. -/
theorem Binary64.isSome_ofText? (payload payload' : Nat) (text : String) :
    (ofText? payload text).isSome = (ofText? payload' text).isSome := by
  unfold ofText?
  dsimp only
  split <;> rfl

namespace Predicate

/-! ## Terms -/

section

variable (call : Caller) (id : Nat)

/-- A constant is built everywhere, and nothing is touched. It can be a bound if it is a number. -/
theorem build_of_isConstant {l : Literal} (h : l.isConstant = true) (w : Workspace) :
    ∃ v next, l.build call w = .ok v { w with next } ∧ v.isOperand = false ∧
      v.isBound = l.number?.isSome := by
  cases l with
  | null | bool | text | int =>
    rw [Literal.build]
    exact ⟨_, w.next, rfl, rfl, rfl⟩
  | whole numeral =>
    obtain ⟨c, hc⟩ := Option.isSome_iff_exists.mp h
    have hnumber := hc
    rw [Literal.number?, Option.map_eq_some_iff] at hnumber
    obtain ⟨n, -, rfl⟩ := hnumber
    obtain ⟨next, hbuild⟩ := Literal.build_of_number? hc rfl call w
    exact ⟨_, next, hbuild, rfl, h.symm⟩
  | float numeral =>
    have hspelled : (Literal.float numeral).number?.isSome = true := h
    obtain ⟨c, hc⟩ := Option.isSome_iff_exists.mp hspelled
    rw [Literal.number?, Option.map_eq_some_iff] at hc
    obtain ⟨y, hy, -⟩ := hc
    have hsome : (Binary64.ofText? w.next numeral).isSome = true := by
      rw [Binary64.isSome_ofText? w.next 0, hy]
      rfl
    obtain ⟨x, hx⟩ := Option.isSome_iff_exists.mp hsome
    refine ⟨.float x, w.next + 1, bind_eq_ok.mpr ⟨w.next, _, rfl, ?_⟩, rfl, h.symm⟩
    rw [hx]
    rfl
  | _ => cases h

/-- On an operand a term comes to an operand or to a constant. -/
theorem run_of_isTerm {e : Expression Literal} (h : e.isTerm = true) (w : Workspace) :
    ∃ v next, evaluate (Literal.build call) call (.operand id false) e w
        = .ok v { w with next } ∧
      v.isOperand = !e.closed ∧ v.isBound = e.isNumber := by
  unfold Expression.isTerm at h
  split at h
  · exact ⟨.operand id false, w.next, rfl, rfl, rfl⟩
  · obtain rfl := of_decide_eq_true h
    exact ⟨.operand w.next true, w.next + 1, rfl, rfl, rfl⟩
  · obtain ⟨v, next, hbuild, hv⟩ := build_of_isConstant call h w
    exact ⟨v, next, by rw [evaluate, hbuild], hv⟩
  · cases h

/-! ## Comparisons -/

/-- A comparison with an operand is recorded. Bounds are read off the record if it is no inequality
and what the operand is compared with can be a bound. -/
theorem compare_of_isOperand {a b : Value} (h : (a.isOperand || b.isOperand) = true)
    (op : Relation) (w : Workspace) :
    ∃ record, compare op a b w = .ok record { w with next := w.next + 1 } ∧
      record.truth = .error .notAComparison ∧
      (ofResult? record).isSome
        = (op ≠ .ne && (a.isOperand && b.isBound || a.isBound && b.isOperand)) := by
  have hsome : ∀ (f : Bool) (op : Relation) (v : Value) (n id : Nat),
      (ofResult? (.comparison n id f op v)).isSome = (op ≠ .ne && v.isBound) := by
    intro f op v n id
    rw [ofResult?]
    cases v.isBound <;> cases op <;> rfl
  cases ha : a.isOperand with
  | true =>
    cases a with
    | operand id f =>
      refine ⟨_, rfl, rfl, ?_⟩
      rw [hsome, Bool.true_and]
      simp [Value.isBound]
    | _ => cases ha
  | false =>
    cases b with
    | operand id f =>
      refine ⟨_, by rw [compare_of_operand_right ha]; rfl, rfl, ?_⟩
      rw [hsome]
      cases op <;> simp [Relation.converse, Value.isOperand]
    | _ =>
      rw [ha] at h
      cases h

/-- A comparison of terms, one of which is not constant, is recorded. -/
theorem run_of_terms {left right : Expression Literal} (hl : left.isTerm = true)
    (hr : right.isTerm = true) (hopen : (!(left.closed && right.closed)) = true) (op : Relation)
    (w : Workspace) :
    ∃ a b record next₁ next₂ next₃,
      evaluate (Literal.build call) call (.operand id false) left w
        = .ok a { w with next := next₁ } ∧
      evaluate (Literal.build call) call (.operand id false) right { w with next := next₁ }
        = .ok b { w with next := next₂ } ∧
      compare op a b { w with next := next₂ } = .ok record { w with next := next₃ } ∧
      record.truth = .error .notAComparison ∧
      (ofResult? record).isSome = (Expression.compare op left right).isBounding := by
  obtain ⟨a, next₁, ha, hleft, hbounded⟩ := run_of_isTerm call id hl w
  obtain ⟨b, next₂, hb, hright, hbounding⟩ :=
    run_of_isTerm call id hr { w with next := next₁ }
  have hoperand : (a.isOperand || b.isOperand) = true := by
    rw [hleft, hright, ← Bool.not_and, hopen]
  obtain ⟨record, hrecord, htruth, hsome⟩ :=
    compare_of_isOperand hoperand op { w with next := next₂ }
  refine ⟨a, b, record, next₁, next₂, _, ha, hb, hrecord, htruth, ?_⟩
  rw [hsome, hleft, hright, hbounded, hbounding]
  rfl

/-! ## Bodies -/

/-- A build that is refused everywhere, after having made new things at most. -/
def Fails {β : Type} (x : Build β) : Prop :=
  ∀ w, ∃ next, x w = .error (.refused .notAComparison) { w with next }

/-- A build that is refused unless it comes to something without truth. -/
def Untested (x : Build Value) : Prop :=
  ∀ w, (∃ v next, x w = .ok v { w with next } ∧ v.truth = .error .notAComparison) ∨
    ∃ next, x w = .error (.refused .notAComparison) { w with next }

theorem Fails.untested {x : Build Value} (h : Fails x) : Untested x :=
  fun w => .inr (h w)

/-- To ask for the truth of what has none is refused. -/
theorem Untested.tested {β : Type} {x : Build Value} (h : Untested x) (k : Value → Bool → Build β) :
    Fails (x >>= fun v => truth v >>= k v) := by
  intro w
  rcases h w with ⟨v, next, hx, htruth⟩ | ⟨next, hx⟩
  · refine ⟨next, ?_⟩
    rw [bind_of_ok hx]
    refine bind_of_error ?_
    rw [truth, htruth]
    rfl
  · exact ⟨next, bind_of_error hx⟩

/-- Whether a body is a single comparison. -/
def isComparison : Expression Literal → Bool
  | .compare .. => true
  | _ => false

/-- A single comparison comes to a record, and other bodies that join comparisons are refused. -/
theorem untested_of_joins {e : Expression Literal} (h : e.joinsComparisons = true)
    (hfails : isComparison e = false →
      Fails (evaluate (Literal.build call) call (.operand id false) e)) :
    Untested (evaluate (Literal.build call) call (.operand id false) e) := by
  cases hcompare : isComparison e with
  | false => exact (hfails hcompare).untested
  | true =>
    cases e with
    | compare op left right =>
      obtain ⟨h, hopen⟩ := Bool.and_eq_true_iff.mp h
      obtain ⟨hl, hr⟩ := Bool.and_eq_true_iff.mp h
      intro w
      obtain ⟨a, b, record, _, _, next, ha, hb, hrecord, htruth, -⟩ :=
        run_of_terms call id hl hr hopen op w
      refine .inl ⟨record, next, ?_, htruth⟩
      rw [evaluate, bind_of_ok ha, bind_of_ok hb, hrecord]
    | _ => cases hcompare

/-- Whatever else joins comparisons asks for the truth of one of them. -/
theorem fails_of_joins : (e : Expression Literal) → e.joinsComparisons = true →
    isComparison e = false →
    Fails (evaluate (Literal.build call) call (.operand id false) e)
  | .compare .., _, hcompare => by cases hcompare
  | .chain first op middle op' last, h, _ => by
    obtain ⟨h, hopen⟩ := Bool.and_eq_true_iff.mp h
    obtain ⟨h, -⟩ := Bool.and_eq_true_iff.mp h
    obtain ⟨hf, hm⟩ := Bool.and_eq_true_iff.mp h
    intro w
    obtain ⟨a, b, record, _, _, next, ha, hb, hrecord, htruth, -⟩ :=
      run_of_terms call id hf hm hopen op w
    refine ⟨next, ?_⟩
    rw [evaluate, bind_of_ok ha, bind_of_ok hb, bind_of_ok hrecord]
    refine bind_of_error ?_
    rw [truth, htruth]
    rfl
  | .and left right, h, _ => by
    obtain ⟨hl, -⟩ := Bool.and_eq_true_iff.mp h
    rw [evaluate]
    exact (untested_of_joins call id hl (fails_of_joins left hl)).tested _
  | .or left right, h, _ => by
    obtain ⟨hl, -⟩ := Bool.and_eq_true_iff.mp h
    rw [evaluate]
    exact (untested_of_joins call id hl (fails_of_joins left hl)).tested _
  | .not operand, h, _ => by
    have hoperand : operand.joinsComparisons = true := h
    rw [evaluate]
    exact (untested_of_joins call id hoperand (fails_of_joins operand hoperand)).tested _
  | .cond test yes no, h, _ => by
    obtain ⟨h, -⟩ := Bool.and_eq_true_iff.mp h
    obtain ⟨ht, -⟩ := Bool.and_eq_true_iff.mp h
    rw [evaluate]
    exact (untested_of_joins call id ht (fails_of_joins test ht)).tested _

end

theorem isComparison_of_isBounding {e : Expression Literal} (h : e.isBounding = true) :
    isComparison e = true := by
  cases e with
  | compare => rfl
  | _ => cases h

/-! ## Predicates -/

/-- Bounds are read off what a function comes to on a new operand. -/
theorem bounds_of_ok {body : Expression Literal} {w w' : Workspace} {v : Value}
    (hrun : evaluate (Literal.build (callWithin 299)) (callWithin 299) (.operand w.next false) body
      { w with next := w.next + 1 } = .ok v w') (m : Nat) :
    bounds Build.call (.function m body) w
      = (match ofResult? v with
        | some b => .ok b w'
        | none => .error (.refused .notAComparison) w') := by
  refine (bind_of_ok (reading_of_ok _ hrun)).trans ?_
  cases ofResult? v <;> rfl

/-- A predicate is refused as its body is. -/
theorem bounds_of_refused {body : Expression Literal} {w w' : Workspace}
    (hrun : evaluate (Literal.build (callWithin 299)) (callWithin 299) (.operand w.next false) body
      { w with next := w.next + 1 } = .error (.refused .notAComparison) w') (m : Nat) :
    bounds Build.call (.function m body) w = .error (.refused .notAComparison) w' :=
  (bind_of_ok (b := operand false) rfl).trans (bind_of_error (reading_of_error _ hrun))

/-- A body that joins comparisons is accepted as a single comparison with a number, or refused. -/
theorem accepted_or_refused {body : Expression Literal} (h : body.joinsComparisons = true) (m : Nat)
    (w : Workspace) :
    (body.isBounding = true ∧ ∃ b w', bounds Build.call (.function m body) w = .ok b w') ∨
      body.isBounding = false ∧
        ∃ next, bounds Build.call (.function m body) w
          = .error (.refused .notAComparison) { w with next } := by
  cases hcompare : isComparison body with
  | false =>
    obtain ⟨next, hrun⟩ := fails_of_joins (callWithin 299) w.next body h hcompare
      { w with next := w.next + 1 }
    refine .inr ⟨?_, next, bounds_of_refused hrun m⟩
    cases hbounding : body.isBounding with
    | false => rfl
    | true => exact absurd (isComparison_of_isBounding hbounding) (by simp [hcompare])
  | true =>
    cases body with
    | compare op left right =>
      obtain ⟨h, hopen⟩ := Bool.and_eq_true_iff.mp h
      obtain ⟨hl, hr⟩ := Bool.and_eq_true_iff.mp h
      obtain ⟨a, b, record, _, _, next, ha, hb, hrecord, -, hsome⟩ :=
        run_of_terms (callWithin 299) w.next hl hr hopen op
          { w with next := w.next + 1 }
      have hrun : evaluate (Literal.build (callWithin 299)) (callWithin 299)
          (.operand w.next false) (.compare op left right) { w with next := w.next + 1 }
            = .ok record { w with next } := by
        rw [evaluate, bind_of_ok ha, bind_of_ok hb, hrecord]
      rw [bounds_of_ok hrun, ← hsome]
      cases ofResult? record with
      | some found => exact .inl ⟨rfl, found, _, rfl⟩
      | none => exact .inr ⟨rfl, next, rfl⟩
    | _ => cases hcompare

/-- Of the bodies that join comparisons of the argument, exactly the single comparisons with a
number that are no inequality are accepted; all the others are refused in the same words. -/
theorem bounds_iff_isBounding {body : Expression Literal} (h : body.joinsComparisons = true)
    (m : Nat) (w : Workspace) :
    ((∃ b w', bounds Build.call (.function m body) w = .ok b w') ↔ body.isBounding = true) ∧
      (body.isBounding = false →
        ∃ r next, bounds Build.call (.function m body) w = .error (.refused r) { w with next } ∧
          r.code = .invalidExpression ∧ r.text = "Invalid expression") := by
  rcases accepted_or_refused h m w with ⟨hbounding, b, w', hok⟩ | ⟨hbounding, next, herror⟩
  · exact ⟨⟨fun _ => hbounding, fun _ => ⟨b, w', hok⟩⟩, fun hfalse => by simp [hbounding] at hfalse⟩
  · refine ⟨⟨fun ⟨b, w', hok⟩ => ?_, fun htrue => ?_⟩, fun _ => ⟨_, next, herror, rfl, rfl⟩⟩
    · rw [herror] at hok
      cases hok
    · simp [hbounding] at htrue

/-- `not (x < 5 and 1 <= x.length < "a") if x == None else 2 > x` is refused by its test. -/
theorem bounds_iff_isBounding_nested :
    ∃ body : Expression Literal, body.joinsComparisons = true ∧ body.isBounding = false ∧
      ((∃ b w', bounds Build.call (.function 0 body) {} = .ok b w') ↔ body.isBounding = true) ∧
      (body.isBounding = false →
        ∃ r next, bounds Build.call (.function 0 body) {} = .error (.refused r) { next } ∧
          r.code = .invalidExpression ∧ r.text = "Invalid expression") := by
  refine ⟨.cond (.compare .eq .arg (.const .null))
    (.not (.and (.compare .lt .arg (.const (.int 5)))
      (.chain (.const (.int 1)) .le (.attr .arg "length") .lt (.const (.text "a")))))
    (.compare .gt (.const (.int 2)) .arg), rfl, rfl, bounds_iff_isBounding rfl 0 {}⟩

end Predicate

end DraftSchema
