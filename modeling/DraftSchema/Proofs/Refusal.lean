import DraftSchema.Proofs.Run

/-!
# What recordings refuse

Selectors and predicates are run on recordings: a recorder of names, or an operand, which turns a
comparison into a record. They refuse to be asked for their truth, to be counted, gone through or
cut, and to be calculated with; so does the record of a comparison. A body that does not read its
argument does the same whatever it is run on. A run on a recording and a run on data are compared
where both succeed.
-/

namespace DraftSchema

/-! ## Bodies that do not read their argument -/

namespace Expression

variable {α : Type}

mutual

/-- Whether a body does not read its argument. -/
def closed : Expression α → Bool
  | .arg => false
  | .const _ => true
  | .attr target _ => target.closed
  | .item target key => target.closed && key.closed
  | .slice target _ _ => target.closed
  | .compare _ left right => left.closed && right.closed
  | .chain first _ middle _ last => first.closed && middle.closed && last.closed
  | .arith _ left right => left.closed && right.closed
  | .neg operand => operand.closed
  | .call callee args => callee.closed && closedAll args
  | .length operand => operand.closed
  | .elements operand => operand.closed
  | .member element container => element.closed && container.closed
  | .and left right => left.closed && right.closed
  | .or left right => left.closed && right.closed
  | .not operand => operand.closed
  | .cond test yes no => test.closed && yes.closed && no.closed
  | .raise _ => true

def closedAll : List (Expression α) → Bool
  | [] => true
  | e :: es => e.closed && closedAll es

end

end Expression

section

variable {α : Type} (constant : α → Build Value) (call : Caller) (a b : Value)

mutual

/-- A body that does not read its argument does the same for all. -/
theorem evaluate_closed : (e : Expression α) → e.closed = true →
    evaluate constant call a e = evaluate constant call b e
  | .arg, h => by cases h
  | .const _, _ => rfl
  | .attr target _, h => by rw [evaluate, evaluate, evaluate_closed target h]
  | .item target key, h => by
    obtain ⟨ht, hk⟩ := Bool.and_eq_true_iff.mp h
    rw [evaluate, evaluate, evaluate_closed target ht, evaluate_closed key hk]
  | .slice target _ _, h => by rw [evaluate, evaluate, evaluate_closed target h]
  | .compare _ left right, h => by
    obtain ⟨hl, hr⟩ := Bool.and_eq_true_iff.mp h
    rw [evaluate, evaluate, evaluate_closed left hl, evaluate_closed right hr]
  | .chain first _ middle _ last, h => by
    obtain ⟨h, hl⟩ := Bool.and_eq_true_iff.mp h
    obtain ⟨hf, hm⟩ := Bool.and_eq_true_iff.mp h
    rw [evaluate, evaluate, evaluate_closed first hf, evaluate_closed middle hm,
      evaluate_closed last hl]
  | .arith _ left right, h => by
    obtain ⟨hl, hr⟩ := Bool.and_eq_true_iff.mp h
    rw [evaluate, evaluate, evaluate_closed left hl, evaluate_closed right hr]
  | .neg operand, h => by rw [evaluate, evaluate, evaluate_closed operand h]
  | .call callee args, h => by
    obtain ⟨hc, ha⟩ := Bool.and_eq_true_iff.mp h
    rw [evaluate, evaluate, evaluate_closed callee hc, evaluateAll_closed args ha]
  | .length operand, h => by rw [evaluate, evaluate, evaluate_closed operand h]
  | .elements operand, h => by rw [evaluate, evaluate, evaluate_closed operand h]
  | .member element container, h => by
    obtain ⟨he, hc⟩ := Bool.and_eq_true_iff.mp h
    rw [evaluate, evaluate, evaluate_closed element he, evaluate_closed container hc]
  | .and left right, h => by
    obtain ⟨hl, hr⟩ := Bool.and_eq_true_iff.mp h
    rw [evaluate, evaluate, evaluate_closed left hl, evaluate_closed right hr]
  | .or left right, h => by
    obtain ⟨hl, hr⟩ := Bool.and_eq_true_iff.mp h
    rw [evaluate, evaluate, evaluate_closed left hl, evaluate_closed right hr]
  | .not operand, h => by rw [evaluate, evaluate, evaluate_closed operand h]
  | .cond test yes no, h => by
    obtain ⟨h, hn⟩ := Bool.and_eq_true_iff.mp h
    obtain ⟨ht, hy⟩ := Bool.and_eq_true_iff.mp h
    rw [evaluate, evaluate, evaluate_closed test ht, evaluate_closed yes hy, evaluate_closed no hn]
  | .raise _, _ => rfl

theorem evaluateAll_closed : (es : List (Expression α)) → Expression.closedAll es = true →
    evaluateAll constant call a es = evaluateAll constant call b es
  | [], _ => rfl
  | e :: es, h => by
    obtain ⟨he, hes⟩ := Bool.and_eq_true_iff.mp h
    rw [evaluateAll, evaluateAll, evaluate_closed e he, evaluateAll_closed es hes]

end

end

/-- Whether a comparison is one of the four orders. -/
def Relation.isOrder : Relation → Bool
  | .eq | .ne => false
  | _ => true

namespace Build

/-! ## Builds that never succeed -/

/-- A build that never succeeds. -/
def Refused {β : Type} (x : Build β) : Prop := ∀ w a w', x w ≠ .ok a w'

theorem Refused.bind {β γ : Type} {x : Build β} (h : Refused x) (k : β → Build γ) :
    Refused (x >>= k) := by
  intro w c w' hrun
  obtain ⟨a, w₁, hx, -⟩ := bind_eq_ok.mp hrun
  exact h w a w₁ hx

/-- What goes on in ways that never succeed never does. -/
theorem Refused.after {β γ : Type} {k : β → Build γ} (h : ∀ b, Refused (k b)) (x : Build β) :
    Refused (x >>= k) := by
  intro w c w' hrun
  obtain ⟨b, w₁, -, hk⟩ := bind_eq_ok.mp hrun
  exact h b w₁ c w' hk

theorem refused_failOn {β : Type} (fault : String → Fault) (v : Value) :
    Refused (failOn fault v : Build β) := by
  intro w a w' hfail
  cases hfail

theorem refused_failOperands (op : Arithmetic) (a b : Value) : Refused (failOperands op a b) := by
  intro w c w' hfail
  cases hfail

theorem refused_refuse {β : Type} (r : Refusal) : Refused (refuse r : Build β) := by
  intro w a w' hrefuse
  cases hrefuse

/-! ## Two runs from one workspace -/

section

variable {α β γ δ : Type} {R : α → Workspace → β → Workspace → Prop}

/-- Where two builds that are run in one workspace both succeed, their results are related. -/
def Both (R : α → Workspace → β → Workspace → Prop) (x : Build α) (y : Build β) : Prop :=
  ∀ w a w₁ b w₂, x w = .ok a w₁ → y w = .ok b w₂ → R a w₁ b w₂

theorem both_pure {a : α} {b : β} (h : ∀ w, R a w b w) : Both R (pure a) (pure b) := by
  intro w _ _ _ _ hx hy
  cases hx
  cases hy
  exact h w

theorem both_self {R : α → Workspace → α → Workspace → Prop} (h : ∀ a w, R a w a w) (x : Build α) :
    Both R x x := by
  intro w a w₁ b w₂ hx hy
  cases hx.symm.trans hy
  exact h a w₁

theorem both_of_refused {x : Build α} (h : Refused x) (y : Build β) : Both R x y := by
  intro w a w₁ b w₂ hx
  exact absurd hx (h w a w₁)

/-- Runs that begin with the same. -/
theorem both_after (x : Build γ) {k : γ → Build α} {k' : γ → Build β}
    (h : ∀ c, Both R (k c) (k' c)) : Both R (x >>= k) (x >>= k') := by
  intro w a w₁ b w₂ hx hy
  obtain ⟨c, wc, hc, ha⟩ := bind_eq_ok.mp hx
  obtain ⟨c', wc', hc', hb⟩ := bind_eq_ok.mp hy
  cases hc.symm.trans hc'
  exact h c wc a w₁ b w₂ ha hb

/-- Runs that go on from related values, in the same workspace. -/
theorem Both.bind {P : γ → δ → Prop} {x : Build γ} {y : Build δ} {k : γ → Build α} {k' : δ → Build β}
    (h : Both (fun c w d w' => P c d ∧ w = w') x y) (hk : ∀ c d, P c d → Both R (k c) (k' d)) :
    Both R (x >>= k) (y >>= k') := by
  intro w a w₁ b w₂ hx hy
  obtain ⟨c, wc, hc, ha⟩ := bind_eq_ok.mp hx
  obtain ⟨d, wd, hd, hb⟩ := bind_eq_ok.mp hy
  obtain ⟨hcd, rfl⟩ := h w c wc d wd hc hd
  exact hk c d hcd wc a w₁ b w₂ ha hb

end

/-- A value that records what is done with it, or a record. -/
def isRecording : Value → Bool
  | .recorder .. | .operand .. | .comparison .. => true
  | _ => false

/-! ## Operations that refuse recordings -/

section

variable {v : Value} (h : isRecording v = true)

include h

theorem refused_truth : Refused (truth v) := by
  cases v with
  | recorder | operand | comparison =>
    intro w t w' htruth
    cases htruth
  | _ => cases h

theorem refused_slice (start stop : Option Int) : Refused (slice v start stop) := by
  cases v with
  | recorder => exact refused_refuse _
  | operand | comparison => exact refused_failOn _ _
  | _ => cases h

theorem refused_length : Refused (Build.length v) := by
  cases v with
  | recorder | operand | comparison => exact refused_failOn _ _
  | _ => cases h

theorem refused_elements : Refused (elements v) := by
  cases v with
  | recorder => exact refused_refuse _
  | operand | comparison => exact refused_failOn _ _
  | _ => cases h

theorem refused_negate : Refused (negate v) := by
  cases v with
  | recorder | operand | comparison => exact refused_failOn _ _
  | _ => cases h

/-- A recording is no number and no sequence. -/
theorem not_number_of_recording : v.toInt? = none ∧ v.denote? = none ∧ isSequence v = false := by
  cases v with
  | recorder | operand | comparison => exact ⟨rfl, rfl, rfl⟩
  | _ => cases h

theorem refused_join_left (b : Value) : Refused (join v b) := by
  cases v with
  | recorder | operand | comparison => exact refused_failOperands _ _ _
  | _ => cases h

theorem refused_join_right (a : Value) : Refused (join a v) := by
  cases v with
  | recorder | operand | comparison =>
    cases a <;> first | exact refused_failOperands _ _ _ | exact refused_failOn _ _
  | _ => cases h

theorem refused_product_left (b : Value) : Refused (product v b) := by
  obtain ⟨hint, -, hsequence⟩ := not_number_of_recording h
  cases hb : isSequence b with
  | false =>
    simp only [product, hsequence, hb, Bool.false_eq_true, if_false, Bool.not_false, if_true]
    exact refused_failOperands _ _ _
  | true =>
    simp only [product, hsequence, hb, Bool.false_eq_true, if_false, Bool.not_true, hint]
    exact refused_failOn _ _

theorem refused_product_right (a : Value) : Refused (product a v) := by
  obtain ⟨hint, -, hsequence⟩ := not_number_of_recording h
  cases ha : isSequence a with
  | false =>
    simp only [product, hsequence, ha, Bool.false_eq_true, if_false, Bool.not_false, if_true]
    exact refused_failOperands _ _ _
  | true =>
    simp only [product, ha, if_true, Bool.not_true, Bool.false_eq_true, if_false, hint]
    exact refused_failOn _ _

/-- No arithmetic is done with a recording, save that it may be put into a text and into a choice
between types. -/
theorem refused_arithmetic {op : Arithmetic} (heither : op ≠ .either) {a b : Value}
    (hab : a = v ∨ op ≠ .mod ∧ b = v) : Refused (arithmetic op a b) := by
  obtain ⟨hint, hdenote, -⟩ := not_number_of_recording h
  have hmixed : arithmetic op a b = mixedArithmetic op a b := by
    rcases hab with rfl | ⟨hmod, rfl⟩
    · cases op <;> first | exact absurd rfl heither | simp only [arithmetic, hint]
    · cases op <;> first | exact absurd rfl heither | skip
      all_goals
        rw [arithmetic]
        · cases a.toInt? <;> simp only [hint]
        · simp
  have hnumbers : (a.denote?.isSome && b.denote?.isSome) = false := by
    rcases hab with rfl | ⟨hmod, rfl⟩ <;> simp [hdenote]
  rw [hmixed]
  unfold mixedArithmetic
  rw [if_neg (by simp [hnumbers])]
  cases op with
  | add =>
    rcases hab with rfl | ⟨hmod, rfl⟩
    · exact refused_join_left h b
    · exact refused_join_right h a
  | mul =>
    rcases hab with rfl | ⟨hmod, rfl⟩
    · exact refused_product_left h b
    · exact refused_product_right h a
  | mod =>
    rcases hab with rfl | ⟨hmod, -⟩
    · cases a with
      | recorder | operand | comparison => exact refused_failOperands _ _ _
      | _ => cases h
    · exact absurd rfl hmod
  | either => exact absurd rfl heither
  | _ => exact refused_failOperands _ _ _

end

/-! ## Comparisons and membership -/

theorem compare_of_operand_right {op : Relation} {a : Value} (ha : a.isOperand = false) (id : Nat)
    (f : Bool) : compare op a (.operand id f) = comparison id f op.converse a := by
  cases a <;> first | rfl | cases ha

/-- Without an operand a comparison is made. -/
theorem compare_of_plain {op : Relation} {a b : Value} (ha : a.isOperand = false)
    (hb : b.isOperand = false) :
    compare op a b = do return .bool (← fromStore fun s => related s op a b) := by
  unfold Build.compare
  split
  · cases ha
  · cases hb
  · rfl

/-- A recording has no place in the order of values. -/
theorem ordered_recording (s : Store) (op : Relation) {a b : Value}
    (h : isRecording a = true ∨ isRecording b = true) (t : Bool) : ordered s op a b ≠ .ok t := by
  have hdenote : a.denote? = none ∨ b.denote? = none :=
    h.imp (fun ha => (not_number_of_recording ha).2.1) fun hb => (not_number_of_recording hb).2.1
  unfold ordered
  split
  · rcases h with h | h <;> cases h
  · rcases h with h | h <;> cases h
  · rcases h with h | h <;> cases h
  · rcases h with h | h <;> cases h
  · split
    · rename_i hx hy
      rcases hdenote with hnone | hnone
      · rw [hnone] at hx
        cases hx
      · rw [hnone] at hy
        cases hy
    · simp

/-- No container holds anything if it is a recording. -/
theorem refused_contains {c : Value} (h : isRecording c = true) (v : Value) :
    Refused (contains v c) := by
  cases c with
  | recorder => exact refused_refuse _
  | operand | comparison => exact refused_failOn _ _
  | _ => cases h

/-! ## Functions that are only read -/

/-- A function that is only read succeeds when it does. -/
theorem ok_of_reading {replaced : Fault → Fault} {x : Build Value} {w w' : Workspace} {v : Value}
    (h : reading replaced x w = .ok v w') : x w = .ok v w' := by
  obtain ⟨result, w₁, hattempt, hrest⟩ := bind_eq_ok.mp h
  unfold attempt at hattempt
  cases hx : x w with
  | ok a w₂ =>
    rw [hx] at hattempt
    cases hattempt
    cases hrest
    rfl
  | error f w₂ =>
    rw [hx] at hattempt
    cases hattempt
    dsimp only at hrest
    split at hrest <;> cases hrest

/-- A function that succeeds is read as what it comes to. -/
theorem reading_of_ok (replaced : Fault → Fault) {x : Build Value} {w w' : Workspace} {v : Value}
    (h : x w = .ok v w') : reading replaced x w = .ok v w' := by
  refine bind_eq_ok.mpr ⟨.ok v, w', ?_, rfl⟩
  rw [attempt, h]

/-- A function that fails fails to be read, with its own fault or with what stands for it. -/
theorem reading_of_error (replaced : Fault → Fault) {α : Type} {x : Build α} {w w' : Workspace}
    {f : Fault} (h : x w = .error f w') : reading replaced x w
      = .error (if !f.isReading && f.kind.isRecoverable then replaced f else f) w' := by
  have hattempt : attempt x w = .ok (.error f) w' := by rw [attempt, h]
  rw [reading, bind_of_ok hattempt]
  dsimp only
  split <;> rfl

theorem truth_of_ok {v : Value} {w w' : Workspace} {t : Bool} (h : truth v w = .ok t w') :
    v.truth = .ok t := by
  cases htruth : v.truth with
  | ok b =>
    rw [truth, htruth] at h
    cases h
    rfl
  | error f =>
    rw [truth, htruth] at h
    cases h

end Build

end DraftSchema
