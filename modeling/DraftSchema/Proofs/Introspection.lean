import DraftSchema.Proofs.Proxy
import DraftSchema.Proofs.Refusal
import DraftSchema.Proofs.StayingCall

/-!
# What leaves the reading of a function

A selector or a predicate is read by calling it with a recording. Where that run ends in a fault of
the five kinds that come of doing more than is read, reading refuses the function; refusals to read
pass as they are. The run itself meets only such faults and refusals, unless there is no room for a
result, calls nest without end, or a text that should name a type is no expression: these faults pass
unchanged. On the recordings nothing meets them.
-/

namespace DraftSchema

open Build

/-- A build ends in a fault as soon as a test of what it gives says so. -/
theorem Build.error_of_test {α : Type} {b : Build α} {w : Workspace} {f : Fault}
    (h : (match b.result w with
      | .ok _ => false
      | .error g => decide (g = f)) = true) : b w = .error f (b.after w) := by
  cases hresult : b.result w with
  | ok a =>
    rw [hresult] at h
    cases h
  | error g =>
    rw [hresult] at h
    exact error_of_result (hresult.trans (congrArg _ (of_decide_eq_true h)))

/-! ## Kinds of faults within reach -/

namespace Reach

variable {σ : Reach} {f : Fault}

/-- If only recoverable faults are raised, a run meets recoverable ones, and those that no reading
catches. -/
theorem Allows.kind (hraises : ∀ f, σ.raises f → f.kind.isRecoverable = true) (h : σ.Allows f) :
    f.kind.isRecoverable = true ∨ f.kind.isUncaught = true := by
  have hrefused : ∀ r : Refusal, (Fault.refused r).kind.isRecoverable = true := by
    intro r
    show r.code.kind.isRecoverable = true
    cases r.code <;> rfl
  -- raised by a body, met by an operation, or a refusal of rules and comparisons
  rcases h with h | h | ⟨-, r, rfl⟩
  · exact .inl (hraises f h)
  · cases f with
    | refused r => exact .inl (hrefused r)
    | _ => exact Bool.or_eq_true_iff.mp h
  · exact .inl (hrefused r)

/-- A refusal that a run meets is one of selectors, unless others are raised or may be met. -/
theorem Allows.code {r : Refusal} (h : σ.Allows (.refused r)) :
    r.code = .invalidSelector ∨ σ.raises (.refused r) ∨ σ.Refuses := by
  rcases h with h | h | ⟨h, -⟩
  · exact .inr (.inl h)
  · exact .inl (of_decide_eq_true h)
  · exact .inr (.inr h)

end Reach

/-! ## Runs that are read -/

/-- A fault passes that is not replaced: a refusal to read, or one that does not recover. -/
theorem isReading_or_of_passes {f : Fault}
    (h : ¬ (!f.isReading && f.kind.isRecoverable) = true) :
    f.isReading = true ∨ f.kind.isRecoverable = false := by
  cases hreading : f.isReading <;> simp_all

/-- A fault that no reading catches passes. -/
theorem passes_of_isUncaught {f : Fault} (h : f.kind.isUncaught = true) :
    (!f.isReading && f.kind.isRecoverable) = false := by
  have hkind : f.kind.isRecoverable = false := by
    cases hkind : f.kind <;> simp_all [FaultKind.isUncaught, FaultKind.isRecoverable]
  rw [hkind, Bool.and_false]

/-- A refusal to read is one of the two kinds. -/
theorem exists_of_isReading {f : Fault} (h : f.isReading = true) :
    ∃ r, f = .refused r ∧ r.code.isReading = true := by
  cases f with
  | refused r => exact ⟨r, rfl, h⟩
  | _ => cases h

namespace Selector

variable {v : Value} {vs : List Value} {w w' : Workspace} {f g : Fault}

/-- The run of a selector that is read: a call with a new recorder. -/
def run (v : Value) : Build Value := do Build.call v [← recorder []]

theorem failsOnly_names (vs : List Value) :
    (names vs).FailsOnly fun f => ∃ r, f = .refused r ∧ r.code = .invalidSelector := by
  induction vs with
  | nil => exact failsOnly_pure _
  | cons v vs ih =>
    unfold names
    split
    · exact failsOnly_pure _
    · rename_i h
      obtain ⟨rfl, rfl⟩ := List.cons.inj h
      exact ih.bind fun _ => failsOnly_pure _
    · exact (failsOnly_typeName _).bind fun _ => failsOnly_fail ⟨_, rfl, rfl⟩

/-- What was recorded comes back from a run that succeeds. -/
theorem recorded_of_ok {result : Value} (h : run v w = .ok result w') :
    recorded Build.call v w = (match result with
      | .recorder _ path => .ok path w'
      | _ => .error (.refused (.notAPath none)) w') := by
  have hrun : Build.call v [.recorder w.next []] { w with next := w.next + 1 } = .ok result w' := h
  refine (bind_of_ok (b := recorder []) rfl).trans ?_
  refine (bind_of_ok (reading_of_ok _ hrun)).trans ?_
  cases result <;> rfl

theorem recorded_of_error (h : run v w = .error g w') :
    recorded Build.call v w
      = .error (if !g.isReading && g.kind.isRecoverable then worded g else g) w' := by
  have hrun : Build.call v [.recorder w.next []] { w with next := w.next + 1 } = .error g w' := h
  refine (bind_of_ok (b := recorder []) rfl).trans ?_
  exact bind_of_error (reading_of_error _ hrun)

theorem path_of_isCallable (h : v.isCallable = true) :
    path Build.call v = recorded Build.call v := by
  unfold path
  split
  · cases h
  · cases h
  · rw [if_pos h]

/-- A selector is refused as one, or as its run ends in a fault that passes; a key without a text is
left aside. -/
theorem path_error (h : path Build.call v w = .error f w') :
    (∃ r, f = .refused r ∧ r.code = .invalidSelector) ∨
      (run v w = .error f w' ∧ (f.isReading = true ∨ f.kind.isRecoverable = false)) ∨
      ∃ g, run v w = .error g w' ∧ g.kind = .hiddenKey := by
  unfold path at h
  split at h
  · exact .inl (failsOnly_names _ _ _ _ h)
  · exact .inl (failsOnly_names _ _ _ _ h)
  split at h
  · cases hrun : run v w with
    | ok result w₁ =>
      rw [recorded_of_ok hrun] at h
      split at h
      · cases h
      · cases h
        exact .inl ⟨_, rfl, rfl⟩
    | error g w₁ =>
      rw [recorded_of_error hrun] at h
      split at h
      · unfold worded at h
        split at h
        · cases h
          exact .inr (.inr ⟨g, rfl, ‹_›⟩)
        · cases h
          exact .inl ⟨_, rfl, rfl⟩
      · rename_i hpasses
        cases h
        exact .inr (.inl ⟨rfl, isReading_or_of_passes hpasses⟩)
  · cases h
    exact .inl ⟨_, rfl, rfl⟩

end Selector

namespace Predicate

variable {v : Value} {w w' : Workspace} {f g : Fault}

/-- The run of a predicate that is read: a call with a new operand. -/
def run (v : Value) : Build Value := do Build.call v [← operand false]

theorem bounds_of_run_ok {result : Value} (hv : v.isCallable = true)
    (h : run v w = .ok result w') :
    bounds Build.call v w = (match ofResult? result with
      | some b => .ok b w'
      | none => .error (.refused .notAComparison) w') := by
  have hrun : Build.call v [.operand w.next false] { w with next := w.next + 1 }
      = .ok result w' := h
  unfold bounds
  rw [hv]
  refine (bind_of_ok (b := operand false) rfl).trans ?_
  refine (bind_of_ok (reading_of_ok _ hrun)).trans ?_
  cases ofResult? result <;> rfl

theorem bounds_of_run_error (hv : v.isCallable = true) (h : run v w = .error g w') :
    bounds Build.call v w
      = .error (if !g.isReading && g.kind.isRecoverable then .refused .notAComparison else g)
          w' := by
  have hrun : Build.call v [.operand w.next false] { w with next := w.next + 1 }
      = .error g w' := h
  unfold bounds
  rw [hv]
  refine (bind_of_ok (b := operand false) rfl).trans ?_
  exact bind_of_error (reading_of_error _ hrun)

/-- A predicate is refused, or its run ends in a fault that passes. -/
theorem bounds_error (h : bounds Build.call v w = .error f w') :
    f.isReading = true ∨ run v w = .error f w' ∧ f.kind.isRecoverable = false := by
  cases hv : v.isCallable with
  | false =>
    unfold bounds at h
    rw [hv] at h
    cases h
    exact .inl rfl
  | true =>
    cases hrun : run v w with
    | ok result w₁ =>
      rw [bounds_of_run_ok hv hrun] at h
      split at h
      · cases h
      · cases h
        exact .inl rfl
    | error g w₁ =>
      rw [bounds_of_run_error hv hrun] at h
      split at h
      · cases h
        exact .inl rfl
      · rename_i hpasses
        cases h
        exact (isReading_or_of_passes hpasses).imp_right fun hkind => ⟨rfl, hkind⟩

end Predicate

/-! ## What leaves the reading -/

section

variable {σ : Reach} {v : Value} {w w' : Workspace} {f : Fault}

/-- A run stays within reach, so a fault of it is an allowed one. -/
theorem Selector.allows_of_run (hv : v.Within σ) (hw : w.Within σ)
    (h : Selector.run v w = .error f w') : σ.Allows f := by
  -- the recorder that the call starts with has an empty path
  have hstays : (Selector.run v).Stays σ (·.Within σ) :=
    (stays_recorder (by simp)).bind fun x hx =>
      stays_call σ v [x] hv (List.forall_mem_singleton.mpr hx)
  have hrun := hstays w hw
  rw [h] at hrun
  exact hrun.1

theorem Predicate.allows_of_run (hrefuses : σ.Refuses) (hv : v.Within σ) (hw : w.Within σ)
    (h : Predicate.run v w = .error f w') : σ.Allows f := by
  have hstays : (Predicate.run v).Stays σ (·.Within σ) :=
    (stays_operand hrefuses false).bind fun x hx =>
      stays_call σ v [x] hv (List.forall_mem_singleton.mpr hx)
  have hrun := hstays w hw
  rw [h] at hrun
  exact hrun.1

/-- A text into which a proxy is put. -/
theorem overflows_arithmetic_mod (text : String) {p : Value} (hp : p.isProxy = true) :
    (arithmetic .mod (.text text) p).Overflows := by
  show (mixedArithmetic .mod (.text text) p).Overflows
  unfold mixedArithmetic
  rw [if_neg (by simp [Value.denote?])]
  exact overflows_formatted text hp

end

namespace Introspection

/-- What is within reach of functions that raise nothing, make no rules and ask for no variables. -/
def silent (compares : Prop) : Reach := ⟨fun _ => False, False, compares, fun _ => False⟩

/-- A function that adds to a part of its argument. -/
def adding : Value := .function 0 (.arith .add (.attr .arg "a") (.const (.int 1)))

/-- A function that repeats a text more often than there is room for. -/
def repeating : Value :=
  .function 0 (.arith .mul (.const (.text "a")) (.const (.int 1000000000000000)))

/-- A function that gives a choice between nothing and a type whose name is no expression. -/
def misnaming : Value := .function 0 (.const (.type (.optional (.value (.text "a b")))))

/-- A function that calls a function with itself, which does the same. -/
def endless : Value :=
  let apply : Literal := .function (.call .arg [.arg])
  .function 0 (.call (.const apply) [.const apply])

end Introspection

end DraftSchema
