import DraftSchema.Proofs.Conflict
import DraftSchema.Proofs.Reach

/-!
# Runs that stay within reach

A build stays within reach if from a workspace within reach it goes on to one, with a result that is
as it should be or with a fault that is allowed. There is a rule for each way that builds are put
together; reading parts of values and their texts is the first use of them.
-/

namespace DraftSchema

/-! ## Workspaces -/

/-- A rule is within reach, with all that can be read off it. -/
def Node.Within (σ : Reach) (node : Node) : Prop :=
  node.required.Within σ ∧ ∀ e ∈ node.rule.attributes, e.2.Within σ

/-- The rules of a store are within reach. -/
def Store.Within (σ : Reach) (s : Store) : Prop := ∀ node ∈ s.nodes, node.Within σ

/-- What can be met in a workspace is within reach: what is held by variables that may be asked for,
and rules if they may be met. -/
structure Workspace.Within (σ : Reach) (w : Workspace) : Prop where
  vars : ∀ name v, σ.names name → w.vars.get? name = some v → v.value.Within σ
  store : σ.rules → w.store.Within σ

/-! ## Results -/

namespace Reach

variable {α β : Type} {σ : Reach} {P Q : α → Prop} {R : β → Prop}

/-- A result is as it should be, or an allowed fault. -/
def Yields (σ : Reach) (Q : α → Prop) : Except Fault α → Prop
  | .ok a => Q a
  | .error f => σ.Allows f

theorem Yields.bind {x : Except Fault α} {k : α → Except Fault β} (hx : σ.Yields P x)
    (hk : ∀ a, P a → σ.Yields R (k a)) : σ.Yields R (x >>= k) := by
  cases x with
  | ok a => exact hk a hx
  | error f => exact hx

theorem Yields.map {x : Except Fault α} {g : α → β} (hx : σ.Yields P x)
    (hg : ∀ a, P a → R (g a)) : σ.Yields R (g <$> x) := by
  cases x with
  | ok a => exact hg a hx
  | error f => exact hx

theorem Yields.mono {x : Except Fault α} (hx : σ.Yields P x) (h : ∀ a, P a → Q a) :
    σ.Yields Q x := by
  cases x with
  | ok a => exact h a hx
  | error f => exact hx

/-- What keeps a text from being formed is allowed. -/
theorem Yields.of_spellable {endless : Prop} {x : Except Fault α} (h : Spellable endless x) :
    σ.Yields (fun _ => True) x := by
  cases x with
  | ok a => trivial
  | error f =>
    rcases h f rfl with rfl | ⟨rfl, -⟩
    · exact .plain rfl
    · exact .plain rfl

end Reach

/-! ## Builds -/

namespace Build

variable {α β : Type} {σ : Reach} {P Q : α → Prop} {R : β → Prop}

/-- A build stays within reach, and gives what it should or ends in an allowed fault. -/
def Stays (σ : Reach) (Q : α → Prop) (b : Build α) : Prop :=
  ∀ w, w.Within σ → match b w with
    | .ok a w' => Q a ∧ w'.Within σ
    | .error f w' => σ.Allows f ∧ w'.Within σ

theorem stays_pure {a : α} (h : Q a) : (pure a : Build α).Stays σ Q := fun _ hw => ⟨h, hw⟩

theorem stays_fail {f : Fault} (h : σ.Allows f) : (fail f : Build α).Stays σ Q :=
  fun _ hw => ⟨h, hw⟩

/-- A fault that operations meet by themselves. -/
theorem stays_plain {f : Fault} (h : f.isPlain = true) : (fail f : Build α).Stays σ Q :=
  stays_fail (.plain h)

theorem Stays.bind {b : Build α} {k : α → Build β} (hb : b.Stays σ P)
    (hk : ∀ a, P a → (k a).Stays σ R) : (b >>= k).Stays σ R := by
  intro w hw
  have h := hb w hw
  cases hrun : b w with
  | ok a w₁ =>
    rw [hrun] at h
    rw [show (b >>= k) w = k a w₁ from bind_of_ok hrun]
    exact hk a h.1 w₁ h.2
  | error f w₁ =>
    rw [hrun] at h
    rw [show (b >>= k) w = .error f w₁ from bind_of_error hrun]
    exact h

theorem stays_ite {c : Prop} [Decidable c] {b b' : Build α} (h : c → b.Stays σ Q)
    (h' : ¬ c → b'.Stays σ Q) : (if c then b else b').Stays σ Q := by
  split
  · exact h ‹_›
  · exact h' ‹_›

/-- A check that fails. -/
theorem stays_plain_bind {f : Fault} (h : f.isPlain = true) (k : α → Build β) :
    (fail f >>= k).Stays σ R :=
  stays_plain h

theorem Stays.map {b : Build α} {g : α → β} (hb : b.Stays σ P) (hg : ∀ a, P a → R (g a)) :
    (g <$> b).Stays σ R := by
  rw [map_eq_pure_bind]
  exact hb.bind fun a ha => stays_pure (hg a ha)

/-- What goes on the same whatever a build gives. -/
theorem Stays.then {b : Build α} {k : α → Build β} (hb : b.Stays σ fun _ => True)
    (hk : ∀ a, (k a).Stays σ R) : (b >>= k).Stays σ R :=
  hb.bind fun a _ => hk a

theorem Stays.attempt {b : Build α} (hb : b.Stays σ Q) :
    b.attempt.Stays σ (σ.Yields Q) := by
  intro w hw
  have h := hb w hw
  unfold Build.attempt
  cases hrun : b w with
  | ok a w₁ =>
    rw [hrun] at h
    exact h
  | error f w₁ =>
    rw [hrun] at h
    exact h

theorem stays_ofExcept {x : Except Fault α} (h : σ.Yields Q x) : (ofExcept x).Stays σ Q := by
  cases x with
  | ok a => exact stays_pure h
  | error f => exact stays_fail h

theorem stays_store : store.Stays σ fun s => σ.rules → s.Within σ := fun _ hw => ⟨hw.store, hw⟩

theorem stays_fromStore {g : Store → Except Fault α}
    (h : ∀ s, (σ.rules → s.Within σ) → σ.Yields Q (g s)) : (fromStore g).Stays σ Q :=
  stays_store.bind fun s hs => stays_ofExcept (h s hs)

theorem stays_fresh : fresh.Stays σ fun _ => True := fun _ hw => ⟨trivial, hw.vars, hw.store⟩

theorem stays_typeName (v : Value) : (typeName v).Stays σ fun _ => True :=
  stays_store.bind fun _ _ => stays_pure trivial

theorem stays_kindName (v : Value) : (kindName v).Stays σ fun _ => True :=
  stays_store.bind fun _ _ => stays_pure trivial

/-- A fault about the type of a value. -/
theorem stays_failOn {fault : String → Fault} (h : ∀ type, (fault type).isPlain = true)
    (v : Value) : (failOn fault v : Build α).Stays σ Q :=
  (stays_kindName v).then fun type => stays_plain (h type)

/-- A refusal that only selectors meet. -/
theorem stays_refuse_selector {r : Refusal} (h : r.code = .invalidSelector) :
    (refuse r : Build α).Stays σ Q :=
  stays_plain (decide_eq_true h)

/-- A refusal of what comparisons or rules are asked. -/
theorem stays_refuse {r : Refusal} (h : σ.Refuses) : (refuse r : Build α).Stays σ Q :=
  stays_fail (.refused h r)

theorem stays_list {xs : List Value} (h : ∀ x ∈ xs, x.Within σ) : (list xs).Stays σ (·.Within σ) :=
  stays_fresh.then fun _ => stays_pure (Value.within_list.mpr h)

theorem stays_dict {es : Entries Value Value} (h : ∀ e ∈ es, e.1.Within σ ∧ e.2.Within σ) :
    (dict es).Stays σ (·.Within σ) :=
  stays_fresh.then fun _ => stays_pure (Value.within_dict.mpr h)

theorem stays_recorder {path : List Value} (h : ∀ x ∈ path, x.Within σ) :
    (recorder path).Stays σ (·.Within σ) :=
  stays_fresh.then fun _ => stays_pure (Value.within_recorder.mpr h)

theorem stays_operand (h : σ.Refuses) (ofLength : Bool) :
    (operand ofLength).Stays σ (·.Within σ) :=
  stays_fresh.then fun _ => stays_pure h

theorem stays_float (x : Binary64) : (float x).Stays σ (·.Within σ) := by
  unfold Build.float
  split
  · exact stays_fresh.then fun _ => stays_pure trivial
  · exact stays_pure trivial

/-- Something foreign that is made on the spot. -/
theorem stays_foreign (kind : String) :
    (do return Value.foreign (← fresh) kind : Build Value).Stays σ (·.Within σ) :=
  stays_fresh.then fun _ => stays_pure trivial

theorem stays_truth {v : Value} (h : v.Within σ) : (truth v).Stays σ fun _ => True := by
  cases v with
  | recorder => exact stays_refuse_selector rfl
  | operand => exact stays_refuse h
  | comparison => exact stays_refuse h.1
  | _ => exact stays_pure trivial

end Build

end DraftSchema
