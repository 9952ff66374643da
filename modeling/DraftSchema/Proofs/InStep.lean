import DraftSchema.Proofs.Run
import DraftSchema.Proofs.TurningPath

/-!
# Two runs in step

A build is run with the argument of a predicate, and once more with the length of that argument in its
place. The two runs are in step if they end in the same way, the second one with what the first one ends
with, the argument turned round. There is a rule for each way that builds are put together.
-/

namespace DraftSchema

open Value

/-! ## Workspaces -/

/-- A workspace in which an argument is turned round. No variable that is asked for holds it. -/
def Workspace.turned (own : Nat) (w : Workspace) : Workspace :=
  { w with store := w.store.turned own }

/-- What blind bodies may come upon in a workspace is blind, and the argument that counts was made before
what is made next. -/
structure Workspace.Ready (σ : Outlook) (w : Workspace) : Prop where
  made : σ.own < w.next
  vars : ∀ name v, σ.names name → w.vars.get? name = some v → v.value.Blind σ.plain

namespace Build

variable {α β γ δ : Type} {σ : Outlook}

/-- Two runs end in the same way: with results of which one is got from the other, or with the same
fault, and in workspaces that differ by the argument that is turned round. -/
def EndsAs (σ : Outlook) (Q : α → Prop) (g : α → β) :
    EStateM.Result Fault Workspace α → EStateM.Result Fault Workspace β → Prop
  | .ok a w, r => Q a ∧ r = .ok (g a) (w.turned σ.own) ∧ w.Ready σ
  | .error f w, r => r = .error f (w.turned σ.own) ∧ w.Ready σ

/-- Two builds end in the same way from a workspace and from the one in which the argument is turned
round. -/
def InStep (σ : Outlook) (Q : α → Prop) (g : α → β) (x : Build α) (y : Build β) : Prop :=
  ∀ w, w.Ready σ → EndsAs σ Q g (x w) (y (w.turned σ.own))

/-- Two runs are in step, and what they give is a blind value. -/
abbrev Echo (σ : Outlook) (x y : Build Value) : Prop :=
  InStep σ (fun v => v.Blind σ) (Value.turned σ.own) x y

/-- Two runs are in step, and what they give is one and the same. -/
abbrev Agree (σ : Outlook) (x y : Build α) : Prop := InStep σ (fun _ => True) id x y

variable {P Q : α → Prop} {R : γ → Prop} {g : α → β} {h : γ → δ} {x : Build α} {y : Build β}
  {k : α → Build γ} {l : β → Build δ}

theorem inStep_pure {a : α} (ha : Q a) : InStep σ Q g (pure a) (pure (g a)) :=
  fun _ hw => ⟨ha, rfl, hw⟩

theorem inStep_pure_of_eq {a : α} {b : β} (hb : b = g a) (ha : Q a) :
    InStep σ Q g (pure a) (pure b) :=
  hb ▸ inStep_pure ha

theorem inStep_fail (f : Fault) : InStep σ Q g (fail f) (fail f) := fun _ hw => ⟨rfl, hw⟩

theorem inStep_refuse (r : Refusal) : InStep σ Q g (refuse r) (refuse r) := inStep_fail _

theorem InStep.bind (hx : InStep σ P g x y)
    (hk : ∀ a, P a → InStep σ R h (k a) (l (g a))) : InStep σ R h (x >>= k) (y >>= l) := by
  intro w hw
  have hrun := hx w hw
  cases hxw : x w with
  | ok a w₁ =>
    rw [hxw] at hrun
    obtain ⟨ha, hy, hw₁⟩ := hrun
    rw [show (x >>= k) w = k a w₁ from bind_of_ok hxw, bind_of_ok hy]
    exact hk a ha w₁ hw₁
  | error f w₁ =>
    rw [hxw] at hrun
    rw [show (x >>= k) w = .error f w₁ from bind_of_error hxw, bind_of_error hrun.1]
    exact ⟨rfl, hrun.2⟩

/-- What goes on in step whatever a build gives. -/
theorem InStep.then (hx : InStep σ P g x y) (hk : ∀ a, InStep σ R h (k a) (l (g a))) :
    InStep σ R h (x >>= k) (y >>= l) :=
  hx.bind fun a _ => hk a

theorem InStep.mono (hx : InStep σ P g x y) (hpq : ∀ a, P a → Q a) : InStep σ Q g x y := by
  intro w hw
  have hrun := hx w hw
  cases hxw : x w with
  | ok a w₁ =>
    rw [hxw] at hrun
    exact ⟨hpq a hrun.1, hrun.2⟩
  | error f w₁ =>
    rw [hxw] at hrun
    exact hrun

theorem InStep.map {f : α → γ} {f' : β → δ} (hx : InStep σ P g x y)
    (hf : ∀ a, P a → R (f a) ∧ f' (g a) = h (f a)) : InStep σ R h (f <$> x) (f' <$> y) := by
  rw [map_eq_pure_bind, map_eq_pure_bind]
  refine hx.bind fun a ha => ?_
  obtain ⟨hr, heq⟩ := hf a ha
  rw [heq]
  exact inStep_pure hr

theorem inStep_ite {c : Prop} [Decidable c] {x' : Build α} {y' : Build β}
    (hx : c → InStep σ Q g x y) (hx' : ¬ c → InStep σ Q g x' y') :
    InStep σ Q g (if c then x else x') (if c then y else y') := by
  split
  · exact hx ‹_›
  · exact hx' ‹_›

theorem InStep.attempt (hx : InStep σ Q g x y) :
    InStep σ (fun r => ∀ a, r = .ok a → Q a) (g <$> ·) x.attempt y.attempt := by
  intro w hw
  have hrun := hx w hw
  unfold Build.attempt
  cases hxw : x w with
  | ok a w₁ =>
    rw [hxw] at hrun
    obtain ⟨ha, hy, hw₁⟩ := hrun
    rw [hy]
    exact ⟨fun b hb => Except.ok.inj hb ▸ ha, rfl, hw₁⟩
  | error f w₁ =>
    rw [hxw] at hrun
    rw [hrun.1]
    exact ⟨by simp, rfl, hrun.2⟩

theorem inStep_ofExcept {r : Except Fault α} {r' : Except Fault β} (heq : r' = g <$> r)
    (hr : ∀ a, r = .ok a → Q a) : InStep σ Q g (ofExcept r) (ofExcept r') := by
  subst heq
  cases r with
  | ok a => exact inStep_pure (hr a rfl)
  | error f => exact inStep_fail f

theorem inStep_store : InStep σ (fun _ => True) (Store.turned σ.own) store store :=
  fun _ hw => ⟨trivial, rfl, hw⟩

theorem inStep_fromStore {F : Store → Except Fault α} {G : Store → Except Fault β}
    (heq : ∀ s, G (s.turned σ.own) = g <$> F s) (hF : ∀ s a, F s = .ok a → Q a) :
    InStep σ Q g (fromStore F) (fromStore G) :=
  inStep_store.then fun s => inStep_ofExcept (heq s) (hF s)

/-- What is the same in both stores. -/
theorem agree_fromStore {F G : Store → Except Fault α} (heq : ∀ s, G (s.turned σ.own) = F s) :
    Agree σ (fromStore F) (fromStore G) :=
  inStep_fromStore (fun s => (heq s).trans (id_map _).symm) fun _ _ _ => trivial

/-- A new number is none that was given before. -/
theorem inStep_fresh : InStep σ (fun n => n ≠ σ.own) id fresh fresh :=
  fun _ hw => ⟨(Nat.ne_of_lt hw.made).symm, rfl, ⟨Nat.lt_succ_of_lt hw.made, hw.vars⟩⟩

theorem agree_typeName (v : Value) : Agree σ (typeName v) (typeName (v.turned σ.own)) :=
  inStep_store.then fun s => by
    rw [s.typeName_turned]
    exact inStep_pure trivial

theorem agree_kindName (v : Value) : Agree σ (kindName v) (kindName (v.turned σ.own)) :=
  inStep_store.then fun s => by
    rw [s.kindName_turned]
    exact inStep_pure trivial

/-- A fault about the type of a value. -/
theorem inStep_failOn (fault : String → Fault) (v : Value) :
    InStep σ Q g (failOn fault v) (failOn fault (v.turned σ.own)) :=
  (agree_kindName v).then fun _ => inStep_fail _

/-! ## New values -/

variable {v : Value} {xs : List Value}

theorem echo_list (hxs : ∀ x ∈ xs, x.Blind σ) : Echo σ (list xs) (list (turnedAll σ.own xs)) :=
  inStep_fresh.then fun _ => inStep_pure (blind_list.mpr hxs)

theorem echo_dict {es : Entries Value Value} (hes : ∀ e ∈ es, e.1.Blind σ ∧ e.2.Blind σ) :
    Echo σ (dict es) (dict (turnedEntries σ.own es)) :=
  inStep_fresh.then fun _ => inStep_pure (blind_dict.mpr hes)

theorem echo_recorder {path : List Value} (hpath : ∀ x ∈ path, x.Blind σ) :
    Echo σ (recorder path) (recorder (turnedAll σ.own path)) :=
  inStep_fresh.then fun _ => inStep_pure (blind_recorder.mpr hpath)

theorem echo_float (x : Binary64) : Echo σ (float x) (float x) := by
  unfold Build.float
  split
  · exact inStep_fresh.then fun _ => inStep_pure trivial
  · exact inStep_pure trivial

/-- Something foreign that is made on the spot. -/
theorem echo_foreign (kind : String) :
    Echo σ (do return Value.foreign (← fresh) kind) (do return Value.foreign (← fresh) kind) :=
  inStep_fresh.then fun _ => inStep_pure trivial

theorem agree_truth (v : Value) : Agree σ (truth v) (truth (v.turned σ.own)) := by
  unfold Build.truth
  rw [truth_turned]
  split
  · exact inStep_pure trivial
  · exact inStep_refuse _

end Build

end DraftSchema
