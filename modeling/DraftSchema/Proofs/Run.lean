import DraftSchema.Builder

/-!
# Runs of builds

What a build does when it is run in a workspace, step by step: how a build that is made of two
others ends, and the steps of `Builder.add` as cases of one relation. A call ends in exactly one of
seven ways, and every later statement about calls goes through these cases.
-/

namespace DraftSchema

namespace Build

variable {α β : Type}

/-- The workspace that a build leaves behind, whether it met a fault or not. -/
def after (b : Build α) (w : Workspace) : Workspace :=
  match b w with
  | .ok _ w' => w'
  | .error _ w' => w'

theorem after_of_ok {b : Build α} {w w' : Workspace} {a : α} (h : b w = .ok a w') :
    b.after w = w' := by
  rw [after, h]

theorem after_of_error {b : Build α} {w w' : Workspace} {f : Fault} (h : b w = .error f w') :
    b.after w = w' := by
  rw [after, h]

/-- A build in two parts succeeds when both parts do. -/
theorem bind_eq_ok {b : Build α} {k : α → Build β} {w w' : Workspace} {c : β} :
    (b >>= k) w = .ok c w' ↔ ∃ a w₁, b w = .ok a w₁ ∧ k a w₁ = .ok c w' := by
  simp only [bind, EStateM.bind]
  cases b w with
  | ok a w₁ => simp [and_assoc]
  | error f w₁ => simp

theorem bind_of_ok {b : Build α} {k : α → Build β} {w w' : Workspace} {a : α}
    (h : b w = .ok a w') : (b >>= k) w = k a w' := by
  simp only [bind, EStateM.bind, h]

theorem bind_of_error {b : Build α} {k : α → Build β} {w w' : Workspace} {f : Fault}
    (h : b w = .error f w') : (b >>= k) w = .error f w' := by
  simp only [bind, EStateM.bind, h]

theorem fromStore_of_ok {g : Store → Except Fault α} {w : Workspace} {a : α}
    (h : g w.store = .ok a) : fromStore g w = .ok a w := by
  simp [fromStore, store, bind, EStateM.bind, h, ofExcept, pure, EStateM.pure]

theorem fromStore_of_error {g : Store → Except Fault α} {w : Workspace} {f : Fault}
    (h : g w.store = .error f) : fromStore g w = .error f w := by
  simp [fromStore, store, bind, EStateM.bind, h, ofExcept, fail]

/-- Computing something from the store leaves the workspace as it is. -/
theorem fromStore_eq_ok {g : Store → Except Fault α} {w w' : Workspace} {a : α} :
    fromStore g w = .ok a w' ↔ g w.store = .ok a ∧ w' = w := by
  cases h : g w.store with
  | ok b =>
    rw [fromStore_of_ok h]
    simp [eq_comm]
  | error f =>
    rw [fromStore_of_error h]
    simp

end Build

namespace Builder

open Build

/-- A check of the model changes nothing. -/
theorem checkModel_cases (call : Caller) (id : NodeId) (path : List Value) (w : Workspace) :
    checkModel call id path w = .ok () w ∨ ∃ f, checkModel call id path w = .error f w := by
  unfold checkModel
  split
  · exact .inl rfl
  · dsimp only
    generalize Catalog.check _ _ _ _ _ _ _ = result
    cases result with
    | ok => exact .inl rfl
    | error f => exact .inr ⟨f, rfl⟩

theorem place_of_conflict {id node : NodeId} {path : List Value} {w : Workspace} {f : Fault}
    (h : w.store.conflict? id [] path = some f) : place id path node w = .error f w := by
  simp [place, store, bind, EStateM.bind, h, fail]

/-- Putting a rule where nothing is in the way comes to what the store says of it. -/
theorem place_of_clear {id node : NodeId} {path : List Value} {w : Workspace} {s : Store}
    {placed : Except Fault Unit} (h : w.store.conflict? id [] path = none)
    (hp : w.store.put id path (w.store.requirement node) (.node node) = (s, placed)) :
    place id path node w = ofExcept placed { w with store := s } := by
  simp [place, store, bind, EStateM.bind, h, hp, modifyStore]

/-- What the log says of a rule that was put. -/
def report (shown pointer : String) : String := "Added " ++ shown ++ " at '" ++ pointer ++ "'"

/-- What the log says of a rule for every key. -/
def additionalReport (owner shown : String) : String :=
  "Setting additional properties of " ++ owner ++ " to " ++ shown

/-- How a call ends in a workspace in which its path and its rule are known. -/
inductive Settled (call : Caller) (id : NodeId) (path : List Value) (node : NodeId)
    (w : Workspace) : EStateM.Result Fault Workspace Unit → Prop
  /-- The rule for every key cannot be shown. -/
  | unshown {f : Fault} (empty : path = []) (shown : w.store.nodeText node = .error f) :
      Settled call id path node w (.error f w)
  /-- The rule for every key is set. -/
  | additional {shown : String} (empty : path = []) (text : w.store.nodeText node = .ok shown) :
      Settled call id path node w
        (.ok () { w with
          store := w.store.putAdditional id (.node node)
          log := w.log ++ [additionalReport (w.store.className id) shown] })
  /-- The model does not declare the path. -/
  | undeclared {f : Fault} (nonempty : path ≠ []) (check : checkModel call id path w = .error f w) :
      Settled call id path node w (.error f w)
  /-- Something is in the way. -/
  | conflict {f : Fault} (nonempty : path ≠ []) (check : checkModel call id path w = .ok () w)
      (conflict : w.store.conflict? id [] path = some f) :
      Settled call id path node w (.error f w)
  /-- The rule cannot be put although nothing is in the way. -/
  | stuck {f : Fault} {s : Store} (nonempty : path ≠ [])
      (check : checkModel call id path w = .ok () w)
      (clear : w.store.conflict? id [] path = none)
      (put : w.store.put id path (w.store.requirement node) (.node node) = (s, .error f)) :
      Settled call id path node w (.error f { w with store := s })
  /-- The rule is put, but the log cannot say so. -/
  | unreported {f : Fault} {s : Store} (nonempty : path ≠ [])
      (check : checkModel call id path w = .ok () w)
      (clear : w.store.conflict? id [] path = none)
      (put : w.store.put id path (w.store.requirement node) (.node node) = (s, .ok ()))
      (report : s.nodeText node = .error f ∨
        (∃ shown, s.nodeText node = .ok shown) ∧ s.pointer path = .error f) :
      Settled call id path node w (.error f { w with store := s })
  /-- The rule is put, and the log says so. -/
  | put {s : Store} {shown pointer : String} (nonempty : path ≠ [])
      (check : checkModel call id path w = .ok () w)
      (clear : w.store.conflict? id [] path = none)
      (put : w.store.put id path (w.store.requirement node) (.node node) = (s, .ok ()))
      (text : s.nodeText node = .ok shown) (point : s.pointer path = .ok pointer) :
      Settled call id path node w
        (.ok () { w with store := s, log := w.log ++ [report shown pointer] })

theorem setAdditional_settled (call : Caller) (id node : NodeId) (w : Workspace) :
    Settled call id [] node w (setAdditional id node w) := by
  cases h : w.store.nodeText node with
  | error f =>
    rw [setAdditional, bind_of_error (fromStore_of_error h)]
    exact .unshown rfl h
  | ok shown =>
    rw [setAdditional, bind_of_ok (fromStore_of_ok h)]
    exact .additional rfl h

theorem putRule_settled (call : Caller) (id : NodeId) (path : List Value) (node : NodeId)
    (w : Workspace) (hp : path ≠ []) :
    Settled call id path node w (putRule call id path node w) := by
  unfold putRule
  rcases (checkModel_cases call id path w).symm with ⟨f, hc⟩ | hc
  · rw [bind_of_error hc]
    exact .undeclared hp hc
  rw [bind_of_ok hc]
  cases hcon : w.store.conflict? id [] path with
  | some f =>
    rw [bind_of_error (place_of_conflict hcon)]
    exact .conflict hp hc hcon
  | none =>
    -- the rule is put before the log line is formed
    cases hput : w.store.put id path (w.store.requirement node) (.node node) with
    | mk s placed =>
      have hplace := place_of_clear hcon hput
      cases placed with
      | error f =>
        rw [bind_of_error hplace]
        exact .stuck hp hc hcon hput
      | ok =>
        rw [bind_of_ok hplace]
        cases htext : s.nodeText node with
        | error f =>
          rw [bind_of_error (fromStore_of_error htext)]
          exact .unreported hp hc hcon hput (.inl htext)
        | ok shown =>
          rw [bind_of_ok (fromStore_of_ok htext)]
          cases hpoint : s.pointer path with
          | error f =>
            rw [bind_of_error (fromStore_of_error hpoint)]
            exact .unreported hp hc hcon hput (.inr ⟨⟨shown, htext⟩, hpoint⟩)
          | ok pointer =>
            rw [bind_of_ok (fromStore_of_ok hpoint)]
            exact .put hp hc hcon hput htext hpoint

/-- A call that fails to find out its path and its rule ends there. -/
theorem add_of_unresolved {call : Caller} {id : NodeId} {selector value : Value}
    {w w' : Workspace} {f : Fault} (h : resolve call selector value w = .error f w') :
    add call id selector value w = .error f w' :=
  bind_of_error h

/-- Once path and rule are known, a call ends in one of the ways of `Settled`. -/
theorem add_settled {call : Caller} {id : NodeId} {selector value : Value} {w w' : Workspace}
    {path : List Value} {node : NodeId}
    (h : resolve call selector value w = .ok (path, node) w') :
    Settled call id path node w' (add call id selector value w) := by
  rw [add, bind_of_ok h]
  cases path with
  | nil => exact setAdditional_settled call id node w'
  | cons name rest => exact putRule_settled call id (name :: rest) node w' (by simp)

section Succeeds

variable {call : Caller} {id node : NodeId} {selector value : Value} {w w₁ w' : Workspace}
  {path : List Value}

/-- A call with a path succeeds exactly when the model declares the path, nothing is in its way, the
rule can be put, and the log can say so. -/
theorem add_path_eq_ok (hres : resolve call selector value w = .ok (path, node) w₁) (hp : path ≠ []) :
    add call id selector value w = .ok () w' ↔ ∃ s shown pointer,
      checkModel call id path w₁ = .ok () w₁ ∧ w₁.store.conflict? id [] path = none ∧
      w₁.store.put id path (w₁.store.requirement node) (.node node) = (s, .ok ()) ∧
      s.nodeText node = .ok shown ∧ s.pointer path = .ok pointer ∧
      w' = { w₁ with store := s, log := w₁.log ++ [report shown pointer] } := by
  have hsettled : Settled call id path node w₁ (add call id selector value w) := add_settled hres
  constructor
  · intro h
    rw [h] at hsettled
    cases hsettled with
    | additional hempty => exact absurd hempty hp
    | put _ hcheck hclear hput htext hpoint =>
      exact ⟨_, _, _, hcheck, hclear, hput, htext, hpoint, rfl⟩
  · rintro ⟨s, shown, pointer, hcheck, hclear, hput, htext, hpoint, rfl⟩
    -- there is no other end that the call could have come to
    generalize add call id selector value w = result at hsettled
    cases hsettled with
    | unshown hempty => exact absurd hempty hp
    | additional hempty => exact absurd hempty hp
    | undeclared _ hundeclared => cases hcheck.symm.trans hundeclared
    | conflict _ _ hconflict => cases hclear.symm.trans hconflict
    | stuck _ _ _ hstuck => cases hput.symm.trans hstuck
    | unreported _ _ _ hplaced hreport =>
      cases hput.symm.trans hplaced
      rcases hreport with hreport | ⟨-, hreport⟩
      · cases htext.symm.trans hreport
      · cases hpoint.symm.trans hreport
    | put _ _ _ hplaced htext' hpoint' =>
      cases hput.symm.trans hplaced
      cases htext.symm.trans htext'
      cases hpoint.symm.trans hpoint'
      rfl

/-- A call for every key succeeds exactly when its rule can be shown. -/
theorem add_nil_eq_ok (hres : resolve call selector value w = .ok ([], node) w₁) :
    add call id selector value w = .ok () w' ↔ ∃ shown, w₁.store.nodeText node = .ok shown ∧
      w' = { w₁ with
        store := w₁.store.putAdditional id (.node node)
        log := w₁.log ++ [additionalReport (w₁.store.className id) shown] } := by
  have hsettled : Settled call id [] node w₁ (add call id selector value w) := add_settled hres
  constructor
  · intro h
    rw [h] at hsettled
    cases hsettled with
    | additional _ htext => exact ⟨_, htext, rfl⟩
    | put hne => exact absurd rfl hne
  · rintro ⟨shown, htext, rfl⟩
    generalize add call id selector value w = result at hsettled
    cases hsettled with
    | unshown _ hunshown => cases htext.symm.trans hunshown
    | additional _ htext' =>
      cases htext.symm.trans htext'
      rfl
    | undeclared hne | conflict hne | stuck hne | unreported hne | put hne => exact absurd rfl hne

end Succeeds

end Builder

end DraftSchema
