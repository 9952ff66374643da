import DraftSchema.Builder
import DraftSchema.Proofs.InStepRule

/-!
# Builders in step

Rules are put at the same paths whether an argument is turned round or not, and with the same
messages. Written annotations are read apart from everything that is built, so that a model declares
the same paths in both runs.
-/

namespace DraftSchema

open Value Build

variable {σ : Outlook} {call : Caller}

namespace Builder

variable {selector value : Value}

theorem agree_builder (v : Value) (operation : String) :
    Agree σ (builder v operation) (builder (v.turned σ.own) operation) := by
  refine inStep_store.then fun s => ?_
  have hmissing : Agree σ (fail (missing s v operation) : Build NodeId)
      (fail (missing (s.turned σ.own) (v.turned σ.own) operation)) := by
    rw [missing_turned]
    exact inStep_fail _
  cases v with
  | node id =>
    change Agree σ _ (if isBuilder (s.turned σ.own) id then pure id else _)
    rw [isBuilder_turned]
    exact inStep_ite (fun _ => inStep_pure trivial) fun _ => hmissing
  | _ => exact hmissing

/-- A path is declared by a model or not, whatever arguments stand in the rules. -/
theorem agree_checkModel (call : Caller) (id : NodeId) (path : List Value) :
    Agree σ (checkModel call id path) (checkModel call id (turnedAll σ.own path)) := by
  intro w hw
  have hmodel : (modelOf (w.store.turned σ.own) id).present
      = (modelOf w.store id).present.map (Value.turned σ.own) := by
    rw [modelOf_turned, present_turned]
  unfold checkModel
  dsimp only [Workspace.turned]
  rw [hmodel]
  cases (modelOf w.store id).present with
  | none => exact ⟨trivial, rfl, hw⟩
  | some model =>
    have hcheck := @Catalog.check_turned σ.own w.store
      (fun text => apart (meaning call text) (annotationSpace w.models)) w.models [] model path
    dsimp only [Option.map_some]
    rw [show ([] : List Value) = turnedAll σ.own [] from rfl, hcheck]
    exact agree_ofExcept _ w hw

theorem agree_say (message : String) : Agree σ (say message) (say message) := fun _ hw =>
  ⟨trivial, rfl, ⟨hw.made, hw.vars⟩⟩

theorem agree_nodeText (id : NodeId) :
    Agree σ (fromStore fun s => s.nodeText id) (fromStore fun s => s.nodeText id) :=
  agree_fromStore fun s => by rw [s.nodeText_turned]

theorem agree_setAdditional (id node : NodeId) :
    Agree σ (setAdditional id node) (setAdditional id node) := by
  refine (agree_nodeText node).then fun shown => inStep_store.then fun s => ?_
  rw [s.className_turned]
  refine (agree_say _).then fun _ => agree_modifyStore fun s => ?_
  exact s.modifyObject_turned id fun r => rfl

theorem agree_place (id : NodeId) (path : List Value) (node : NodeId) :
    Agree σ (place id path node) (place id (turnedAll σ.own path) node) := by
  refine inStep_store.then fun s => ?_
  have hconflict : (s.turned σ.own).conflict? id [] (turnedAll σ.own path) = s.conflict? id [] path :=
    s.conflict?_turned id [] path
  have hput : (s.turned σ.own).put id (turnedAll σ.own path) ((s.turned σ.own).requirement node)
        (.node node)
      = ((s.put id path (s.requirement node) (.node node)).1.turned σ.own,
         (s.put id path (s.requirement node) (.node node)).2) := by
    rw [s.requirement_turned]
    exact s.put_turned id path (s.requirement node) (.node node)
  rw [hconflict]
  cases s.conflict? id [] path with
  | some f => exact inStep_fail f
  | none =>
    dsimp only
    rw [hput]
    refine InStep.then (agree_modifyStore fun _ => rfl) fun _ => ?_
    exact agree_ofExcept _

theorem agree_putRule (call : Caller) (id : NodeId) (path : List Value) (node : NodeId) :
    Agree σ (putRule call id path node) (putRule call id (turnedAll σ.own path) node) :=
  (agree_checkModel call id path).then fun _ => (agree_place id path node).then fun _ =>
    (agree_nodeText node).then fun _ =>
    (agree_fromStore fun s => s.pointer_turned path).then fun _ => agree_say _

theorem inStep_resolve (hcall : call.InStep) (hselector : selector.Callee σ.names)
    (hvalue : value.Callee σ.names) :
    InStep σ (fun _ => True) (Prod.map (turnedAll σ.own) id) (resolve call selector value)
      (resolve call (selector.turned σ.own) (value.turned σ.own)) :=
  (Selector.inStep_path hcall hselector).then fun _ =>
    (Construction.agree_compile hcall .pattern hvalue).then fun _ => inStep_pure trivial

theorem agree_add (hcall : call.InStep) (id : NodeId) (hselector : selector.Callee σ.names)
    (hvalue : value.Callee σ.names) :
    Agree σ (add call id selector value)
      (add call id (selector.turned σ.own) (value.turned σ.own)) := by
  refine (inStep_resolve hcall hselector hvalue).then fun r => ?_
  obtain ⟨path, node⟩ := r
  have hempty : (turnedAll σ.own path).isEmpty = path.isEmpty := by cases path <;> rfl
  dsimp only [Prod.map, id_eq]
  rw [hempty]
  exact inStep_ite (fun _ => agree_setAdditional id node) fun _ => agree_putRule call id path node

end Builder

end DraftSchema
