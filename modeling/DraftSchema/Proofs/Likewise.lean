import DraftSchema.Proofs.Nesting
import DraftSchema.Proofs.Route

/-!
# Calls on a builder and on a dictionary

Two workspaces are taken that differ in the kind of one builder. A call that stands for the same path
and the same rule in both ends alike in both, its messages aside, and leaves workspaces that differ
in no more than before. So it is with a run of such calls.
-/

namespace DraftSchema

open Catalog (outcome)

namespace Builder

open Build

variable {α β : Type} {call : Caller} {id node : NodeId} {path : List Value} {w w' u u' : Workspace}

/-! ## Two workspaces -/

/-- Two workspaces have the same models, and the same rules but for one builder, which is a dictionary
in the second one. No rule holds it. -/
structure Lifted (id : NodeId) (w w' : Workspace) : Prop where
  store : w'.store = w.store.recast id
  models : w'.models = w.models
  builder : ∃ r, w.store.object? id = some r ∧ r.kind = .schema
  aside : w.store.Aside id

/-- Two builds end alike: with one result, or with faults of one sort, in workspaces that differ in
the kind of a builder. -/
inductive Likewise (id : NodeId) :
    EStateM.Result Fault Workspace α → EStateM.Result Fault Workspace α → Prop
  | ok (a : α) {w w' : Workspace} (lifted : Lifted id w w') : Likewise id (.ok a w) (.ok a w')
  | error {f f' : Fault} {w w' : Workspace} (sort : f.sort = f'.sort) (lifted : Lifted id w w') :
      Likewise id (.error f w) (.error f' w')

theorem Lifted.lt_size (h : Lifted id w w') : id < w.store.size := by
  obtain ⟨r, hr, -⟩ := h.builder
  exact Store.lt_size_of_object? hr

/-- Messages do not count. -/
theorem Lifted.say (h : Lifted id w w') (message message' : String) :
    Likewise id (Build.say message w) (Build.say message' w') :=
  .ok () ⟨h.store, h.models, h.builder, h.aside⟩

/-- The numbers for new things do not count. -/
theorem Lifted.renumber (h : Lifted id w w') (next next' : Nat) :
    Lifted id { w with next } { w' with next := next' } :=
  ⟨h.store, h.models, h.builder, h.aside⟩

theorem Likewise.lifted {a : α} {result : EStateM.Result Fault Workspace α}
    (h : Likewise id (.ok a u) result) : ∃ u', Lifted id u u' := by
  cases h with
  | ok a lifted => exact ⟨_, lifted⟩

theorem Likewise.bind {b b' : Build α} {k k' : α → Build β} (h : Likewise id (b w) (b' w'))
    (hrest : ∀ a u u', b w = .ok a u → Lifted id u u' → Likewise id (k a u) (k' a u')) :
    Likewise id ((b >>= k) w) ((b' >>= k') w') := by
  generalize hb : b w = x at h
  generalize hb' : b' w' = x' at h
  cases h with
  | ok a lifted =>
    rw [bind_of_ok hb, bind_of_ok hb']
    exact hrest a _ _ hb lifted
  | error sort lifted =>
    rw [bind_of_error hb, bind_of_error hb']
    exact .error sort lifted

theorem Lifted.ofExcept {x x' : Except Fault α} (h : Lifted id w w')
    (hx : outcome Fault.sort x' = outcome Fault.sort x) :
    Likewise id (Build.ofExcept x w) (Build.ofExcept x' w') := by
  rcases outcome_eq_iff.mp hx with ⟨a, rfl, rfl⟩ | ⟨f, g, rfl, rfl, hsort⟩
  · exact .ok a h
  · exact .error hsort.symm h

theorem Lifted.fromStore {g : Store → Except Fault α} (h : Lifted id w w')
    (hg : outcome Fault.sort (g w'.store) = outcome Fault.sort (g w.store)) :
    Likewise id (Build.fromStore g w) (Build.fromStore g w') :=
  h.ofExcept hg

theorem Lifted.nodeText (h : Lifted id w w') (hnode : node ≠ id) :
    w'.store.nodeText node = w.store.nodeText node := by
  rw [h.store, h.aside.nodeText_recast hnode]

/-- Whether a build fails does not count for what comes after an attempt at it. -/
theorem Likewise.attempt {b b' : Build α} (h : Likewise id (b w) (b' w')) :
    ∃ answer answer', Build.attempt b w = .ok answer (b.after w) ∧
      Build.attempt b' w' = .ok answer' (b'.after w') ∧
      outcome Fault.sort answer = outcome Fault.sort answer' ∧ Lifted id (b.after w) (b'.after w') := by
  unfold Build.attempt Build.after
  generalize b w = x at h
  generalize b' w' = x' at h
  cases h with
  | ok a lifted => exact ⟨_, _, rfl, rfl, rfl, lifted⟩
  | error sort lifted => exact ⟨_, _, rfl, rfl, congrArg Except.error sort, lifted⟩

/-! ## One call -/

theorem Lifted.putAdditional (h : Lifted id w w') (hnode : node ≠ id) :
    Lifted id { w with store := w.store.putAdditional id (.node node) }
      { w' with store := w'.store.putAdditional id (.node node) } := by
  obtain ⟨r, hr, hkind⟩ := h.builder
  refine ⟨?_, h.models, ⟨_, Store.object?_modifyObject_of_some _ hr, hkind⟩,
    h.aside.putAdditional id hnode⟩
  rw [h.store]
  exact Store.modifyObject_recast w.store id id fun _ => rfl

theorem Lifted.setAdditional (h : Lifted id w w') (hnode : node ≠ id) :
    Likewise id (setAdditional id node w) (setAdditional id node w') := by
  refine (h.fromStore (by rw [h.nodeText hnode])).bind fun shown u u' _ hu => ?_
  have hstore : ∀ v : Workspace, Build.store v = .ok v.store v := fun _ => rfl
  rw [bind_of_ok (hstore u), bind_of_ok (hstore u')]
  -- the message names the class of the builder
  exact (hu.say _ _).bind fun _ _ _ _ hv => .ok () (hv.putAdditional hnode)

/-- The model of a builder is its own whatever its kind. -/
theorem Lifted.modelOf (h : Lifted id w w') : modelOf w'.store id = modelOf w.store id := by
  obtain ⟨r, hr, -⟩ := h.builder
  rw [Builder.modelOf, Builder.modelOf, h.store, Store.object?_recast, if_pos rfl, hr]
  rfl

theorem Lifted.checkModel (h : Lifted id w w') (hpath : ∀ name ∈ path, id ∉ name.nodes) :
    Likewise id (checkModel call id path w) (checkModel call id path w') := by
  obtain ⟨r, hr, -⟩ := h.builder
  unfold Builder.checkModel
  rw [h.modelOf, h.models, h.store]
  split
  · exact .ok () h
  · exact h.ofExcept (Catalog.outcome_check h.aside hr (modelLabel_alike h.aside hr) [] _ hpath)

theorem Lifted.place (h : Lifted id w w') (hnode : node ≠ id)
    (hpath : ∀ name ∈ path, id ∉ name.nodes) :
    Likewise id (place id path node w) (place id path node w') := by
  obtain ⟨r, hr, hkind⟩ := h.builder
  have hconflict : (w'.store.conflict? id [] path).map Fault.sort
      = (w.store.conflict? id [] path).map Fault.sort :=
    h.store ▸ h.aside.conflict?_recast hr id hpath
  cases hw : w.store.conflict? id [] path with
  | some f =>
    rw [hw] at hconflict
    obtain ⟨g, hg, hsort⟩ := Option.map_eq_some_iff.mp hconflict
    rw [place_of_conflict hw, place_of_conflict hg]
    exact .error hsort.symm h
  | none =>
    rw [hw] at hconflict
    have hw' : w'.store.conflict? id [] path = none := Option.map_eq_none_iff.mp hconflict
    rw [place_of_clear hw (Prod.eta _).symm, place_of_clear hw' (Prod.eta _).symm, h.store,
      Store.requirement_recast]
    generalize w.store.requirement node = flag
    obtain ⟨hstore, hplaced⟩ := Store.put_recast h.lt_size id path flag (.node node)
    obtain ⟨r', hr', henlarged⟩ := (w.store.enlarged_put id path flag (.node node)).kept id r hr
    have haside : (w.store.put id path flag (.node node)).1.Aside id :=
      h.aside.put h.lt_size id flag (fun hmem => hnode (List.mem_singleton.mp hmem).symm) hpath
    have hlifted : Lifted id { w with store := (w.store.put id path flag (.node node)).1 }
        { w' with store := ((w.store.recast id).put id path flag (.node node)).1 } :=
      ⟨hstore, h.models, ⟨r', hr', henlarged.kind.trans hkind⟩, haside⟩
    exact hlifted.ofExcept hplaced

theorem Lifted.putRule (h : Lifted id w w') (hnode : node ≠ id)
    (hpath : ∀ name ∈ path, id ∉ name.nodes) :
    Likewise id (putRule call id path node w) (putRule call id path node w') := by
  refine (h.checkModel hpath).bind fun _ u u' _ hu => ?_
  refine (hu.place hnode hpath).bind fun _ u u' _ hu => ?_
  refine (hu.fromStore (by rw [hu.nodeText hnode])).bind fun shown u u' _ hu => ?_
  refine (hu.fromStore ?_).bind fun _ u u' _ hu => ?_
  · rw [hu.store, hu.aside.pointer_recast hpath]
  · exact hu.say _ _

/-! ## Runs of calls -/

/-- A call of a run, the selector and the value of which are made for it. -/
def offer (call : Caller) (id : NodeId) (made : Build (Value × Value)) : Build Unit := do
  let (selector, value) ← made
  add call id selector value

/-- The answers to the calls of a run, one after the other; a call that fails does not end it. -/
def answers (call : Caller) (id : NodeId) :
    List (Build (Value × Value)) → Build (List (Except Fault Unit))
  | [] => pure []
  | made :: rest => do
    let answer ← attempt (offer call id made)
    return answer :: (← answers call id rest)

/-- The path and the rule that the selector and the value of a call stand for. -/
def meant (call : Caller) (made : Build (Value × Value)) : Build (List Value × NodeId) := do
  let (selector, value) ← made
  resolve call selector value

/-- A call stands for the same in two workspaces, or fails alike to stand for something, and what it
stands for does not hold the builder. -/
structure StandsAlike (call : Caller) (id : NodeId) (made : Build (Value × Value))
    (w w' : Workspace) : Prop where
  likewise : Likewise id (meant call made w) (meant call made w')
  apart : ∀ path node w₁, meant call made w = .ok (path, node) w₁ →
    node ≠ id ∧ ∀ name ∈ path, id ∉ name.nodes

/-- In two runs of calls, each call stands for the same when it is its turn. -/
def AllAlike (call : Caller) (id : NodeId) :
    List (Build (Value × Value)) → Workspace → Workspace → Prop
  | [], _, _ => True
  | made :: rest, w, w' => StandsAlike call id made w w' ∧
    AllAlike call id rest ((offer call id made).after w) ((offer call id made).after w')

theorem offer_eq (call : Caller) (id : NodeId) (made : Build (Value × Value)) :
    offer call id made = meant call made >>= fun found =>
      if found.1.isEmpty then setAdditional id found.2 else putRule call id found.1 found.2 := by
  rw [meant, bind_assoc]
  rfl

/-- A call that stands for the same in both workspaces ends alike in both. -/
theorem likewise_offer {made : Build (Value × Value)} (halike : StandsAlike call id made w w') :
    Likewise id (offer call id made w) (offer call id made w') := by
  rw [offer_eq]
  refine halike.likewise.bind fun found u u' hfound hu => ?_
  obtain ⟨hnode, hpath⟩ := halike.apart found.1 found.2 u hfound
  split
  · exact hu.setAdditional hnode
  · exact hu.putRule hnode hpath

/-- A run that stands for the same calls in both workspaces is answered alike in both. -/
theorem answers_alike {calls : List (Build (Value × Value))} (h : Lifted id w w')
    (halike : AllAlike call id calls w w') :
    ∃ as as' u u', answers call id calls w = .ok as u ∧ answers call id calls w' = .ok as' u' ∧
      as.map (outcome Fault.sort) = as'.map (outcome Fault.sort) ∧ Lifted id u u' := by
  induction calls generalizing w w' with
  | nil => exact ⟨[], [], w, w', rfl, rfl, rfl, h⟩
  | cons made rest ih =>
    obtain ⟨hmade, hrest⟩ := halike
    obtain ⟨answer, answer', hanswer, hanswer', hsame, hlifted⟩ :=
      (likewise_offer hmade).attempt
    obtain ⟨as, as', u, u', has, has', hall, hu⟩ := ih hlifted hrest
    refine ⟨answer :: as, answer' :: as', u, u', ?_, ?_, ?_, hu⟩
    · exact (bind_of_ok hanswer).trans (bind_of_ok has)
    · exact (bind_of_ok hanswer').trans (bind_of_ok has')
    · rw [List.map_cons, List.map_cons, hsame, hall]

end Builder

end DraftSchema
