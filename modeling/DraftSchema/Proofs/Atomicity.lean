import DraftSchema.Evaluation.Call
import DraftSchema.Proofs.Growth
import DraftSchema.Proofs.Output
import DraftSchema.Proofs.Resolution
import DraftSchema.Proofs.Spellable

/-!
# Failing calls

A call that fails leaves the workspace as it was when the path and the rule were known: the model and
the path are checked before anything is put. After these checks a rule can still be refused for four
reasons, which `Placeable` excludes; the log line comes last and its text may be one of them. A call
that breaks off there leaves behind what it has put.
-/

namespace DraftSchema

namespace Builder

open Build

variable {call : Caller} {id : NodeId} {selector value : Value} {w w' : Workspace}

/-- Nothing but what is in its way keeps a rule from being put under a path. -/
structure Placeable (s : Store) (id : NodeId) (path : List Value) (node : NodeId) : Prop where
  builder : ∃ r, s.object? id = some r
  /-- The names can be keys. -/
  names : ∀ name ∈ path, name.isHashable = true
  /-- The rule can be asked whether it is required. -/
  flag : ∃ b, (s.requirement node).truth = .ok b
  /-- The names can be looked for among the required ones. -/
  listable : s.listable id path = true
  /-- Once the rule is put the log can say so. -/
  reported : ∀ s', s.put id path (s.requirement node) (.node node) = (s', .ok ()) →
    ∃ shown pointer, s'.nodeText node = .ok shown ∧ s'.pointer path = .ok pointer

/-- A free path of a placeable rule takes it. -/
theorem Placeable.put {s : Store} {path : List Value} {node : NodeId}
    (h : Placeable s id path node) (hp : path ≠ []) (hclear : s.conflict? id [] path = none) :
    ∃ s', s.put id path (s.requirement node) (.node node) = (s', .ok ()) := by
  obtain ⟨r, hr⟩ := h.builder
  obtain ⟨b, hb⟩ := h.flag
  have hpasses := (Store.conflict?_eq_none_iff hp).mp hclear
  exact ⟨_, (Store.put_eq_ok_iff hpasses h.names hr).mpr ⟨b, hb, fun _ => h.listable, rfl⟩⟩

/-- How a call fails that had begun to put its rule: nothing was in its way, but the levels of the path
did not take the rule, or they did and the log could not say so, for a number with too many digits or
a rule that contains itself. -/
structure Broken (call : Caller) (id : NodeId) (path : List Value) (node : NodeId) (w : Workspace)
    (f : Fault) (w' : Workspace) : Prop where
  nonempty : path ≠ []
  check : checkModel call id path w = .ok () w
  clear : w.store.conflict? id [] path = none
  unplaceable : ¬ Placeable w.store id path node
  /-- What was put by then is left behind. -/
  left : ∃ s, w' = { w with store := s } ∧
    (w.store.put id path (w.store.requirement node) (.node node) = (s, .error f) ∨
      w.store.put id path (w.store.requirement node) (.node node) = (s, .ok ()) ∧
        (s.nodeText node = .error f ∨ s.pointer path = .error f) ∧
        (f = .tooManyDigits Whole.digitLimit none ∨
          f = .tooDeep ∧ ∃ c ∈ node :: Value.nodesOf path, ¬ s.Whole c))

/-- Once path and rule are known, a failing call changes nothing unless it had begun to put the
rule. -/
theorem Settled.error_eq {path : List Value} {node : NodeId} {f : Fault}
    (h : Settled call id path node w (.error f w')) : w' = w ∨ Broken call id path node w f w' := by
  cases h with
  | unshown => exact .inl rfl
  | undeclared => exact .inl rfl
  | conflict => exact .inl rfl
  | stuck hne hcheck hclear hput =>
    refine .inr ⟨hne, hcheck, hclear, fun hplace => ?_, _, rfl, .inl hput⟩
    obtain ⟨s', hs'⟩ := hplace.put hne hclear
    cases hput.symm.trans hs'
  | @unreported f s hne hcheck hclear hput hreport =>
    refine .inr ⟨hne, hcheck, hclear, fun hplace => ?_, s, rfl,
      .inr ⟨hput, hreport.imp_right And.right, ?_⟩⟩
    · obtain ⟨shown, pointer, hshown, hpointer⟩ := hplace.reported _ hput
      rcases hreport with h | ⟨-, h⟩
      · cases hshown.symm.trans h
      · cases hpointer.symm.trans h
    · rcases hreport with h | ⟨-, h⟩
      · exact (s.spellable_nodeText node f h).imp_right fun ⟨hdeep, hwhole⟩ =>
          ⟨hdeep, node, List.mem_cons_self, hwhole⟩
      · exact (s.spellable_pointer path f h).imp_right fun ⟨hdeep, c, hc, hwhole⟩ =>
          ⟨hdeep, c, List.mem_cons_of_mem _ hc, hwhole⟩

/-- A rule is the same in two workspaces, and gives the same in both. -/
structure SameRule (w w' : Workspace) (id : NodeId) : Prop where
  rule : w'.store.get? id = w.store.get? id
  document : w.store.Acyclic id → w'.store.document id = w.store.document id
  build : w.store.Acyclic id → (build id).result w' = (build id).result w
  json : w.store.Acyclic id → ∀ indent : Value, (∀ c ∈ indent.nodes, c < w.store.size) →
    (json id indent).result w' = (json id indent).result w

theorem sameRule_of_extends (hclosed : w.store.Closed) (h : w'.store.Extends w.store)
    (hid : id < w.store.size) : SameRule w w' id where
  rule := h.same id hid
  document ha := (Store.document_congr ha (h.agree hclosed hid)).symm
  build ha := result_build_congr ha (h.agree hclosed hid)
  json ha _ hindent :=
    result_json_congr ha (h.agree hclosed hid) fun c hc => (h.same c (hindent c hc)).symm

/-- A failing call ends in the workspace in which the functions among its selector and its value had
been run. If these left the rules there were as they were, so does the call, and every builder gives
what it gave before. It is otherwise only for a call that breaks off while it puts its rule. -/
theorem add_error_keeps {f : Fault} (hclosed : w.store.Closed)
    (hadd : add call id selector value w = .error f w') :
    (w' = (resolve call selector value).after w ∧
      (((resolve call selector value).after w).store.Extends w.store →
        ∀ other, other < w.store.size → SameRule w w' other)) ∨
    ∃ path node w₁, resolve call selector value w = .ok (path, node) w₁ ∧
      Broken call id path node w₁ f w' := by
  have hsame : w' = (resolve call selector value).after w →
      ((resolve call selector value).after w).store.Extends w.store →
        ∀ other, other < w.store.size → SameRule w w' other := by
    intro hw hkeeps other hother
    rw [← hw] at hkeeps
    exact sameRule_of_extends hclosed hkeeps hother
  cases hres : resolve call selector value w with
  | error g w₁ =>
    rw [add_of_unresolved hres] at hadd
    cases hadd
    exact .inl ⟨(after_of_error hres).symm, hsame (after_of_error hres).symm⟩
  | ok found w₁ =>
    obtain ⟨path, node⟩ := found
    have hsettled : Settled call id path node w₁ (add call id selector value w) := add_settled hres
    rw [hadd] at hsettled
    rcases hsettled.error_eq with hw | hbroken
    · have hafter : w' = (resolve call selector value).after w := hw.trans (after_of_ok hres).symm
      exact .inl ⟨hafter, hsame hafter⟩
    · exact .inr ⟨path, node, w₁, rfl, hbroken⟩

/-- A builder in which the property `x` is a truth value. -/
def withFlag : Workspace :=
  { store := ⟨[
      ⟨.object { kind := .schema, model := .null, properties := [(.text "x", .node 1)],
                 required := [.text "x"], additional := none }, .bool true⟩,
      ⟨.boolean (some [.bool true]), .bool true⟩]⟩ }

/-- A path through the truth value is refused, and the builder gives what it gave before. -/
theorem add_error_keeps_conflict :
    ∃ f w', add Build.call 0 (.list 0 [.text "x", .text "y"]) (.int 1) withFlag = .error f w' ∧
      SameRule withFlag w' 0 := by
  have hclosed : withFlag.store.Closed := by unfold Store.Closed; decide
  obtain ⟨f, w', hadd⟩ : ∃ f w',
      add Build.call 0 (.list 0 [.text "x", .text "y"]) (.int 1) withFlag = .error f w' :=
    ⟨_, _, rfl⟩
  have hres : resolve Build.call (.list 0 [.text "x", .text "y"]) (.int 1) withFlag
      = .ok ([.text "x", .text "y"], 2) _ := rfl
  refine ⟨f, w', hadd, ?_⟩
  rcases add_error_keeps hclosed hadd with ⟨-, hsame⟩ | ⟨path, node, w₁, h, hbroken⟩
  · refine hsame ?_ 0 (by decide)
    exact keeps_resolve (Value.harmless_of_not_callable rfl) (Value.harmless_of_not_callable rfl) _
  · -- the truth value is in the way
    cases hres.symm.trans h
    cases hbroken.clear

/-- What a failing build leaves behind. -/
def failed? {α : Type} (b : Build α) (w : Workspace) : Option Workspace :=
  match b w with
  | .ok .. => none
  | .error _ w' => some w'

/-- A selector that is a function may itself put a rule before it is refused: the call fails, and
the rule stays. A number with too many digits is put before the log fails to show it. -/
theorem add_error_changes :
    (withFlag.store.child? 0 (.text "a") = none ∧
      ∃ f w', add Build.call 0
          (.function 0 (.call (.attr (.const (.ref "b")) "with_")
            [.const (.list [.text "a"]), .const (.int 1)]))
          (.int 1) { withFlag with vars := [("b", ⟨.node 0, 0⟩)] } = .error f w' ∧
        w'.store.child? 0 (.text "a") = some (.node 2)) ∧
    ((failed? (add Build.call 0 (.list 0 [.text "a"]) (.int (Nat.pow 10 4300))) withFlag).bind
      fun w' => w'.store.child? 0 (.text "a")).isSome = true :=
  ⟨⟨rfl, _, _, rfl, rfl⟩, by decide +kernel⟩

end Builder

end DraftSchema
