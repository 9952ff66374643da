import DraftSchema.Evaluation.Call
import DraftSchema.Proofs.Document
import DraftSchema.Proofs.Growth
import DraftSchema.Proofs.Resolution

/-!
# Successful calls

After a call that succeeds the rule is found where the path leads: by following properties from the
builder, and in the builder's document by following the documents of properties. The names of the
path are listed as required on every level, if the rule is required.
-/

namespace DraftSchema

namespace Store

/-- A path of properties leads from an object to a rule, through objects that accept properties. -/
inductive Leads (s : Store) : NodeId → List Value → NodeId → Prop
  | last {id m : NodeId} {r : ObjectRule} {name : Value} (object : s.object? id = some r)
      (child : r.properties.get? name = some (.node m)) : Leads s id [name] m
  | more {id c m : NodeId} {r rc : ObjectRule} {name : Value} {rest : List Value}
      (object : s.object? id = some r) (child : r.properties.get? name = some (.node c))
      (entered : s.object? c = some rc) (accepts : rc.kind.acceptsProperties = true)
      (next : Leads s c rest m) : Leads s id (name :: rest) m

theorem Leads.follow? {s : Store} {id m : NodeId} {path : List Value} (h : s.Leads id path m) :
    s.follow? (.node id) path = some (.node m) := by
  induction h with
  | last hr hchild =>
    simp only [Store.follow?, child?_of_get? hr hchild]
    rfl
  | more hr hchild _ _ _ ih =>
    rw [Store.follow?, child?_of_get? hr hchild]
    exact ih

/-- The document of a rule that a path leads to stands in the document of the object that the path
starts from, under the names of the path. -/
theorem Leads.property? {s : Store} {id m : NodeId} {path : List Value} {r : ObjectRule}
    (h : s.Leads id path m) (hr : s.object? id = some r) {n : Nat} {d : Value}
    (hd : s.documentWithin n id = .ok d) :
    ∃ k dm, k ≤ n ∧ s.documentWithin k m = .ok dm ∧
      (body r.kind d).bind (Draft04.property? · path) = some dm := by
  induction h generalizing n d r with
  | last hobj hchild =>
    cases hr.symm.trans hobj
    obtain ⟨k, dc, rfl, hdc, hbody⟩ := property_of_child (object?_eq_some.mp hr) hchild hd
    exact ⟨k, dc, Nat.le_succ k, hdc, hbody []⟩
  | @more _ _ _ _ rc _ _ hobj hchild hentered haccepts _ ih =>
    cases hr.symm.trans hobj
    obtain ⟨k, dc, rfl, hdc, hbody⟩ := property_of_child (object?_eq_some.mp hr) hchild hd
    obtain ⟨j, dm, hj, hdm, hrest⟩ := ih hentered hdc
    refine ⟨j, dm, hj.trans (Nat.le_succ k), hdm, ?_⟩
    rw [hbody, ← hrest, body_of_accepts haccepts, Option.bind_some]

variable {flag : Bool} {s s' : Store} {id m : NodeId} {path : List Value}

/-- After growth the path leads to what was put. -/
theorem Grows.leads (h : Grows flag (.node m) s id path s') (ha : s.Acyclic id) :
    s'.Leads id path m := by
  induction h with
  | @last s id r name hr =>
    refine .last (object?_modifyObject_of_some _ hr) ?_
    rw [ObjectRule.mark_properties, ObjectRule.setProperty_properties, Entries.get?_set_self]
  | @more s s₁ s' id c r name rest hr hentered hrest hnext ih =>
    obtain ⟨rc, hrc, haccepts⟩ := hentered.object?_entered hr
    obtain ⟨rc', hrc', hframe⟩ := hnext.object? (object?_mark_of_some flag id name hrc)
    -- an object that was entered accepts properties, and growth below it keeps its kind
    have hkind : rc'.kind.acceptsProperties = true := by
      rw [hframe.kind]
      split
      · rw [ObjectRule.mark_kind, haccepts]
      · exact haccepts
    have hnext' := ih (hentered.acyclic hr ha flag).1
    rcases hnext.object?_of_entered hentered hr ha with ⟨hobj, hchild⟩ | ⟨hobj, -⟩
    · refine .more hobj ?_ hrc' hkind hnext'
      rw [ObjectRule.mark_properties]
      exact get?_of_child? hr hchild
    · refine .more hobj ?_ hrc' hkind hnext'
      rw [ObjectRule.mark_properties, ObjectRule.setProperty_properties, Entries.get?_set_self]

/-- After growth with the flag set, each name of the path is listed on its level. -/
theorem Grows.requires (h : Grows true (.node m) s id path s') (ha : s.Acyclic id)
    {before after : List Value} {name : Value} (hpath : path = before ++ name :: after) :
    ∃ x r, s'.follow? (.node id) before = some (.node x) ∧ s'.object? x = some r ∧
      r.requires name = true := by
  induction h generalizing before with
  | @last s id r other hr =>
    obtain ⟨rfl, rfl, -⟩ : before = [] ∧ other = name ∧ after = [] := by
      cases before <;> simp_all
    exact ⟨id, _, rfl, object?_modifyObject_of_some _ hr,
      ((r.setProperty other (.node m))).requires_mark other⟩
  | @more s s₁ s' id c r other rest hr hentered hrest hnext ih =>
    -- the name is that of this level, or of a level below
    cases before with
    | nil =>
      obtain ⟨rfl, rfl⟩ : other = name ∧ rest = after := by simpa using hpath
      rcases hnext.object?_of_entered hentered hr ha with ⟨hobj, -⟩ | ⟨hobj, -⟩
      · exact ⟨id, _, rfl, hobj, r.requires_mark other⟩
      · exact ⟨id, _, rfl, hobj, ObjectRule.requires_mark _ other⟩
    | cons first before =>
      obtain ⟨rfl, hbelow⟩ := List.cons.inj hpath
      obtain ⟨x, rx, hfollow, hx, hreq⟩ := ih (hentered.acyclic hr ha true).1 hbelow
      refine ⟨x, rx, ?_, hx, hreq⟩
      rw [Store.follow?, hnext.child?_of_entered hentered hr ha]
      exact hfollow

/-- After growth with the flag not set, the required names are what they were, and new objects
require nothing. -/
theorem Grows.required (h : Grows false (.node m) s id path s') {x : NodeId} {r' : ObjectRule}
    (hx : s'.object? x = some r') :
    (∃ r, s.object? x = some r ∧ r'.required = r.required) ∨ s.size ≤ x ∧ r'.required = [] := by
  induction h with
  | @last s id r name hr =>
    rw [object?_modifyObject] at hx
    split at hx
    · subst x
      rw [hr, Option.map_some] at hx
      cases hx
      exact .inl ⟨r, hr, rfl⟩
    · exact .inl ⟨r', hx, rfl⟩
  | @more s s₁ s' id c r name rest hr hentered _ _ ih =>
    rcases ih hx with ⟨r₁, hr₁, hreq⟩ | ⟨hsize, hreq⟩
    · rw [mark_false] at hr₁
      cases hentered with
      | there => exact .inl ⟨r₁, hr₁, hreq⟩
      | made =>
        -- it is the object of this level, the one just made, or neither
        rw [object?_fill name hr] at hr₁
        split at hr₁
        · subst x
          cases hr₁
          exact .inl ⟨r, hr, hreq⟩
        · split at hr₁
          · rename_i hnew
            cases hr₁
            exact .inr ⟨Nat.le_of_eq hnew.symm, hreq⟩
          · exact .inl ⟨r₁, hr₁, hreq⟩
    · rw [mark_false] at hsize
      exact .inr ⟨hentered.size_le.trans hsize, hreq⟩

end Store

namespace Builder

open Build

variable {call : Caller} {id node : NodeId} {selector value : Value} {path : List Value}
  {w w₁ w' : Workspace}

/-- A rule that is given stands for itself. -/
theorem resolve_node {m : NodeId} (h : resolve call selector (.node m) w = .ok (path, node) w₁) :
    node = m := by
  obtain ⟨found, w₂, -, hrest⟩ := bind_eq_ok.mp h
  cases hrest
  rfl

theorem object?_of_isBuilder {s : Store} (h : isBuilder s id = true) :
    ∃ r, s.object? id = some r ∧ r.kind ≠ .plain := by
  unfold isBuilder at h
  split at h
  · exact ⟨_, ‹_›, by simpa using h⟩
  · cases h

/-- A call that succeeds with a path makes the store grow along it. -/
theorem grows_of_add (hp : path ≠ []) (hres : resolve call selector value w = .ok (path, node) w₁)
    (hbuilder : isBuilder w₁.store id = true) (hadd : add call id selector value w = .ok () w') :
    ∃ b, (w₁.store.requirement node).truth = .ok b ∧
      Store.Grows b (.node node) w₁.store id path w'.store := by
  have hsettled : Settled call id path node w₁ (add call id selector value w) := add_settled hres
  obtain ⟨r, hr, -⟩ := object?_of_isBuilder hbuilder
  rw [hadd] at hsettled
  cases hsettled with
  | additional hempty => exact absurd hempty hp
  | put _ _ hclear hput => exact Store.grows_of_put hp hclear hr hput

/-- Getting after setting. Following the path of a successful call leads to the rule that was put;
its names are listed as required on every level if the rule is required, and otherwise nothing is
listed that was not; and the document of the rule stands in the document of the builder, where the
path leads. -/
theorem add_get (hres : resolve call selector value w = .ok (path, node) w₁) (hp : path ≠ [])
    (hbuilder : isBuilder w₁.store id = true) (hacyclic : w₁.store.Acyclic id)
    (hadd : add call id selector value w = .ok () w') :
    ((∀ m, value = .node m → node = m) ∧
      w'.store.follow? (.node id) path = some (.node node)) ∧
    (∃ required, (w₁.store.requirement node).truth = .ok required ∧
      (required = true → ∀ before name after, path = before ++ name :: after →
        ∃ x r, w'.store.follow? (.node id) before = some (.node x) ∧
          w'.store.object? x = some r ∧ r.requires name = true) ∧
      (required = false → ∀ x r', w'.store.object? x = some r' →
        (∃ r, w₁.store.object? x = some r ∧ r'.required = r.required) ∨
          w₁.store.size ≤ x ∧ r'.required = [])) ∧
    (∀ d, w'.store.document id = .ok d → ∃ r dn, w₁.store.object? id = some r ∧
      w'.store.document node = .ok dn ∧
      (Store.body r.kind d).bind (Draft04.property? · path) = some dn) := by
  obtain ⟨b, hb, hgrows⟩ := grows_of_add hp hres hbuilder hadd
  have hleads := hgrows.leads hacyclic
  refine ⟨⟨?_, hleads.follow?⟩, ⟨b, hb, ?_, ?_⟩, ?_⟩
  · rintro m rfl
    exact resolve_node hres
  · rintro rfl before name after hpath
    exact hgrows.requires hacyclic hpath
  · rintro rfl x r' hx
    exact hgrows.required hx
  · intro d hd
    obtain ⟨r, hr, -⟩ := object?_of_isBuilder hbuilder
    obtain ⟨r', hr', hframe⟩ := hgrows.object? hr
    obtain ⟨k, dn, hk, hdn, hfound⟩ := hleads.property? hr' hd
    refine ⟨r, dn, hr, Store.documentWithin_mono hdn hk, ?_⟩
    rw [← hframe.kind]
    exact hfound

/-- A dictionary with an object under the name `a`. -/
def withObject : Workspace :=
  { store := ⟨[
      ⟨.object { kind := .dictionary, model := .null, properties := [(.text "a", .node 1)],
                 required := [], additional := none }, .bool true⟩,
      ⟨.object .empty, .bool true⟩]⟩ }

/-- Along a path of which the first object is there, the second is made. -/
theorem add_get_nested :
    ∃ w', add Build.call 0 (.list 0 [.text "a", .text "b", .text "c"]) (.bool true) withObject
        = .ok () w' ∧
      w'.store.follow? (.node 0) [.text "a", .text "b", .text "c"] = some (.node 2) := by
  obtain ⟨w', hadd⟩ : ∃ w', add Build.call 0 (.list 0 [.text "a", .text "b", .text "c"])
      (.bool true) withObject = .ok () w' := ⟨_, rfl⟩
  have hres : resolve Build.call (.list 0 [.text "a", .text "b", .text "c"]) (.bool true) withObject
      = .ok ([.text "a", .text "b", .text "c"], 2) _ := rfl
  refine ⟨w', hadd, (add_get hres (by simp) rfl ?_ hadd).1.2⟩
  exact Store.acyclic_of_rank (fun id => 1 - id) (by decide) 0

/-- A builder without rules, in a variable. -/
def alone : Workspace :=
  { store := ⟨[⟨.object { ObjectRule.empty with kind := .schema }, .bool true⟩]⟩
    vars := [("b", ⟨.node 0, 0⟩)] }

/-- A selector that puts the builder in the variable under the name `x` of itself, and then stands
for a path of three such names. -/
def roundTrip : Value :=
  .function 0 (.and
    (.call (.attr (.const (.ref "b")) "with_") [.const (.list [.text "x"]), .const (.ref "b")])
    (.attr (.attr (.attr .arg "x") "x") "x"))

/-- A selector may itself make the builder cyclic. The path that it stands for then goes round
through the builder, where its last name replaces what its first one led to. -/
theorem add_get_lost :
    alone.store.Acyclic 0 ∧ ∃ path node w₁ w',
      resolve Build.call roundTrip (.bool true) alone = .ok (path, node) w₁ ∧
      add Build.call 0 roundTrip (.bool true) alone = .ok () w' ∧
      w'.store.follow? (.node 0) path ≠ some (.node node) := by
  refine ⟨Store.acyclic_of_rank (fun _ => 0) (by decide) 0, _, _, _, _, rfl, rfl, ?_⟩
  intro h
  cases h

end Builder

end DraftSchema
