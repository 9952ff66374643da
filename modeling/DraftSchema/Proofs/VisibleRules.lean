import DraftSchema.Proofs.Reading

/-!
# What is in sight of a rule

A rule is shown with few of the rules that it refers to: those for the elements of an array, the one
for every key of an object, the one that is negated and, in detail, those that are combined. It can
be shown if these can, and its own names and numbers.
-/

namespace DraftSchema

/-- A value that can be shown inside others, whatever rules are shown as. -/
def Value.Showable (v : Value) : Prop := ∀ detail, ∃ text, v.quoted detail = .ok text

theorem Value.showable_text (name : String) : (Value.text name).Showable := fun _ => ⟨_, rfl⟩

theorem Value.quotedAll_showable (detail : NodeId → Except Fault String) {names : List Value}
    (h : ∀ k ∈ names, k.Showable) : ∃ texts, Value.quotedAll detail names = .ok texts := by
  induction names with
  | nil => exact ⟨[], rfl⟩
  | cons k names ih =>
    obtain ⟨text, htext⟩ := h k List.mem_cons_self detail
    obtain ⟨texts, htexts⟩ := ih fun k hk => h k (List.mem_cons_of_mem _ hk)
    exact ⟨_, by rw [Value.quotedAll, htext, htexts]; rfl⟩

/-- The rules that the elements of an array are shown with, each with whether it is shown in detail. -/
def Items.visible : Items → List (Bool × NodeId)
  | .free => []
  | .every child => [(false, child)]
  | .each children => children.map (true, ·)

/-- The rules that an object is shown with. -/
def ObjectRule.visible (r : ObjectRule) : List (Bool × NodeId) :=
  match r.additional with
  | some (.node child) => [(false, child)]
  | _ => []

namespace Rule

/-- The rules that a rule is shown with, alone or in detail, each with whether it is itself shown in
detail. -/
def visible (detail : Bool) : Rule → List (Bool × NodeId)
  | .array r => r.items.visible
  | .object r => r.visible
  | .combinator _ children => if detail then children.map (false, ·) else []
  | .negation child => [(false, child)]
  | _ => []

end Rule

section

variable {e : Bool × NodeId}

theorem Items.mem_children_of_visible {items : Items} (he : e ∈ items.visible) :
    e.2 ∈ items.children := by
  cases items with
  | free => cases he
  | every child =>
    cases List.mem_singleton.mp he
    exact List.mem_singleton.mpr rfl
  | each children =>
    obtain ⟨c, hc, rfl⟩ := List.mem_map.mp he
    exact hc

/-- An object is shown with the rule for every key alone. -/
theorem ObjectRule.mem_visible {r : ObjectRule} :
    e ∈ r.visible ↔ ∃ c, r.additional = some (.node c) ∧ e = (false, c) := by
  unfold visible
  split
  · rename_i child hchild
    simp [hchild]
  · rename_i hnone
    exact ⟨fun he => absurd he List.not_mem_nil, fun ⟨c, hc, _⟩ => absurd hc (hnone c)⟩

theorem Rule.mem_children_of_visible {detail : Bool} {kind : CombinatorKind} {children : List NodeId}
    (he : e ∈ (Rule.combinator kind children).visible detail) : e.2 ∈ children := by
  simp only [visible] at he
  split at he
  · obtain ⟨c, hc, rfl⟩ := List.mem_map.mp he
    exact hc
  · cases he

/-- A rule is shown with rules that it refers to. -/
theorem Rule.mem_references_of_visible {detail : Bool} {rule : Rule} (he : e ∈ rule.visible detail) :
    e.2 ∈ rule.references := by
  cases rule with
  | string | number | boolean => cases he
  | array r => exact List.mem_append_right _ (Items.mem_children_of_visible he)
  | object r =>
    obtain ⟨c, hc, rfl⟩ := ObjectRule.mem_visible.mp he
    simp [references, ObjectRule.references, hc, Value.nodesOf, Value.nodes]
  | combinator kind children => exact List.mem_append_right _ (mem_children_of_visible he)
  | negation child =>
    cases List.mem_singleton.mp he
    exact List.mem_append_right _ (List.mem_singleton.mpr rfl)

end

namespace Store

variable {plain inner : NodeId → Except Fault String} {detail : Bool} {rule : Rule} {bound : Nat}

theorem mapM_ok_iff {α β ε : Type} {g : α → Except ε β} {xs : List α} :
    (∃ ys, xs.mapM g = .ok ys) ↔ ∀ x ∈ xs, ∃ y, g x = .ok y := by
  induction xs with
  | nil => exact ⟨fun _ _ h => absurd h List.not_mem_nil, fun _ => ⟨[], rfl⟩⟩
  | cons x xs ih =>
    rw [List.mapM_cons, List.forall_mem_cons, ← ih]
    constructor
    · rintro ⟨ys, h⟩
      obtain ⟨y, hy, h⟩ := except_bind_eq_ok.mp h
      obtain ⟨rest, hrest, -⟩ := except_bind_eq_ok.mp h
      exact ⟨⟨y, hy⟩, rest, hrest⟩
    · rintro ⟨⟨y, hy⟩, rest, hrest⟩
      exact ⟨y :: rest, except_bind_eq_ok.mpr ⟨y, hy, except_bind_eq_ok.mpr ⟨rest, hrest, rfl⟩⟩⟩

theorem shownParts_ok_iff {shown : Value → Except Fault String} {es : Entries String Value} :
    (∃ parts, shownParts shown es = .ok parts) ↔ ∀ e ∈ es, ∃ text, shown e.2 = .ok text := by
  induction es with
  | nil => exact ⟨fun _ _ h => absurd h List.not_mem_nil, fun _ => ⟨[], rfl⟩⟩
  | cons e es ih =>
    rw [List.forall_mem_cons, ← ih]
    constructor
    · rintro ⟨parts, h⟩
      obtain ⟨text, htext, h⟩ := except_bind_eq_ok.mp h
      obtain ⟨rest, hrest, -⟩ := except_bind_eq_ok.mp h
      exact ⟨⟨text, htext⟩, rest, hrest⟩
    · rintro ⟨⟨text, htext⟩, rest, hrest⟩
      exact ⟨_, except_bind_eq_ok.mpr ⟨text, htext, except_bind_eq_ok.mpr ⟨rest, hrest, rfl⟩⟩⟩

/-- What is in sight can be shown. -/
def Seen (plain inner : NodeId → Except Fault String) (sight : List (Bool × NodeId)) : Prop :=
  ∀ e ∈ sight, ∃ text, (if e.1 then inner else plain) e.2 = .ok text

theorem seen_plain {child : NodeId} :
    Seen plain inner [(false, child)] ↔ ∃ text, plain child = .ok text := by
  simp [Seen]

theorem itemsParts_ok_iff (items : Items) :
    (∃ parts, itemsParts plain inner items = .ok parts) ↔ Seen plain inner items.visible := by
  cases items with
  | free => exact ⟨fun _ _ h => absurd h List.not_mem_nil, fun _ => ⟨[], rfl⟩⟩
  | every child =>
    rw [Items.visible, seen_plain]
    constructor
    · rintro ⟨parts, h⟩
      obtain ⟨text, htext, -⟩ := except_bind_eq_ok.mp h
      exact ⟨text, htext⟩
    · rintro ⟨text, htext⟩
      exact ⟨_, except_bind_eq_ok.mpr ⟨text, htext, rfl⟩⟩
  | each children =>
    have hall : Seen plain inner (Items.each children).visible ↔
        ∀ c ∈ children, ∃ text, inner c = .ok text := by simp [Seen, Items.visible]
    rw [hall, ← mapM_ok_iff]
    constructor
    · rintro ⟨parts, h⟩
      obtain ⟨texts, htexts, -⟩ := except_bind_eq_ok.mp h
      exact ⟨texts, htexts⟩
    · rintro ⟨texts, htexts⟩
      exact ⟨_, except_bind_eq_ok.mpr ⟨texts, htexts, rfl⟩⟩

theorem childrenText_ok_iff (plain inner : NodeId → Except Fault String) (detail : Bool)
    (children : List NodeId) :
    (∃ text, childrenText plain detail children = .ok text) ↔
      Seen plain inner (if detail then children.map (false, ·) else []) := by
  cases detail with
  | false => exact ⟨fun _ _ h => absurd h List.not_mem_nil, fun _ => ⟨_, rfl⟩⟩
  | true =>
    have hall : Seen plain inner (children.map (false, ·)) ↔
        ∀ c ∈ children, ∃ text, plain c = .ok text := by simp [Seen]
    rw [if_pos rfl, hall, ← mapM_ok_iff]
    constructor
    · rintro ⟨text, h⟩
      obtain ⟨texts, htexts, -⟩ := except_bind_eq_ok.mp h
      exact ⟨texts, htexts⟩
    · rintro ⟨texts, htexts⟩
      exact ⟨_, except_bind_eq_ok.mpr ⟨texts, htexts, rfl⟩⟩

/-- An object whose names can be shown can be shown if the rule for every key can. -/
theorem shownOf_object_iff {r : ObjectRule} (hnames : ∀ k ∈ r.properties.keys, k.Showable)
    (hrequired : ∀ k ∈ r.required, k.Showable)
    (hadditional : ∀ v, r.additional = some v → ∃ c, v = .node c) :
    (∃ text, shownOf plain inner detail (.object r) = .ok text) ↔ Seen plain inner r.visible := by
  obtain ⟨names, hnames⟩ : ∃ names, propertyParts inner r.properties.keys = .ok names := by
    obtain ⟨texts, htexts⟩ := Value.quotedAll_showable inner hnames
    rw [propertyParts]
    split
    · exact ⟨_, rfl⟩
    · exact ⟨_, except_bind_eq_ok.mpr ⟨texts, htexts, rfl⟩⟩
  have hrequired : ∀ e ∈ partEntry "required" r.requiredPart, ∃ text,
      e.2.shown plain inner = .ok text := by
    intro e he
    obtain ⟨texts, htexts⟩ := Value.quotedAll_showable inner hrequired
    have hpart := mem_partEntry he
    rw [ObjectRule.requiredPart] at hpart
    split at hpart
    · cases hpart
    · rw [← Option.some.inj hpart]
      exact ⟨_, except_bind_eq_ok.mpr ⟨texts, htexts, rfl⟩⟩
  have hparts : (∃ text, shownOf plain inner detail (.object r) = .ok text) ↔
      ∃ rest, shownParts (Value.shown plain inner) (partEntry "required" r.requiredPart
        ++ partEntry "additional_properties" r.additional) = .ok rest := by
    constructor
    · rintro ⟨text, h⟩
      obtain ⟨_, -, h⟩ := except_bind_eq_ok.mp h
      obtain ⟨rest, hrest, -⟩ := except_bind_eq_ok.mp h
      exact ⟨rest, hrest⟩
    · rintro ⟨rest, hrest⟩
      exact ⟨_, except_bind_eq_ok.mpr ⟨names, hnames, except_bind_eq_ok.mpr ⟨rest, hrest, rfl⟩⟩⟩
  rw [hparts, shownParts_ok_iff, List.forall_mem_append, and_iff_right hrequired,
    ObjectRule.visible]
  cases hr : r.additional with
  | none => simp [partEntry, Seen]
  | some v =>
    obtain ⟨c, rfl⟩ := hadditional v hr
    simp [partEntry, Seen, Value.shown]

end Store

end DraftSchema
