import DraftSchema.Proofs.Document
import DraftSchema.Proofs.Shape
import DraftSchema.Proofs.StoredEntries
import DraftSchema.Proofs.VisibleRules

/-!
# Rules that can be shown

A rule cannot be shown where a number in sight of it has too many digits. In sight are the rules for
the elements of an array, the one for every key of an object, and the one that is negated; of other
rules only names and numbers are shown. For the acyclic rules of a tidy store whose names can be
shown nothing else is in the way. That what is in sight of each object is legible is kept by calls,
be there cycles or not.
-/

namespace DraftSchema

namespace Rule

/-- A rule can be shown if the rules in sight can. -/
def Legible (rule : Rule) : Prop :=
  ∃ text, Store.shownOf (fun _ => .ok "") (fun _ => .ok "") false rule = .ok text

end Rule

namespace Store

variable {plain inner : NodeId → Except Fault String} {detail : Bool} {rule : Rule} {bound : Nat}

/-- How a rule without rules inside is shown depends on nothing else. -/
theorem shownOf_of_no_references (h : rule.references = [])
    (hcombinator : ∀ kind children, rule ≠ .combinator kind children) :
    shownOf plain inner detail rule = shownOf (fun _ => .ok "") (fun _ => .ok "") false rule := by
  have hdetail : shownOf plain inner detail rule = shownOf plain inner false rule := by
    cases rule with
    | combinator kind children => exact absurd rfl (hcombinator kind children)
    | _ => rfl
  rw [hdetail]
  refine shownOf_congr false rule fun c hc => ?_
  rw [h] at hc
  cases hc

/-- An array can be shown if its lengths and what is in sight of its elements can. -/
theorem shownOf_array_iff (plain inner : NodeId → Except Fault String) (detail : Bool)
    (b : LengthBounds) (items : Items) :
    (∃ text, shownOf plain inner detail (.array { ArrayRule.ofLengths b with items }) = .ok text) ↔
      (∀ n : Nat, b.least = some n ∨ b.most = some n → ∃ text, Whole.text n = .ok text) ∧
        Seen plain inner items.visible := by
  have hlengths : (∃ parts, shownParts (Value.shown plain inner)
      (partEntry "min_items" (lengthValue b.least) ++ partEntry "max_items" (lengthValue b.most)
        ++ partEntry "unique_items" none) = .ok parts) ↔
      ∀ n : Nat, b.least = some n ∨ b.most = some n → ∃ text, Whole.text n = .ok text := by
    rw [shownParts_ok_iff]
    obtain ⟨least, most⟩ := b
    cases least <;> cases most <;>
      simp [lengthValue, partEntry, Value.shown, Value.quoted, or_imp, forall_and]
  rw [← itemsParts_ok_iff, ← hlengths]
  constructor
  · rintro ⟨text, h⟩
    obtain ⟨lengths, hlengths, h⟩ := except_bind_eq_ok.mp h
    obtain ⟨parts, hparts, -⟩ := except_bind_eq_ok.mp h
    exact ⟨⟨lengths, hlengths⟩, parts, hparts⟩
  · rintro ⟨⟨lengths, hlengths⟩, parts, hparts⟩
    exact ⟨_, except_bind_eq_ok.mpr ⟨lengths, hlengths, except_bind_eq_ok.mpr ⟨parts, hparts, rfl⟩⟩⟩

theorem seen_blank (sight : List (Bool × NodeId)) : Seen (fun _ => .ok "") (fun _ => .ok "") sight := by
  intro e _
  cases e.1 <;> exact ⟨"", rfl⟩

theorem shownOf_tidy_object_iff {r : ObjectRule} (h : (Rule.object r).Tidy Value.Showable bound) :
    (∃ text, shownOf plain inner detail (.object r) = .ok text) ↔ Seen plain inner r.visible := by
  cases h with
  | object properties additional required =>
    refine shownOf_object_iff (fun k hk => ?_) required fun v hv => ?_
    · obtain ⟨v, hv⟩ := Entries.mem_keys.mp hk
      exact (properties k v hv).1
    · obtain ⟨c, -, hc⟩ := additional v hv
      exact ⟨c, hc⟩

/-- A tidy rule whose names can be shown can be shown if it is legible and what is in sight can. -/
theorem shownOf_ok_iff (h : rule.Tidy Value.Showable bound) :
    (∃ text, shownOf plain inner detail rule = .ok text) ↔
      rule.Legible ∧ Seen plain inner (rule.visible detail) := by
  have hself := h
  cases h with
  | pattern | literal | truth =>
    rw [shownOf_of_no_references rfl (by simp)]
    exact ⟨fun h => ⟨h, fun _ h => absurd h List.not_mem_nil⟩, And.left⟩
  | @number b least most =>
    rw [shownOf_of_no_references (Construction.references_ofBounds (Value.nodes_of_bound least)
      (Value.nodes_of_bound most)) (by simp)]
    exact ⟨fun h => ⟨h, fun _ h => absurd h List.not_mem_nil⟩, And.left⟩
  | @array b items known =>
    have hiff := fun plain inner detail => shownOf_array_iff plain inner detail b items
    rw [hiff]
    exact ⟨fun h => ⟨(hiff ..).mpr ⟨h.1, seen_blank _⟩, h.2⟩, fun h => ⟨((hiff ..).mp h.1).1, h.2⟩⟩
  | @object r =>
    rw [shownOf_tidy_object_iff hself]
    exact ⟨fun h => ⟨(shownOf_tidy_object_iff hself).mpr (seen_blank _), h⟩, And.right⟩
  | @combinator kind children =>
    have hiff : ∀ {plain inner detail},
        (∃ text, shownOf plain inner detail (.combinator kind children) = .ok text) ↔
          ∃ text, childrenText plain detail children = .ok text := by
      intro plain inner detail
      constructor
      · rintro ⟨text, h⟩
        obtain ⟨texts, htexts, -⟩ := except_bind_eq_ok.mp h
        exact ⟨texts, htexts⟩
      · rintro ⟨texts, htexts⟩
        exact ⟨_, except_bind_eq_ok.mpr ⟨texts, htexts, rfl⟩⟩
    rw [hiff, childrenText_ok_iff plain inner]
    exact ⟨fun h => ⟨hiff.mpr ⟨_, rfl⟩, h⟩, And.right⟩
  | @negation child =>
    have hiff : ∀ {plain inner detail}, (∃ text, shownOf plain inner detail (.negation child) = .ok text) ↔
        Seen plain inner [(false, child)] := by
      intro plain inner detail
      rw [seen_plain]
      constructor
      · rintro ⟨text, h⟩
        obtain ⟨shown, hshown, -⟩ := except_bind_eq_ok.mp h
        exact ⟨shown, hshown⟩
      · rintro ⟨shown, hshown⟩
        exact ⟨_, except_bind_eq_ok.mpr ⟨shown, hshown, rfl⟩⟩
    rw [hiff]
    exact ⟨fun h => ⟨hiff.mpr (seen_blank _), h⟩, And.right⟩

/-! ## In sight at any depth -/

/-- A rule is in sight of another one, be it through others, or is that one. Each comes with whether
it is shown in detail. -/
inductive InSight (s : Store) : Bool × NodeId → Bool × NodeId → Prop
  | refl (e : Bool × NodeId) : InSight s e e
  | step {e e' e'' : Bool × NodeId} {node : Node} (there : s.get? e.2 = some node)
      (next : e' ∈ node.rule.visible e.1) (rest : InSight s e' e'') : InSight s e e''

/-- All rules in sight of a rule are legible. -/
def Readable (s : Store) (e : Bool × NodeId) : Prop :=
  ∀ e', s.InSight e e' → ∀ node, s.get? e'.2 = some node → node.rule.Legible

variable {s s' : Store} {n : Nat} {id : NodeId} {node : Node} {e : Bool × NodeId}

theorem readable_iff (hnode : s.get? e.2 = some node) :
    s.Readable e ↔ node.rule.Legible ∧ ∀ e' ∈ node.rule.visible e.1, s.Readable e' := by
  constructor
  · exact fun h => ⟨h e (.refl e) node hnode, fun e' he' e'' hin => h e'' (.step hnode he' hin)⟩
  · rintro ⟨hlegible, hsight⟩ e' hin node' hnode'
    cases hin with
    | refl =>
      cases hnode.symm.trans hnode'
      exact hlegible
    | step there next rest =>
      cases hnode.symm.trans there
      exact hsight _ next e' rest node' hnode'

/-- What is in sight of a rule that can be shown is legible. -/
theorem Tidy.readable (h : s.Tidy Value.Showable) {text : String}
    (htext : s.shownWithin n detail id = .ok text) : s.Readable (detail, id) := by
  induction n generalizing detail id text with
  | zero => cases htext
  | succ n ih =>
    cases hnode : s.get? id with
    | none =>
      rw [shownWithin, hnode] at htext
      cases htext
    | some node =>
      rw [shownWithin, hnode] at htext
      obtain ⟨hlegible, hseen⟩ := (shownOf_ok_iff (h id node hnode)).mp ⟨text, htext⟩
      refine (readable_iff hnode).mpr ⟨hlegible, fun e he => ?_⟩
      obtain ⟨shown, hshown⟩ := hseen e he
      obtain ⟨inner, c⟩ := e
      cases inner <;> exact ih hshown

/-! ## Stores all of whose objects can be shown -/

theorem Tidy.visible_lt (h : s.Tidy Value.Showable) (hnode : s.get? id = some node) {e : Bool × NodeId}
    (he : e ∈ node.rule.visible detail) : e.2 < s.size := by
  have htidy := h id node hnode
  generalize node.rule = rule at he htidy
  cases htidy with
  | pattern | literal | truth | number => cases he
  | array known => exact known e.2 (Items.mem_children_of_visible he)
  | object properties additional =>
    obtain ⟨c, hc, rfl⟩ := ObjectRule.mem_visible.mp he
    obtain ⟨c', hlt, hc'⟩ := additional _ hc
    cases hc'
    exact hlt
  | combinator written known => exact known e.2 (Rule.mem_children_of_visible he)
  | negation known =>
    cases List.mem_singleton.mp he
    exact known

/-- Where every chain of references ends, a rule can be shown if what is in sight of it is legible. -/
theorem Tidy.shown_of_readable (h : s.Tidy Value.Showable) (hshallow : s.Shallow n id)
    (hid : id < s.size) (hreadable : s.Readable (detail, id)) :
    ∃ text, s.shownWithin n detail id = .ok text := by
  induction n generalizing detail id with
  | zero => exact absurd hshallow (by simp [Shallow])
  | succ n ih =>
    obtain ⟨node, hnode⟩ : ∃ node, s.get? id = some node := ⟨_, List.getElem?_eq_getElem hid⟩
    obtain ⟨hlegible, hsight⟩ := (readable_iff hnode).mp hreadable
    rw [shownWithin, hnode]
    refine (shownOf_ok_iff (h id node hnode)).mpr ⟨hlegible, fun e he => ?_⟩
    have hchild : s.Shallow n e.2 := hshallow e.2 (by
      rw [references_of_get? hnode]
      exact Rule.mem_references_of_visible he)
    have hshown := ih hchild (h.visible_lt hnode he) (hsight e he)
    obtain ⟨inner, c⟩ := e
    cases inner <;> exact hshown

/-- What is in sight of an object is legible if what is in sight of its rule for every key is. -/
theorem Tidy.readable_object (h : s.Tidy Value.Showable) {r : ObjectRule}
    (hr : s.object? id = some r) (hadditional : ∀ c, r.additional = some (.node c) →
      s.Readable (false, c)) : s.Readable (detail, id) := by
  obtain ⟨required, hnode⟩ := object?_eq_some.mp hr
  refine (readable_iff (e := (detail, id)) hnode).mpr
    ⟨(shownOf_tidy_object_iff (h id _ hnode)).mpr (seen_blank _), fun e he => ?_⟩
  obtain ⟨c, hc, rfl⟩ := ObjectRule.mem_visible.mp he
  exact hadditional c hc

/-- Where objects have got rules for every key in sight of which all was legible, what is in sight of
the other rules stays legible. -/
theorem Tidy.readable_carried (hs : s.Tidy Value.Showable) (hs' : s'.Tidy Value.Showable)
    (hcarried : ∀ x < s.size, ∀ node, s'.get? x = some node → s.get? x = some node ∨
      ∃ r, node.rule = .object r ∧ ∀ c, r.additional = some (.node c) →
        c < s.size ∧ s.Readable (false, c))
    (hlt : e.2 < s.size) (hreadable : s.Readable e) : s'.Readable e := by
  intro e' hin
  -- on the way that is in sight, along which rules are old ones in sight of which all is legible
  induction hin with
  | refl e =>
    intro node' hnode'
    rcases hcarried e.2 hlt node' hnode' with hnode | ⟨r, hrule, -⟩
    · exact hreadable e (.refl e) node' hnode
    · have htidy := hs' e.2 node' hnode'
      rw [hrule] at htidy ⊢
      exact (shownOf_tidy_object_iff htidy).mpr (seen_blank _)
  | @step e e' e'' node' hnode' next rest ih =>
    rcases hcarried e.2 hlt node' hnode' with hnode | ⟨r, hrule, hadditional⟩
    · exact ih (hs.visible_lt hnode next) (((readable_iff hnode).mp hreadable).2 e' next)
    · rw [hrule] at next
      obtain ⟨c, hc, rfl⟩ := ObjectRule.mem_visible.mp next
      exact ih (hadditional c hc).1 (hadditional c hc).2

/-- What is in sight of any object of a store is legible. -/
def Shown (s : Store) : Prop := ∀ x r, s.object? x = some r → s.Readable (false, x)

theorem shown_empty : Shown {} := by
  intro x r hr
  cases hr

/-- What is in sight of the rule for every key is in sight of its object. -/
theorem Tidy.readable_additional (h : s.Tidy Value.Showable) {r : ObjectRule} {c : NodeId}
    (hr : s.object? id = some r) (hc : r.additional = some (.node c))
    (hreadable : s.Readable (false, id)) : c < s.size ∧ s.Readable (false, c) := by
  obtain ⟨required, hnode⟩ := object?_eq_some.mp hr
  have hsight : (false, c) ∈ (Rule.object r).visible false := ObjectRule.mem_visible.mpr ⟨c, hc, rfl⟩
  exact ⟨h.visible_lt hnode hsight, ((readable_iff hnode).mp hreadable).2 _ hsight⟩

theorem Shown.alloc {rule : Rule} {required : Value} (h : s.Shown) (hs : s.Tidy Value.Showable)
    (hs' : (s.alloc ⟨rule, required⟩).1.Tidy Value.Showable)
    (hrule : ∀ r, rule = .object r → r.additional = none) :
    (s.alloc ⟨rule, required⟩).1.Shown := by
  intro x r hr
  rcases object?_of_alloc hr with ⟨-, hobject⟩ | hold
  · refine hs'.readable_object hr fun c hc => ?_
    rw [hrule r hobject] at hc
    cases hc
  · refine hs.readable_carried hs' (fun y hy node hnode => ?_) (lt_size_of_object? hold) (h x r hold)
    rw [get?_alloc_lt s _ hy] at hnode
    exact .inl hnode

/-- A call leaves what is in sight of objects legible: the rule that it sets for every key could be
shown before. -/
theorem Shown.stocked {names : NodeId → Value → Prop} {node : NodeId} {every : Prop} (h : s.Shown)
    (hs : s.Tidy Value.Showable) (hs' : s'.Tidy Value.Showable)
    (hstocked : s.Stocked names node every s') (hnode : node < s.size)
    (hevery : every → ∃ text, s.nodeText node = .ok text) : s'.Shown := by
  -- the rule for every key is one that could be shown before
  have hadditional : ∀ x r', s'.object? x = some r' → ∀ c, r'.additional = some (.node c) →
      c < s.size ∧ s.Readable (false, c) := by
    intro x r' hr' c hc
    have hset : every ∧ r'.additional = some (.node node) → c < s.size ∧ s.Readable (false, c) := by
      rintro ⟨h, hset⟩
      cases hc.symm.trans hset
      obtain ⟨text, htext⟩ := hevery h
      exact ⟨hnode, hs.readable htext⟩
    cases hr : s.object? x with
    | none =>
      refine (hstocked.made x r' hr hr').2.additional.elim (fun hsame => ?_) hset
      cases hc.symm.trans hsame
    | some r =>
      obtain ⟨found, hfound, hrr'⟩ := hstocked.kept x r hr
      cases hfound.symm.trans hr'
      refine hrr'.additional.elim (fun hsame => ?_) hset
      exact hs.readable_additional hr (hsame ▸ hc) (h x r hr)
  have hcarried : ∀ {c}, c < s.size → s.Readable (false, c) → s'.Readable (false, c) := by
    intro c
    refine hs.readable_carried (e := (false, c)) hs' fun x hx node hget => ?_
    cases hobject : s'.object? x with
    | none => exact .inl ((hstocked.other x (lt_size_of_get? hget) hobject).2 ▸ hget)
    | some r =>
      obtain ⟨required, hget'⟩ := object?_eq_some.mp hobject
      cases hget'.symm.trans hget
      exact .inr ⟨r, rfl, hadditional x r hobject⟩
  intro x r' hr'
  refine hs'.readable_object hr' fun c hc => ?_
  obtain ⟨hlt, hreadable⟩ := hadditional x r' hr' c hc
  exact hcarried hlt hreadable

end Store

end DraftSchema
