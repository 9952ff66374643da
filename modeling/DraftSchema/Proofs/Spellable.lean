import DraftSchema.Proofs.Sharing

/-!
# Texts that can be formed

A text is formed from the values and the rules in it. Two things are in the way of that: a number with
too many digits, and a rule that contains itself, whose text has no end. So what is shown of rules
under which every chain of references ends is shown, or has such a number in it.
-/

namespace DraftSchema

section

variable {α β : Type} {endless : Prop} {x : Except Fault α}

/-- A text can be formed, unless a number in it has too many digits or, where a rule may be endless,
one contains itself. -/
def Spellable (endless : Prop) (x : Except Fault α) : Prop :=
  ∀ f, x = .error f → f = .tooManyDigits Whole.digitLimit none ∨ f = .tooDeep ∧ endless

theorem Spellable.ok (a : α) : Spellable endless (.ok a : Except Fault α) := fun _ h => by cases h

theorem Spellable.mono {endless' : Prop} (h : Spellable endless x) (himp : endless → endless') :
    Spellable endless' x :=
  fun f hf => (h f hf).imp_right (And.imp_right himp)

theorem spellable_tooDeep (h : endless) : Spellable endless (.error .tooDeep : Except Fault α) := by
  intro f hf
  cases hf
  exact .inr ⟨rfl, h⟩

theorem Spellable.bind {k : α → Except Fault β} (h : Spellable endless x)
    (hrest : ∀ a, Spellable endless (k a)) : Spellable endless (x >>= k) := by
  cases x with
  | ok a => exact hrest a
  | error f =>
    intro g hg
    cases hg
    exact h f rfl

theorem Spellable.map (h : Spellable endless x) (f : α → β) : Spellable endless (f <$> x) := by
  cases x with
  | ok a => exact .ok _
  | error f =>
    intro g hg
    cases hg
    exact h f rfl

theorem spellable_mapM {f : β → Except Fault α} {bs : List β}
    (h : ∀ b ∈ bs, Spellable endless (f b)) : Spellable endless (bs.mapM f) := by
  induction bs with
  | nil => exact .ok _
  | cons b bs ih =>
    rw [List.mapM_cons]
    exact (h b List.mem_cons_self).bind fun _ =>
      (ih fun b hb => h b (List.mem_cons_of_mem _ hb)).bind fun _ => .ok _

theorem spellable_chars (endless : Prop) (n : Int) : Spellable endless (Whole.chars n) := by
  unfold Whole.chars
  split
  · exact .ok _
  · intro f hf
    cases hf
    exact .inl rfl

theorem spellable_whole (endless : Prop) (n : Int) : Spellable endless (Whole.text n) :=
  (spellable_chars endless n).map _

/-- What is shown of some rules; an empty text stands for the others. -/
def shownAmong (ids : List NodeId) (shown : NodeId → Except Fault String) (c : NodeId) :
    Except Fault String :=
  if c ∈ ids then shown c else .ok ""

theorem shownAmong_of_mem {ids : List NodeId} {shown : NodeId → Except Fault String} {c : NodeId}
    (hc : c ∈ ids) : shownAmong ids shown c = shown c := if_pos hc

theorem spellable_shownAmong {ids : List NodeId} {shown : NodeId → Except Fault String}
    (h : ∀ c ∈ ids, Spellable endless (shown c)) (c : NodeId) :
    Spellable endless (shownAmong ids shown c) := by
  unfold shownAmong
  split
  · exact h c ‹_›
  · exact .ok _

end

namespace Value

variable {detail plain : NodeId → Except Fault String} {endless : Prop}

mutual

/-- A value can be shown, numbers aside, if the rules in it can. -/
theorem spellable_quoted (h : ∀ c, Spellable endless (detail c)) : (v : Value) → Spellable endless (v.quoted detail)
  | .int n => spellable_whole _ n
  | .list _ xs => (spellable_quotedAll h xs).bind fun _ => .ok _
  | .tuple xs => (spellable_quotedAll h xs).map _
  | .dict _ es => (spellable_quotedEntries h es).bind fun _ => .ok _
  | .range bounds => spellable_quotedBounds h bounds
  | .node id => h id
  | .type t => (spellable_memberText h t).bind fun _ => .ok _
  | .method owner _ => (spellable_quoted h owner).bind fun _ => .ok _
  | .null | .bool _ | .float _ | .text _ | .bytes _ | .regex _
  | .function .. | .nodeClass _ | .builtin _ | .foreign .. | .sized _
  | .recorder .. | .operand .. | .comparison .. | .classMethod .. => .ok _

theorem spellable_quotedAll (h : ∀ c, Spellable endless (detail c)) : (xs : List Value) →
    Spellable endless (quotedAll detail xs)
  | [] => .ok _
  | x :: xs => (spellable_quoted h x).bind fun _ => (spellable_quotedAll h xs).bind fun _ => .ok _

theorem spellable_quotedEntries (h : ∀ c, Spellable endless (detail c)) : (es : List (Value × Value)) →
    Spellable endless (quotedEntries detail es)
  | [] => .ok _
  | (k, x) :: es => (spellable_quoted h k).bind fun _ => (spellable_quoted h x).bind fun _ =>
      (spellable_quotedEntries h es).bind fun _ => .ok _

theorem spellable_quotedBounds (h : ∀ c, Spellable endless (detail c)) : (b : Bounds Value) →
    Spellable endless (quotedBounds detail b)
  | ⟨min, max, minExclusive, maxExclusive, ofLength⟩ =>
    (spellable_quoted h min).bind fun _ => (spellable_quoted h max).bind fun _ =>
      (spellable_quoted h minExclusive).bind fun _ => (spellable_quoted h maxExclusive).bind fun _ =>
        (spellable_quoted h ofLength).bind fun _ => .ok _

theorem spellable_memberText (h : ∀ c, Spellable endless (detail c)) : (t : TypeForm Value) →
    Spellable endless (memberText detail t)
  | .list t => (spellable_memberText h t).bind fun _ => .ok _
  | .dict k v => (spellable_memberText h k).bind fun _ => (spellable_memberText h v).bind fun _ => .ok _
  | .generic _ ts => (spellable_memberTexts h ts).bind fun _ => .ok _
  | .annotated t _ => (spellable_memberText h t).bind fun _ => .ok _
  | .union _ ts => (spellable_memberTexts h ts).map _
  | .other v => by
    have hv := spellable_quoted h v
    unfold memberText
    split
    · exact .ok _
    · exact .ok _
    · exact hv
  | .basic _ | .any | .model _ | .reference _ => .ok _

theorem spellable_memberTexts (h : ∀ c, Spellable endless (detail c)) : (ts : List (TypeForm Value)) →
    Spellable endless (memberTexts detail ts)
  | [] => .ok _
  | t :: ts => (spellable_memberText h t).bind fun _ => (spellable_memberTexts h ts).bind fun _ => .ok _

end

theorem spellable_shown (h : ∀ c, Spellable endless (plain c)) (h' : ∀ c, Spellable endless (detail c)) (v : Value) :
    Spellable endless (v.shown plain detail) := by
  unfold shown
  split
  · exact .ok _
  · exact h _
  · exact spellable_quoted h' v

end Value

namespace Store

variable {plain inner : NodeId → Except Fault String} {endless : Prop}

theorem spellable_shownParts {shown : Value → Except Fault String} (h : ∀ v, Spellable endless (shown v)) :
    (es : Entries String Value) → Spellable endless (shownParts shown es)
  | [] => .ok _
  | (_, v) :: es => (h v).bind fun _ => (spellable_shownParts h es).bind fun _ => .ok _

theorem spellable_itemsParts (h : ∀ c, Spellable endless (plain c)) (h' : ∀ c, Spellable endless (inner c)) :
    (items : Items) → Spellable endless (itemsParts plain inner items)
  | .free => .ok _
  | .every child => (h child).bind fun _ => .ok _
  | .each _ => (spellable_mapM fun c _ => h' c).bind fun _ => .ok _

theorem spellable_propertyParts (h : ∀ c, Spellable endless (inner c)) (names : List Value) :
    Spellable endless (propertyParts inner names) := by
  unfold propertyParts
  split
  · exact .ok _
  · exact (Value.spellable_quotedAll h names).bind fun _ => .ok _

theorem spellable_childrenText (h : ∀ c, Spellable endless (plain c)) (detail : Bool) (children : List NodeId) :
    Spellable endless (childrenText plain detail children) := by
  unfold childrenText
  split
  · exact (spellable_mapM fun c _ => h c).bind fun _ => .ok _
  · exact .ok _

theorem spellable_shownOf (h : ∀ c, Spellable endless (plain c)) (h' : ∀ c, Spellable endless (inner c)) (detail : Bool)
    (rule : Rule) : Spellable endless (shownOf plain inner detail rule) := by
  have hshown : ∀ es, Spellable endless (shownParts (Value.shown plain inner) es) :=
    spellable_shownParts (Value.spellable_shown h h')
  cases rule with
  | string r => exact (hshown _).map _
  | number r => exact (hshown _).map _
  | boolean allowed => exact (hshown _).map _
  | array r =>
    exact (hshown _).bind fun _ => (spellable_itemsParts h h' r.items).bind fun _ =>
      (hshown _).bind fun _ => .ok _
  | object r =>
    exact (spellable_propertyParts h' _).bind fun _ => (hshown _).bind fun _ => .ok _
  | combinator kind children =>
    exact (spellable_childrenText h detail children).bind fun _ => .ok _
  | negation child => exact (h child).bind fun _ => .ok _

/-- How a rule is shown can be said if how the rules that it refers to are shown can. -/
theorem spellable_shownOf_references (detail : Bool) {rule : Rule}
    (h : ∀ c ∈ rule.references, Spellable endless (plain c) ∧ Spellable endless (inner c)) :
    Spellable endless (shownOf plain inner detail rule) := by
  rw [← shownOf_congr detail rule fun c hc => ⟨shownAmong_of_mem hc, shownAmong_of_mem hc⟩]
  exact spellable_shownOf (spellable_shownAmong fun c hc => (h c hc).1)
    (spellable_shownAmong fun c hc => (h c hc).2) detail rule

variable {s : Store}

/-- With fuel for its chains of references a rule can be shown. -/
theorem spellable_shownWithin {n : Nat} {id : NodeId} (detail : Bool)
    (h : ¬ endless → s.Shallow n id ∧ s.Whole id) :
    Spellable endless (s.shownWithin n detail id) := by
  by_cases hend : endless
  case pos =>
    have hall : ∀ n detail id, Spellable endless (s.shownWithin n detail id) := by
      intro n
      induction n with
      | zero => exact fun _ _ => spellable_tooDeep hend
      | succ n ih =>
        intro detail id
        unfold shownWithin
        split
        · exact spellable_tooDeep hend
        · exact spellable_shownOf (ih false) (ih true) detail _
    exact hall n detail id
  case neg =>
    obtain ⟨hshallow, hwhole⟩ := h hend
    clear h
    induction n generalizing detail id with
    | zero => exact absurd hshallow (by simp [Shallow])
    | succ n ih =>
      have hid := hwhole.inside id (.refl id)
      unfold shownWithin
      split
      · rename_i hnone
        exact absurd hid (Nat.not_lt.mpr (List.getElem?_eq_none_iff.mp hnone))
      · rename_i node hnode
        refine spellable_shownOf_references detail fun c hc => ?_
        have hc' : c ∈ s.references id := references_of_get? hnode ▸ hc
        exact ⟨ih false (hshallow c hc') (hwhole.child hc'), ih true (hshallow c hc') (hwhole.child hc')⟩

theorem spellable_nodeText (s : Store) (id : NodeId) : Spellable (¬ s.Whole id) (s.nodeText id) :=
  spellable_shownWithin false fun h =>
    have hwhole := Classical.not_not.mp h
    ⟨hwhole.acyclic.shallow, hwhole⟩

theorem spellable_nodeDetail (s : Store) (id : NodeId) : Spellable (¬ s.Whole id) (s.nodeDetail id) :=
  spellable_shownWithin true fun h =>
    have hwhole := Classical.not_not.mp h
    ⟨hwhole.acyclic.shallow, hwhole⟩

/-- A value can be shown, numbers aside, if the rules in it are whole. -/
theorem spellable_valueText (s : Store) (v : Value) :
    Spellable (∃ c ∈ v.nodes, ¬ s.Whole c) (s.valueText v) := by
  rw [valueText, ← Value.shown_congr v (fun c hc => shownAmong_of_mem hc) fun c hc => shownAmong_of_mem hc]
  exact Value.spellable_shown
    (spellable_shownAmong fun c hc => (s.spellable_nodeText c).mono fun h => ⟨c, hc, h⟩)
    (spellable_shownAmong fun c hc => (s.spellable_nodeDetail c).mono fun h => ⟨c, hc, h⟩) v

theorem spellable_valueDetail (s : Store) (v : Value) :
    Spellable (∃ c ∈ v.nodes, ¬ s.Whole c) (s.valueDetail v) := by
  rw [valueDetail, ← Value.quoted_congr v fun c hc => shownAmong_of_mem hc]
  exact Value.spellable_quoted
    (spellable_shownAmong fun c hc => (s.spellable_nodeDetail c).mono fun h => ⟨c, hc, h⟩) v

/-- A path can be pointed to, numbers aside, if the rules in its names are whole. -/
theorem spellable_pointer (s : Store) (path : List Value) :
    Spellable (∃ c ∈ Value.nodesOf path, ¬ s.Whole c) (s.pointer path) :=
  (spellable_mapM fun name hname => (s.spellable_valueText name).mono fun ⟨c, hc, h⟩ =>
    ⟨c, Value.mem_nodesOf.mpr ⟨name, hname, hc⟩, h⟩).map _

end Store

end DraftSchema
