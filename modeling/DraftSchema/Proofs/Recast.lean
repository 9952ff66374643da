import DraftSchema.Proofs.Declared
import DraftSchema.Proofs.UnsharedPath

/-!
# Builders of the other kind

A builder of one object that becomes a dictionary keeps everything that it holds. All rules that do
not hold it are then written and shown as before, and the builder itself is shown if it was before, by
the name of another class. Its document is put one level down.
-/

namespace DraftSchema

open Catalog (outcome outcome_bind outcome_map Wordless)

/-! ## What a fault is, its words aside -/

/-- What can be told of a fault besides its words: its kind, and the code and the pointer that a
refusal has. -/
def Fault.sort : Fault → FaultKind × Option Code × Option String
  | .refused r => (r.code.kind, some r.code, r.pointer?)
  | f => (f.kind, none, none)

theorem wordless_sort : Wordless Fault.sort := fun _ _ => rfl

theorem Fault.kind_of_sort {f g : Fault} (h : f.sort = g.sort) : f.kind = g.kind := by
  have hfst : ∀ f : Fault, f.sort.1 = f.kind := fun f => by cases f <;> rfl
  rw [← hfst, ← hfst, h]

theorem sort_missingOfType (s : Store) (name : String) : (t : TypeForm Value) →
    (s.missingOfType t name).sort = (.attribute, none, none)
  | .annotated t _ => by
    unfold Store.missingOfType
    dsimp only
    split
    · rfl
    · exact sort_missingOfType s name t
  | .list _ | .dict .. => by
    unfold Store.missingOfType
    dsimp only
    split <;> rfl
  | .union barred _ => by cases barred <;> rfl
  | .basic _ | .any | .model _ | .generic .. | .reference _ | .other _ => rfl

/-- An attribute that a value does not have is always a fault of one sort. -/
theorem sort_missing (s : Store) (v : Value) (name : String) :
    (s.missing v name).sort = (.attribute, none, none) := by
  unfold Store.missing
  split
  · exact sort_missingOfType s name _
  · rfl
  · rfl

theorem outcome_eq_iff {α γ : Type} {part : Fault → γ} {x y : Except Fault α} :
    outcome part x = outcome part y ↔ (∃ a, x = .ok a ∧ y = .ok a) ∨
      ∃ f g, x = .error f ∧ y = .error g ∧ part f = part g := by
  cases x <;> cases y <;> simp [outcome, Except.mapError, eq_comm]

theorem except_map_eq_error {ε α β : Type} {x : Except ε α} {f : α → β} {e : ε} :
    (f <$> x) = .error e ↔ x = .error e := by
  cases x <;> simp [Functor.map, Except.map]

/-! ## Computations that end alike -/

section Ends

variable {α β γ δ : Type} {x : Except Fault α} {y : Except Fault β} {k : α → Except Fault γ}
  {l : β → Except Fault δ}

/-- Two computations end alike: each gives a result, whichever it is, or they meet one fault. -/
inductive EndAlike {α β : Type} : Except Fault α → Except Fault β → Prop
  | ok (a : α) (b : β) : EndAlike (.ok a) (.ok b)
  | error (f : Fault) : EndAlike (.error f) (.error f)

theorem EndAlike.refl (x : Except Fault α) : EndAlike x x := by
  cases x with
  | ok a => exact .ok a a
  | error f => exact .error f

theorem EndAlike.bind (h : EndAlike x y) (hrest : ∀ a b, EndAlike (k a) (l b)) :
    EndAlike (x >>= k) (y >>= l) := by
  cases h with
  | ok a b => exact hrest a b
  | error f => exact .error f

theorem EndAlike.map (h : EndAlike x y) (f : α → γ) (g : β → δ) :
    EndAlike (f <$> x) (g <$> y) := by
  cases h with
  | ok a b => exact .ok _ _
  | error f => exact .error f

/-- Where the results do not count, what follows is the same. -/
theorem EndAlike.outcome_bind {ε : Type} {part : Fault → ε} {k : α → Except Fault γ}
    {l : β → Except Fault γ} (h : EndAlike x y)
    (hrest : ∀ a b, outcome part (k a) = outcome part (l b)) :
    outcome part (x >>= k) = outcome part (y >>= l) := by
  cases h with
  | ok a b => exact hrest a b
  | error f => rfl

end Ends

namespace Value

variable {f g : NodeId → Except Fault String}

mutual

/-- Whether a value can be shown depends on whether the rules in it can. -/
theorem quoted_alike (h : ∀ c, EndAlike (f c) (g c)) : (v : Value) →
    EndAlike (v.quoted f) (v.quoted g)
  | .list _ xs => (quotedAll_alike h xs).bind fun _ _ => .ok _ _
  | .tuple xs => (quotedAll_alike h xs).map _ _
  | .dict _ es => (quotedEntries_alike h es).bind fun _ _ => .ok _ _
  | .range bounds => quotedBounds_alike h bounds
  | .node id => h id
  | .type t => (memberText_alike h t).bind fun _ _ => .ok _ _
  | .method owner _ => (quoted_alike h owner).bind fun _ _ => .ok _ _
  | .null | .bool _ | .int _ | .float _ | .text _ | .bytes _ | .regex _
  | .function .. | .nodeClass _ | .builtin _ | .foreign .. | .sized _
  | .recorder .. | .operand .. | .comparison .. | .classMethod .. => .refl _

theorem quotedAll_alike (h : ∀ c, EndAlike (f c) (g c)) : (xs : List Value) →
    EndAlike (quotedAll f xs) (quotedAll g xs)
  | [] => .refl _
  | x :: xs => (quoted_alike h x).bind fun _ _ => (quotedAll_alike h xs).bind fun _ _ => .ok _ _

theorem quotedEntries_alike (h : ∀ c, EndAlike (f c) (g c)) : (es : List (Value × Value)) →
    EndAlike (quotedEntries f es) (quotedEntries g es)
  | [] => .refl _
  | (k, x) :: es => (quoted_alike h k).bind fun _ _ => (quoted_alike h x).bind fun _ _ =>
      (quotedEntries_alike h es).bind fun _ _ => .ok _ _

theorem quotedBounds_alike (h : ∀ c, EndAlike (f c) (g c)) : (b : Bounds Value) →
    EndAlike (quotedBounds f b) (quotedBounds g b)
  | ⟨min, max, minExclusive, maxExclusive, ofLength⟩ =>
    (quoted_alike h min).bind fun _ _ => (quoted_alike h max).bind fun _ _ =>
      (quoted_alike h minExclusive).bind fun _ _ => (quoted_alike h maxExclusive).bind fun _ _ =>
        (quoted_alike h ofLength).bind fun _ _ => .ok _ _

theorem memberText_alike (h : ∀ c, EndAlike (f c) (g c)) : (t : TypeForm Value) →
    EndAlike (memberText f t) (memberText g t)
  | .list t => (memberText_alike h t).bind fun _ _ => .ok _ _
  | .dict k v => (memberText_alike h k).bind fun _ _ => (memberText_alike h v).bind fun _ _ => .ok _ _
  | .generic _ ts => (memberTexts_alike h ts).bind fun _ _ => .ok _ _
  | .annotated t _ => (memberText_alike h t).bind fun _ _ => .ok _ _
  | .union _ ts => (memberTexts_alike h ts).map _ _
  | .other v => by
    have hv := quoted_alike h v
    unfold memberText
    split
    · exact .refl _
    · exact .refl _
    · exact hv
  | .basic _ | .any | .model _ | .reference _ => .refl _

theorem memberTexts_alike (h : ∀ c, EndAlike (f c) (g c)) : (ts : List (TypeForm Value)) →
    EndAlike (memberTexts f ts) (memberTexts g ts)
  | [] => .refl _
  | t :: ts => (memberText_alike h t).bind fun _ _ => (memberTexts_alike h ts).bind fun _ _ => .ok _ _

end

theorem shown_alike {f' g' : NodeId → Except Fault String} (h : ∀ c, EndAlike (f c) (g c))
    (h' : ∀ c, EndAlike (f' c) (g' c)) (v : Value) : EndAlike (v.shown f f') (v.shown g g') := by
  unfold shown
  split
  · exact .refl _
  · exact h _
  · exact quoted_alike h' v

end Value

namespace Store

variable {s : Store} {id x c : NodeId} {name v : Value} {path : List Value} {r : ObjectRule}

/-! ## The store in which a builder is a dictionary -/

/-- The store in which the object rule at an address is a dictionary. -/
def recast (s : Store) (id : NodeId) : Store :=
  s.modifyObject id fun r => { r with kind := .dictionary }

@[simp] theorem size_recast (s : Store) (id : NodeId) : (s.recast id).size = s.size :=
  size_modifyObject s id _

theorem get?_recast_ne (s : Store) (h : x ≠ id) : (s.recast id).get? x = s.get? x :=
  get?_modifyObject_ne s _ (Ne.symm h)

theorem get?_recast_self {required : Value}
    (h : s.get? id = some ⟨.object r, required⟩) :
    (s.recast id).get? id = some ⟨.object { r with kind := .dictionary }, required⟩ := by
  rw [recast, get?_modifyObject, if_pos rfl, h]
  rfl

theorem object?_recast (s : Store) (id x : NodeId) : (s.recast id).object? x
    = if x = id then (s.object? id).map fun r => { r with kind := .dictionary }
      else s.object? x :=
  object?_modifyObject s id _ x

theorem isSome_object?_recast (s : Store) (id x : NodeId) :
    ((s.recast id).object? x).isSome = (s.object? x).isSome := by
  rw [object?_recast]
  split
  · rw [Option.isSome_map, ‹x = id›]
  · rfl

/-- A dictionary holds what the builder held. -/
theorem child?_recast (s : Store) (id x : NodeId) (name : Value) :
    (s.recast id).child? x name = s.child? x name := by
  rw [child?, child?, object?_recast]
  by_cases hx : x = id
  · rw [if_pos hx, hx]
    cases s.object? id <;> rfl
  · rw [if_neg hx]

theorem searchable_recast (s : Store) (id x : NodeId) (name : Value) :
    ((s.recast id).object? x).all (·.searchable name) = (s.object? x).all (·.searchable name) := by
  rw [object?_recast]
  by_cases hx : x = id
  · rw [if_pos hx, hx]
    cases s.object? id <;> rfl
  · rw [if_neg hx]

/-- Whether a rule is required does not depend on its kind. -/
theorem requirement_recast (s : Store) (id x : NodeId) :
    (s.recast id).requirement x = s.requirement x := by
  by_cases hx : x = id
  · rw [requirement, requirement, recast, get?_modifyObject, if_pos hx, hx]
    cases h : s.get? id with
    | none => rfl
    | some node =>
      obtain ⟨rule, required⟩ := node
      cases rule <;> rfl
  · rw [requirement, requirement, get?_recast_ne s hx]

/-! ## Rules beside a builder -/

/-- No rule holds the one at an address. -/
def Aside (s : Store) (id : NodeId) : Prop := ∀ x, id ∉ s.references x

theorem Aside.ne_of_mem (h : s.Aside id) (hc : c ∈ s.references x) : c ≠ id :=
  fun heq => h x (heq ▸ hc)

/-- What is read of a rule that does not hold a builder does not depend on the builder's kind. -/
theorem Aside.within_recast {β : Type} (R : Reading β) (h : s.Aside id) (n : Nat) (hx : x ≠ id) :
    R.within (s.recast id) n x = R.within s n x := by
  induction n generalizing x with
  | zero => rfl
  | succ n ih =>
    rw [Reading.within, Reading.within, get?_recast_ne s hx]
    cases hnode : s.get? x with
    | none => rfl
    | some node =>
      refine R.congr node.rule fun c hc => ?_
      have hne : c ≠ id := h.ne_of_mem (references_of_get? hnode ▸ hc)
      exact ⟨get?_recast_ne s hne, ih hne⟩

theorem Aside.shownWithin_recast (h : s.Aside id) (n : Nat) (detail : Bool) (hx : x ≠ id) :
    (s.recast id).shownWithin n detail x = s.shownWithin n detail x := by
  rw [shownWithin_eq, shownWithin_eq, h.within_recast textReading _ hx]

theorem Aside.nodeText_recast (h : s.Aside id) (hx : x ≠ id) :
    (s.recast id).nodeText x = s.nodeText x := by
  rw [nodeText, nodeText, size_recast, h.shownWithin_recast _ _ hx]

theorem Aside.nodeDetail_recast (h : s.Aside id) (hx : x ≠ id) :
    (s.recast id).nodeDetail x = s.nodeDetail x := by
  rw [nodeDetail, nodeDetail, size_recast, h.shownWithin_recast _ _ hx]

/-- Only the class in front shows what kind a builder is of. -/
theorem shownOf_kind (plain inner : NodeId → Except Fault String) (detail : Bool) (r : ObjectRule)
    (kind : ObjectKind) : EndAlike (shownOf plain inner detail (.object { r with kind }))
      (shownOf plain inner detail (.object r)) :=
  (EndAlike.refl _).bind fun _ _ => (EndAlike.refl _).bind fun _ _ => .ok _ _

/-- A dictionary can be shown if it can be shown as a builder of one object. -/
theorem Aside.shownWithin_alike (h : s.Aside id) (hr : s.object? id = some r) (n : Nat)
    (detail : Bool) (x : NodeId) :
    EndAlike ((s.recast id).shownWithin n detail x) (s.shownWithin n detail x) := by
  by_cases hx : x = id
  · subst hx
    cases n with
    | zero => exact .refl _
    | succ n =>
      obtain ⟨required, hget⟩ := object?_eq_some.mp hr
      have hinside : ∀ c ∈ (Rule.object r).references, c ≠ x := fun c hc =>
        h.ne_of_mem (references_of_get? hget ▸ hc)
      rw [shownWithin, shownWithin, get?_recast_self hget, hget]
      dsimp only
      rw [← shownOf_congr detail (.object r) fun c hc =>
        ⟨h.shownWithin_recast n false (hinside c hc), h.shownWithin_recast n true (hinside c hc)⟩]
      exact shownOf_kind _ _ detail r .dictionary
  · rw [h.shownWithin_recast n detail hx]
    exact .refl _

theorem Aside.valueText_alike (h : s.Aside id) (hr : s.object? id = some r) (v : Value) :
    EndAlike ((s.recast id).valueText v) (s.valueText v) :=
  Value.shown_alike
    (fun c => by rw [nodeText, nodeText, size_recast]; exact h.shownWithin_alike hr _ _ c)
    (fun c => by rw [nodeDetail, nodeDetail, size_recast]; exact h.shownWithin_alike hr _ _ c) v

/-- The names of a path are shown alike if the builder is not among them. -/
theorem Aside.pointer_recast (h : s.Aside id) (hpath : ∀ name ∈ path, id ∉ name.nodes) :
    (s.recast id).pointer path = s.pointer path := by
  refine congrArg (Pointer.encode <$> ·) (mapM_congr path fun name hname => ?_)
  have hne : ∀ c ∈ name.nodes, c ≠ id := fun c hc heq => hpath name hname (heq ▸ hc)
  exact Value.shown_congr name (fun c hc => h.nodeText_recast (hne c hc))
    fun c hc => h.nodeDetail_recast (hne c hc)

/-! ## The document of a dictionary -/

/-- A document one level down: the rule for every key. -/
def everyKey (d : Value) : Value :=
  typedDocument "object" (Keyword.additionalProperties.member (some d))

/-- A dictionary is written as the builder of one object that holds the same, under every key. -/
theorem Aside.document_recast_self (h : s.Aside id) (hr : s.object? id = some r)
    (hkind : r.kind = .schema) :
    (s.recast id).document id = everyKey <$> s.document id := by
  obtain ⟨required, hget⟩ := object?_eq_some.mp hr
  have hinner : (s.recast id).schemaDocument ((s.recast id).documentWithin s.size) r
      = s.schemaDocument (s.documentWithin s.size) r := schemaDocument_congr r fun c hc => by
    have hne : c ≠ id := h.ne_of_mem (references_of_object? hr ▸ hc)
    rw [documentWithin_eq, documentWithin_eq]
    exact ⟨get?_recast_ne s hne, h.within_recast documentReading _ hne⟩
  have hrecast : (s.recast id).schemaDocument ((s.recast id).documentWithin s.size)
      { r with kind := .dictionary } = s.schemaDocument (s.documentWithin s.size) r := hinner
  rw [document, document, size_recast, documentWithin, documentWithin, get?_recast_self hget, hget]
  simp only [documentOf, hkind, hrecast]
  rfl

end Store

end DraftSchema
