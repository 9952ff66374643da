import DraftSchema.Node.Path
import Mathlib.Data.Finset.Card

/-!
# What rules refer to

A rule refers to the rules that a document or a text of it shows. A rule is acyclic when the chains
of references that start at it are bounded; then none is longer than the store, so that the fuel
which documents and texts are computed with is always enough.
-/

namespace DraftSchema

namespace Value

mutual

/-- The rules that a value is shown with, as often as they occur. -/
def nodes : Value → List NodeId
  | .list _ xs => nodesOf xs
  | .tuple xs => nodesOf xs
  | .dict _ es => nodesUnder es
  | .range bounds => boundsNodes bounds
  | .node id => [id]
  | .type t => typeNodes t
  | .method owner _ => owner.nodes
  | _ => []

def nodesOf : List Value → List NodeId
  | [] => []
  | x :: xs => x.nodes ++ nodesOf xs

def nodesUnder : List (Value × Value) → List NodeId
  | [] => []
  | (k, x) :: es => k.nodes ++ (x.nodes ++ nodesUnder es)

def boundsNodes : Bounds Value → List NodeId
  | ⟨min, max, minExclusive, maxExclusive, ofLength⟩ =>
    min.nodes ++ (max.nodes ++ (minExclusive.nodes ++ (maxExclusive.nodes ++ ofLength.nodes)))

def typeNodes : TypeForm Value → List NodeId
  | .list t => typeNodes t
  | .dict k v => typeNodes k ++ typeNodes v
  | .generic _ ts => typeNodesOf ts
  | .annotated t _ => typeNodes t
  | .union _ ts => typeNodesOf ts
  | .other v => v.nodes
  | _ => []

def typeNodesOf : List (TypeForm Value) → List NodeId
  | [] => []
  | t :: ts => typeNodes t ++ typeNodesOf ts

end

theorem mem_nodesOf {xs : List Value} {c : NodeId} : c ∈ nodesOf xs ↔ ∃ x ∈ xs, c ∈ x.nodes := by
  induction xs with
  | nil => simp [nodesOf]
  | cons x xs ih => simp [nodesOf, ih]

theorem mem_nodesUnder {es : List (Value × Value)} {c : NodeId} :
    c ∈ nodesUnder es ↔ ∃ e ∈ es, c ∈ e.1.nodes ∨ c ∈ e.2.nodes := by
  induction es with
  | nil => simp [nodesUnder]
  | cons e es ih =>
    obtain ⟨k, x⟩ := e
    simp [nodesUnder, ih, or_assoc]

/-- Setting an entry adds no rules but those of the entry. -/
theorem count_nodesUnder_set_le (es : Entries Value Value) (k v : Value) (c : NodeId) :
    (nodesUnder (es.set k v)).count c
      ≤ (nodesUnder es).count c + k.nodes.count c + v.nodes.count c := by
  induction es with
  | nil =>
    simp only [Entries.set, nodesUnder, List.count_append, List.count_nil]
    omega
  | cons e es ih =>
    obtain ⟨k', v'⟩ := e
    unfold Entries.set
    split <;> simp only [nodesUnder, List.count_append]
    · omega
    · omega

theorem mem_nodesUnder_set {es : Entries Value Value} {k v : Value} {c : NodeId}
    (h : c ∈ nodesUnder (es.set k v)) : c ∈ nodesUnder es ∨ c ∈ k.nodes ∨ c ∈ v.nodes := by
  have hle := count_nodesUnder_set_le es k v c
  rw [← List.count_pos_iff] at h
  simp only [← List.count_pos_iff]
  omega

end Value

/-- The values that a rule is written with. Those of object rules stand in `ObjectRule.references`. -/
def Rule.parts : Rule → List (Option Value)
  | .string r => [r.format, r.pattern, r.minLength, r.maxLength, r.allowed.map .listing]
  | .number r =>
    [r.multipleOf, r.minimum, r.maximum, r.exclusiveMinimum, r.exclusiveMaximum]
  | .boolean allowed => [allowed.map .listing]
  | .array r => [r.minItems, r.maxItems, r.uniqueItems, r.additionalItems]
  | _ => []

/-- The rules that hold for the elements of an array. -/
def Items.children : Items → List NodeId
  | .free => []
  | .every child => [child]
  | .each children => children

/-- The rules that an object rule refers to. -/
def ObjectRule.references (r : ObjectRule) : List NodeId :=
  Value.nodesUnder r.properties ++ (Value.nodesOf r.required ++ Value.nodesOf r.additional.toList)

theorem ObjectRule.nodes_requiredPart {r : ObjectRule} {v : Value} (h : r.requiredPart = some v) :
    v.nodes = Value.nodesOf r.required := by
  unfold requiredPart at h
  split at h
  · cases h
  · cases h
    rfl

/-- The rules that a rule refers to, as often as it does. -/
def Rule.references (rule : Rule) : List NodeId :=
  Value.nodesOf (rule.parts.filterMap id) ++
    match rule with
    | .array r => r.items.children
    | .object r => r.references
    | .combinator _ children => children
    | .negation child => [child]
    | _ => []

namespace Store

/-- The rules that the rule at an address refers to. -/
def references (s : Store) (id : NodeId) : List NodeId :=
  match s.get? id with
  | some node => node.rule.references
  | none => []

/-- No rule refers to an address where there is no rule. -/
def Closed (s : Store) : Prop := ∀ id, id < s.size → ∀ c ∈ s.references id, c < s.size

/-- Every chain of references from a rule on has fewer links than a number. -/
def Shallow (s : Store) : Nat → NodeId → Prop
  | 0, _ => False
  | n + 1, id => ∀ c ∈ s.references id, s.Shallow n c

/-- The chains of references from a rule on are bounded: the rule is not below itself, nor is any
rule below it. -/
def Acyclic (s : Store) (id : NodeId) : Prop := ∃ n, s.Shallow n id

/-- A rule is below another one, or is that one. -/
inductive Reaches (s : Store) : NodeId → NodeId → Prop
  | refl (id : NodeId) : Reaches s id id
  | step {id c x : NodeId} : c ∈ s.references id → Reaches s c x → Reaches s id x

theorem get?_eq_none {s : Store} {id : NodeId} (h : s.size ≤ id) : s.get? id = none :=
  List.getElem?_eq_none h

theorem lt_size_of_get? {s : Store} {id : NodeId} {node : Node} (h : s.get? id = some node) :
    id < s.size :=
  (List.getElem?_eq_some_iff.mp h).1

theorem references_of_get? {s : Store} {id : NodeId} {node : Node} (h : s.get? id = some node) :
    s.references id = node.rule.references := by
  rw [references, h]

theorem references_congr {s t : Store} {id : NodeId} (h : s.get? id = t.get? id) :
    s.references id = t.references id := by
  rw [references, references, h]

theorem lt_size_of_mem_references {s : Store} {id c : NodeId} (h : c ∈ s.references id) :
    id < s.size := by
  unfold references at h
  split at h
  · exact lt_size_of_get? ‹_›
  · cases h

theorem Closed.reaches {s : Store} (hs : s.Closed) {id x : NodeId} (h : s.Reaches id x)
    (hid : id < s.size) : x < s.size := by
  induction h with
  | refl id => exact hid
  | step hc _ ih => exact ih (hs _ hid _ hc)

theorem Reaches.trans {s : Store} {a b c : NodeId} (hab : s.Reaches a b) (hbc : s.Reaches b c) :
    s.Reaches a c := by
  induction hab with
  | refl => exact hbc
  | step hm _ ih => exact .step hm (ih hbc)

/-! ## Depth -/

theorem Shallow.mono {s : Store} {m n : Nat} {id : NodeId} (h : s.Shallow m id) (hmn : m ≤ n) :
    s.Shallow n id := by
  induction m generalizing n id with
  | zero => exact absurd h (by simp [Shallow])
  | succ m ih =>
    obtain ⟨n, rfl⟩ : ∃ k, n = k + 1 := ⟨n - 1, by omega⟩
    intro c hc
    exact ih (h c hc) (by omega)

theorem Acyclic.child {s : Store} {id c : NodeId} (h : s.Acyclic id) (hc : c ∈ s.references id) :
    s.Acyclic c := by
  obtain ⟨_ | n, hn⟩ := h
  · exact absurd hn (by simp [Shallow])
  · exact ⟨n, hn c hc⟩

theorem Acyclic.reaches {s : Store} {id x : NodeId} (h : s.Acyclic id) (hx : s.Reaches id x) :
    s.Acyclic x := by
  induction hx with
  | refl => exact h
  | step hc _ ih => exact ih (h.child hc)

/-- A rule is acyclic as soon as all that it refers to are. -/
theorem Acyclic.of_children {s : Store} {id : NodeId} (h : ∀ c ∈ s.references id, s.Acyclic c) :
    s.Acyclic id := by
  have bound : ∀ cs : List NodeId, (∀ c ∈ cs, s.Acyclic c) → ∃ n, ∀ c ∈ cs, s.Shallow n c := by
    intro cs
    induction cs with
    | nil => exact fun _ => ⟨0, fun _ hc => nomatch hc⟩
    | cons c cs ih =>
      intro hcs
      obtain ⟨m, hm⟩ := hcs c (by simp)
      obtain ⟨n, hn⟩ := ih fun x hx => hcs x (by simp [hx])
      refine ⟨max m n, fun x hx => ?_⟩
      rcases List.mem_cons.mp hx with rfl | hx
      · exact hm.mono (Nat.le_max_left ..)
      · exact (hn x hx).mono (Nat.le_max_right ..)
  obtain ⟨n, hn⟩ := bound _ h
  exact ⟨n + 1, hn⟩

/-- What an acyclic rule refers to does not lead back to it. -/
theorem Acyclic.not_reaches {s : Store} {id c : NodeId} (h : s.Acyclic id)
    (hc : c ∈ s.references id) : ¬ s.Reaches c id := by
  obtain ⟨n, hn⟩ := h
  induction n generalizing id c with
  | zero => exact absurd hn (by simp [Shallow])
  | succ n ih =>
    intro hback
    -- the cycle goes through `c` as well, whose chains are shorter
    have turn : ∀ {x y : NodeId}, s.Reaches x y → ∀ z ∈ s.references y,
        ∃ d ∈ s.references x, s.Reaches d z := by
      intro x y hxy
      induction hxy with
      | refl x => exact fun z hz => ⟨z, hz, .refl z⟩
      | step hd hdy _ => exact fun z hz => ⟨_, hd, hdy.trans (.step hz (.refl z))⟩
    obtain ⟨d, hd, hdc⟩ := turn hback c hc
    exact ih hd (hn c hc) hdc

open Classical in
/-- The rules at or below a rule. -/
noncomputable def reached (s : Store) (id : NodeId) : Finset NodeId :=
  (Finset.range s.size).filter (s.Reaches id)

theorem mem_reached {s : Store} {id x : NodeId} :
    x ∈ s.reached id ↔ x < s.size ∧ s.Reaches id x := by
  simp [reached]

theorem card_reached_le (s : Store) (id : NodeId) : (s.reached id).card ≤ s.size := by
  have hsub : s.reached id ⊆ Finset.range s.size :=
    fun x hx => Finset.mem_range.mpr (mem_reached.mp hx).1
  simpa using Finset.card_le_card hsub

theorem card_reached_lt {s : Store} {id c : NodeId} (h : s.Acyclic id)
    (hc : c ∈ s.references id) : (s.reached c).card < (s.reached id).card := by
  refine Finset.card_lt_card (Finset.ssubset_iff_subset_ne.mpr ⟨fun x hx => ?_, fun heq => ?_⟩)
  · obtain ⟨hlt, hx⟩ := mem_reached.mp hx
    exact mem_reached.mpr ⟨hlt, .step hc hx⟩
  · have hid : id ∈ s.reached id := mem_reached.mpr ⟨lt_size_of_mem_references hc, .refl id⟩
    rw [← heq] at hid
    exact h.not_reaches hc (mem_reached.mp hid).2

/-- No chain of references from an acyclic rule on is longer than the store. -/
theorem Acyclic.shallow {s : Store} {id : NodeId} (h : s.Acyclic id) :
    s.Shallow (s.size + 1) id := by
  have bound : ∀ k id, s.Acyclic id → (s.reached id).card ≤ k → s.Shallow (k + 1) id := by
    intro k
    induction k with
    | zero =>
      intro id hid hcard c hc
      have := card_reached_lt hid hc
      omega
    | succ k ih =>
      intro id hid hcard c hc
      have := card_reached_lt hid hc
      exact ih c (hid.child hc) (by omega)
  exact bound s.size id h (card_reached_le s id)

/-- A ranking under which references lead downwards shows that rules are acyclic. -/
theorem acyclic_of_rank {s : Store} (rank : NodeId → Nat)
    (h : ∀ id, id < s.size → ∀ c ∈ s.references id, rank c < rank id) (id : NodeId) :
    s.Acyclic id := by
  have bound : ∀ n id, rank id < n → s.Shallow n id := by
    intro n
    induction n with
    | zero => omega
    | succ n ih =>
      intro id hid c hc
      have := h id (lt_size_of_mem_references hc) c hc
      exact ih c (by omega)
  exact ⟨rank id + 1, bound _ id (by omega)⟩

/-! ## Stores that agree -/

/-- Two stores hold the same rules at and below an address. -/
def Agree (s t : Store) (id : NodeId) : Prop := ∀ x, s.Reaches id x → s.get? x = t.get? x

theorem Agree.self {s t : Store} {id : NodeId} (h : s.Agree t id) : s.get? id = t.get? id :=
  h id (.refl id)

theorem Agree.child {s t : Store} {id c : NodeId} (h : s.Agree t id) (hc : c ∈ s.references id) :
    s.Agree t c :=
  fun x hx => h x (.step hc hx)

theorem Agree.below {s t : Store} {id x : NodeId} (h : s.Agree t id) (hx : s.Reaches id x) :
    s.Agree t x :=
  fun y hy => h y (hx.trans hy)

theorem Agree.reaches {s t : Store} {id x : NodeId} (h : s.Agree t id) (hx : s.Reaches id x) :
    t.Reaches id x := by
  induction hx with
  | refl => exact .refl _
  | step hc _ ih => exact .step (references_congr h.self ▸ hc) (ih (h.child hc))

theorem Agree.trans {s t u : Store} {id : NodeId} (h : s.Agree t id) (h' : t.Agree u id) :
    s.Agree u id :=
  fun x hx => (h x hx).trans (h' x (h.reaches hx))

theorem Agree.symm {s t : Store} {id : NodeId} (h : s.Agree t id) : t.Agree s id := by
  have back : ∀ {x y}, t.Reaches x y → s.Agree t x → s.Reaches x y := by
    intro x y hxy
    induction hxy with
    | refl => exact fun _ => .refl _
    | step hc _ ih =>
      intro hx
      have hc' := references_congr hx.self ▸ hc
      exact .step hc' (ih (hx.child hc'))
  exact fun x hx => (h x (back hx h)).symm

theorem Agree.acyclic {s t : Store} {id : NodeId} (h : s.Agree t id) (hs : s.Acyclic id) :
    t.Acyclic id := by
  obtain ⟨n, hn⟩ := hs
  refine ⟨n, ?_⟩
  induction n generalizing id with
  | zero => exact hn
  | succ n ih =>
    intro c hc
    have hc' := references_congr h.self ▸ hc
    exact ih (h.child hc') (hn c hc')

/-- A store holds at least the rules of another one. -/
structure Extends (t s : Store) : Prop where
  size : s.size ≤ t.size
  same : ∀ id, id < s.size → t.get? id = s.get? id

theorem Extends.refl (s : Store) : s.Extends s := ⟨Nat.le_refl _, fun _ _ => rfl⟩

theorem Extends.trans {u t s : Store} (hu : u.Extends t) (ht : t.Extends s) : u.Extends s :=
  ⟨ht.size.trans hu.size,
    fun id hid => (hu.same id (hid.trans_le ht.size)).trans (ht.same id hid)⟩

theorem extends_alloc (s : Store) (node : Node) : (s.alloc node).1.Extends s :=
  ⟨by simp [alloc, size], fun _ hid => get?_alloc_lt s node hid⟩

/-- A closed store agrees with every extension of it. -/
theorem Extends.agree {t s : Store} (h : t.Extends s) (hs : s.Closed) {id : NodeId}
    (hid : id < s.size) : s.Agree t id :=
  fun x hx => (h.same x (hs.reaches hx hid)).symm

end Store

end DraftSchema
