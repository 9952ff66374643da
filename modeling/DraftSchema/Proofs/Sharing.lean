import DraftSchema.Proofs.Growth
import DraftSchema.Proofs.Reading
import Mathlib.Data.List.Nodup
import Mathlib.Data.List.Pairwise

/-!
# Rules without sharing

The rules at and below a rule form a tree when none of them is stored in two places. What one
property of an object holds then has nothing in common with what another one holds, and so growth
along a path through one of them leaves the other alone.
-/

namespace DraftSchema

namespace Entries

variable {α : Type}

/-- Equal keys have the same value. -/
theorem get?_congr {es : Entries Value α} {a b : Value} (h : (a == b) = true) :
    es.get? a = es.get? b := by
  induction es with
  | nil => rfl
  | cons e es ih =>
    obtain ⟨k, v⟩ := e
    rw [get?_cons, get?_cons, ih]
    have hk : (k == a) = (k == b) := by
      rw [Bool.eq_iff_iff]
      exact ⟨fun hk => BEq.trans hk h, fun hk => BEq.trans hk (BEq.symm h)⟩
    rw [hk]

theorem set_ne_nil (es : Entries Value α) (key : Value) (v : α) : es.set key v ≠ [] := by
  cases es with
  | nil => simp [set]
  | cons e es =>
    unfold set
    split <;> simp

end Entries

namespace Store

theorem child?_beq {s : Store} {id : NodeId} {a b : Value} (h : (a == b) = true) :
    s.child? id a = s.child? id b := by
  unfold child?
  split
  · rw [Entries.get?_congr h]
  · rfl

/-! ## The rules of a tree -/

/-- The rules below a rule, each as often as it is stored, as a reading. -/
def belowReading : Reading (List NodeId) where
  bottom := []
  step _ below rule := rule.references.flatMap fun c => c :: below c
  congr rule h := by
    refine List.flatMap_congr fun c hc => ?_
    rw [(h c hc).2]

/-- The rules at and below a rule, each as often as it is stored. -/
def held (s : Store) (id : NodeId) : List NodeId := id :: belowReading.read s id

theorem held_eq {s : Store} {id : NodeId} (ha : s.Acyclic id) :
    s.held id = id :: (s.references id).flatMap s.held := by
  unfold held
  cases hnode : s.get? id with
  | none =>
    rw [Reading.read, Reading.within, hnode, references, hnode]
    rfl
  | some node =>
    rw [belowReading.read_eq ha hnode, references_of_get? hnode]
    rfl

theorem held_congr {s t : Store} {id : NodeId} (ha : s.Acyclic id) (h : s.Agree t id) :
    t.held id = s.held id := by
  rw [held, held, belowReading.read_congr ha h]

/-- The rules that a tree holds are those that it reaches. -/
theorem mem_held_iff {s : Store} {id x : NodeId} (ha : s.Acyclic id) :
    x ∈ s.held id ↔ s.Reaches id x := by
  constructor
  · -- by induction on how deep the rule is
    obtain ⟨n, hn⟩ := ha
    induction n generalizing id with
    | zero => exact absurd hn (by simp [Shallow])
    | succ n ih =>
      intro hx
      rw [held_eq ⟨n + 1, hn⟩] at hx
      rcases List.mem_cons.mp hx with rfl | hx
      · exact .refl _
      · obtain ⟨c, hc, hx⟩ := List.mem_flatMap.mp hx
        exact .step hc (ih (hn c hc) hx)
  · intro hx
    induction hx with
    | refl id => exact List.mem_cons_self
    | step hc _ ih =>
      rw [held_eq ha]
      exact List.mem_cons_of_mem _ (List.mem_flatMap.mpr ⟨_, hc, ih (ha.child hc)⟩)

/-- Every chain of references from a rule on ends, at a rule that is there. -/
structure Whole (s : Store) (id : NodeId) : Prop where
  acyclic : s.Acyclic id
  inside : ∀ x, s.Reaches id x → x < s.size

theorem Closed.whole {s : Store} {id : NodeId} (hs : s.Closed) (ha : s.Acyclic id)
    (hid : id < s.size) : s.Whole id :=
  ⟨ha, fun _ hx => hs.reaches hx hid⟩

theorem Whole.child {s : Store} {id c : NodeId} (h : s.Whole id) (hc : c ∈ s.references id) :
    s.Whole c :=
  ⟨h.acyclic.child hc, fun x hx => h.inside x (.step hc hx)⟩

theorem Whole.reaches {s : Store} {id x : NodeId} (h : s.Whole id) (hx : s.Reaches id x) :
    s.Whole x :=
  ⟨h.acyclic.reaches hx, fun y hy => h.inside y (hx.trans hy)⟩

theorem Whole.congr {s t : Store} {id : NodeId} (h : s.Whole id) (ht : s.Agree t id)
    (hsize : s.size ≤ t.size) : t.Whole id :=
  ⟨ht.acyclic h.acyclic, fun x hx => (h.inside x (ht.symm.reaches hx)).trans_le hsize⟩

theorem Whole.agree {s t : Store} {id : NodeId} (hid : s.Whole id) (h : t.Extends s) :
    s.Agree t id :=
  fun x hx => (h.same x (hid.inside x hx)).symm

theorem Whole.extends {s t : Store} {id : NodeId} (hid : s.Whole id) (h : t.Extends s) :
    t.Whole id :=
  hid.congr (hid.agree h) h.size

/-- The rules at and below a rule form a tree: none is below itself, all are there, and none is
stored in two places. -/
structure IsTree (s : Store) (id : NodeId) : Prop extends Whole s id where
  once : (s.held id).Nodup

section IsTree

variable {s t : Store} {id c : NodeId}

theorem IsTree.congr (h : s.IsTree id) (ht : s.Agree t id) (hsize : s.size ≤ t.size) :
    t.IsTree id where
  toWhole := h.toWhole.congr ht hsize
  once := by
    rw [held_congr h.acyclic ht]
    exact h.once

theorem IsTree.split (h : s.IsTree id) :
    id ∉ (s.references id).flatMap s.held ∧
      (∀ c ∈ s.references id, (s.held c).Nodup) ∧
      (s.references id).Pairwise fun a b => List.Disjoint (s.held a) (s.held b) := by
  have honce := h.once
  rw [held_eq h.acyclic, List.nodup_cons, List.nodup_flatMap] at honce
  exact honce

theorem IsTree.child (h : s.IsTree id) (hc : c ∈ s.references id) : s.IsTree c where
  toWhole := h.toWhole.child hc
  once := h.split.2.1 c hc

/-- No rule is referred to twice. -/
theorem IsTree.nodup_references (h : s.IsTree id) : (s.references id).Nodup := by
  refine h.split.2.2.imp fun {a b} hdisjoint heq => ?_
  subst heq
  exact hdisjoint List.mem_cons_self List.mem_cons_self

/-- Different rules that a rule refers to have nothing in common. -/
theorem IsTree.apart (h : s.IsTree id) {a b x : NodeId} (ha : a ∈ s.references id)
    (hb : b ∈ s.references id) (hne : a ≠ b) (hax : s.Reaches a x) : ¬ s.Reaches b x := by
  intro hbx
  have hsymm : Std.Symm fun a b => List.Disjoint (s.held a) (s.held b) := ⟨fun _ _ h => h.symm⟩
  exact h.split.2.2.forall ha hb hne ((mem_held_iff (h.acyclic.child ha)).mpr hax)
    ((mem_held_iff (h.acyclic.child hb)).mpr hbx)

end IsTree

/-! ## Properties of a tree -/

theorem mem_nodesUnder_of_get? {es : Entries Value Value} {name : Value} {c : NodeId}
    (h : es.get? name = some (.node c)) : c ∈ Value.nodesUnder es := by
  obtain ⟨k, -, hmem⟩ := mem_of_get? h
  exact Value.mem_nodesUnder.mpr ⟨_, hmem, .inr (by simp [Value.nodes])⟩

/-- A rule that stands once is under one name. -/
theorem beq_of_get?_eq {es : Entries Value Value} {a b : Value} {c : NodeId}
    (hn : (Value.nodesUnder es).count c ≤ 1) (ha : es.get? a = some (.node c))
    (hb : es.get? b = some (.node c)) : (a == b) = true := by
  induction es with
  | nil => cases ha
  | cons e es ih =>
    obtain ⟨k, v⟩ := e
    rw [Value.nodesUnder, List.count_append, List.count_append] at hn
    rw [Entries.get?_cons] at ha hb
    -- a rule that is under the first key is under no other
    have twice : v = .node c → ∀ {name}, Entries.get? es name = some (Value.node c) → False := by
      rintro rfl name hname
      have hpos := List.count_pos_iff.mpr (mem_nodesUnder_of_get? hname)
      have : (Value.node c).nodes.count c = 1 := by simp [Value.nodes]
      omega
    by_cases hka : (k == a) = true <;> by_cases hkb : (k == b) = true
    · exact BEq.trans (BEq.symm hka) hkb
    · rw [if_pos hka] at ha
      rw [if_neg hkb] at hb
      exact (twice (Option.some.inj ha) hb).elim
    · rw [if_neg hka] at ha
      rw [if_pos hkb] at hb
      exact (twice (Option.some.inj hb) ha).elim
    · rw [if_neg hka] at ha
      rw [if_neg hkb] at hb
      exact ih (by omega) ha hb

/-- What different properties of an object in a tree hold has nothing in common. -/
theorem IsTree.children_apart {s : Store} {id c d x : NodeId} {a b : Value} (h : s.IsTree id)
    (ha : s.child? id a = some (.node c)) (hb : s.child? id b = some (.node d))
    (hab : (a == b) = false) (hcx : s.Reaches c x) : ¬ s.Reaches d x := by
  refine h.apart (mem_references_of_child? ha) (mem_references_of_child? hb) ?_ hcx
  rintro rfl
  cases hr : s.object? id with
  | none =>
    rw [child?, hr] at ha
    cases ha
  | some r =>
    obtain ⟨required, hget⟩ := object?_eq_some.mp hr
    have hrefs := h.nodup_references
    rw [references_of_get? hget] at hrefs
    have hprops : (Value.nodesUnder r.properties).Nodup :=
      (List.nodup_append.mp (List.nodup_append.mp hrefs).2.1).1
    have hbeq := beq_of_get?_eq (List.nodup_iff_count_le_one.mp hprops c) (get?_of_child? hr ha)
      (get?_of_child? hr hb)
    rw [hab] at hbeq
    cases hbeq

/-- A rule that refers to none is a tree. -/
theorem isTree_of_references_eq_nil {s : Store} {id : NodeId} (h : s.references id = [])
    (hid : id < s.size) : s.IsTree id := by
  have ha : s.Acyclic id := ⟨1, fun c hc => by rw [h] at hc; cases hc⟩
  refine ⟨⟨ha, fun x hx => ?_⟩, ?_⟩
  · cases hx with
    | refl => exact hid
    | step hc => rw [h] at hc; cases hc
  · rw [held_eq ha, h]
    simp

theorem isTree_empty {s : Store} {id : NodeId} (h : s.object? id = some .empty) : s.IsTree id :=
  isTree_of_references_eq_nil (references_empty h) (lt_size_of_object? h)

/-- What a path enters in a tree is a tree. -/
theorem Entered.isTree {s s₁ : Store} {id c : NodeId} {r : ObjectRule} {name : Value}
    (h : s.Entered id name s₁ c) (hr : s.object? id = some r) (ht : s.IsTree id) (flag : Bool) :
    (s₁.mark flag id name).IsTree c := by
  cases h with
  | there hchild =>
    have hmem := mem_references_of_child? hchild
    have hagree := agree_mark flag name (ht.acyclic.not_reaches hmem)
    exact (ht.child hmem).congr hagree (by rw [size_mark])
  | made => exact isTree_empty (object?_mark_fill_new flag name hr)

end Store

end DraftSchema
