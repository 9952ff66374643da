import DraftSchema.Proofs.Tree
import DraftSchema.Proofs.UnsharedPath

/-!
# Growth of stores and of trees

A path can be gone along in a store exactly when it can in the tree, and the tree of a store that has
grown along a path is the tree that has grown along it, as long as nothing on the way is stored in
another place below the object that the path starts from.
-/

namespace DraftSchema.Store

variable {s t : Store} {id c : NodeId} {r : ObjectRule} {name : Value}

/-! ## What is seen in a tree -/

theorem tree_congr (ha : s.Acyclic id) (h : s.Agree t id) : s.tree id = t.tree id :=
  treeReading.read_congr ha h

/-- The properties of a tree. -/
def propertyTrees (s : Store) (r : ObjectRule) : List (Value × Tree) :=
  r.properties.map fun e => (e.1, s.memberTree s.tree e.2)

theorem tree_of_object (ha : s.Acyclic id) (hr : s.object? id = some r) :
    s.tree id = .object r.kind (s.propertyTrees r) r.required
      (furtherOf (fun c => (s.tree c).document) r.additional) := by
  obtain ⟨required, hget⟩ := object?_eq_some.mp hr
  exact treeReading.read_eq ha hget

theorem tree_of_leaf (hr : s.object? id = none) : ∃ d, s.tree id = .leaf d := by
  unfold object? at hr
  unfold tree Reading.read Reading.within
  cases hget : s.get? id with
  | none => exact ⟨_, rfl⟩
  | some node =>
    obtain ⟨rule, required⟩ := node
    cases rule with
    | object r =>
      rw [hget] at hr
      cases hr
    | _ => exact ⟨_, rfl⟩

theorem get?_propertyTrees (s : Store) (r : ObjectRule) (name : Value) :
    Entries.get? (s.propertyTrees r) name = (r.properties.get? name).map (s.memberTree s.tree) :=
  Entries.get?_map _ _ name

/-- A rule is something, so that a path goes on from it. -/
theorem entered_tree (ha : s.Acyclic c) : Tree.entered (some (s.tree c)) = s.tree c := by
  cases hr : s.object? c with
  | none =>
    obtain ⟨d, hd⟩ := tree_of_leaf hr
    rw [hd]
    rfl
  | some r =>
    rw [tree_of_object ha hr]
    rfl

/-- Where a path makes an object in a store, it makes one in the tree. -/
theorem entered_of_missing (hr : s.object? id = some r) (h : s.child? id name = none) :
    Tree.entered (Entries.get? (s.propertyTrees r) name) = .empty := by
  rw [get?_propertyTrees]
  rw [child?_of_object? hr] at h
  cases hget : r.properties.get? name with
  | none => rfl
  | some v => cases v <;> first | rfl | simp [hget, Value.present] at h

theorem entered_of_node (ha : s.Acyclic id) (hr : s.object? id = some r)
    (h : s.child? id name = some (.node c)) :
    Tree.entered (Entries.get? (s.propertyTrees r) name) = s.tree c := by
  rw [get?_propertyTrees, get?_of_child? hr h]
  exact entered_tree (ha.child (mem_references_of_child? h))

theorem entered_of_value {v : Value} (hr : s.object? id = some r) (h : s.child? id name = some v)
    (hv : ∀ c, v ≠ .node c) :
    ∃ d, Tree.entered (Entries.get? (s.propertyTrees r) name) = .leaf d := by
  rw [get?_propertyTrees]
  rw [child?_of_object? hr] at h
  obtain ⟨u, hu, hpresent⟩ := Option.bind_eq_some_iff.mp h
  rw [hu]
  cases u with
  | null => cases hpresent
  | node c =>
    cases hpresent
    exact absurd rfl (hv c)
  | _ => exact ⟨_, rfl⟩

theorem accepts_tree (ha : s.Acyclic c) :
    (s.tree c).accepts = true ↔ ∃ r, s.object? c = some r ∧ r.kind.acceptsProperties = true := by
  cases hr : s.object? c with
  | none =>
    obtain ⟨d, hd⟩ := tree_of_leaf hr
    simp [hd, Tree.accepts]
  | some r => simp [tree_of_object ha hr, Tree.accepts]

/-- A path can be gone along in a store exactly when it can in the tree. -/
theorem passes_iff_tree {path : List Value} (ha : s.Acyclic id) (hr : s.object? id = some r)
    (hp : path ≠ []) (hn : ∀ name ∈ path, name.isHashable = true) :
    s.Passes id path ↔ (s.tree id).passes path = true := by
  induction path generalizing id r with
  | nil => exact absurd rfl hp
  | cons name rest ih =>
    rw [tree_of_object ha hr, Tree.passes]
    by_cases hrest : rest = []
    · subst hrest
      exact ⟨fun _ => rfl, fun _ => .last id name⟩
    have hmore : rest.isEmpty = false := by simpa using hrest
    have hrn : ∀ n ∈ rest, n.isHashable = true := fun n hm => hn n (by simp [hm])
    rw [hmore, Bool.false_or, Bool.and_eq_true]
    constructor
    · intro h
      cases h with
      | last => exact absurd rfl hrest
      | missing _ _ hchild =>
        rw [entered_of_missing hr hchild]
        exact ⟨rfl, Tree.passes_empty hrest⟩
      | through _ _ hchild hobj hacc hnext =>
        have hc := ha.child (mem_references_of_child? hchild)
        rw [entered_of_node ha hr hchild]
        exact ⟨(accepts_tree hc).mpr ⟨_, hobj, hacc⟩, (ih hc hobj hrest hrn).mp hnext⟩
    · rintro ⟨hacc, hnext⟩
      cases hchild : s.child? id name with
      | none => exact .missing hrest (hn name (by simp)) hchild
      | some v =>
        by_cases hv : ∃ c, v = .node c
        · obtain ⟨c, rfl⟩ := hv
          have hc := ha.child (mem_references_of_child? hchild)
          rw [entered_of_node ha hr hchild] at hacc hnext
          obtain ⟨rc, hobj, hacc⟩ := (accepts_tree hc).mp hacc
          exact .through hrest (hn name (by simp)) hchild hobj hacc
            ((ih hc hobj hrest hrn).mpr hnext)
        · -- what is no rule accepts nothing
          obtain ⟨d, hd⟩ := entered_of_value hr hchild fun c hc => hv ⟨c, hc⟩
          rw [hd] at hacc
          cases hacc

/-- Whether the names of a path can be listed is seen in the tree. -/
theorem listable_tree (path : List Value) (ha : s.Acyclic id) :
    (s.tree id).listable path = s.listable id path := by
  induction path generalizing id with
  | nil => exact Tree.listable_nil _
  | cons name rest ih =>
    cases hr : s.object? id with
    | none =>
      obtain ⟨d, hd⟩ := tree_of_leaf hr
      rw [hd]
      cases rest <;> simp [listable, hr, child?, Tree.listable]
    | some r =>
      rw [tree_of_object ha hr, Tree.listable]
      by_cases hrest : rest = []
      · subst hrest
        rw [Tree.listable_nil, listable, hr, Bool.and_true]
        rfl
      · rw [listable.eq_3 s id name rest fun h => hrest h, hr]
        refine congrArg (r.searchable name && ·) ?_
        cases hchild : s.child? id name with
        | none =>
          rw [entered_of_missing hr hchild]
          exact Tree.listable_empty rest
        | some v =>
          by_cases hv : ∃ c, v = .node c
          · obtain ⟨c, rfl⟩ := hv
            rw [entered_of_node ha hr hchild]
            exact ih (ha.child (mem_references_of_child? hchild))
          · have hnode : ∀ c, v ≠ .node c := fun c hc => hv ⟨c, hc⟩
            obtain ⟨d, hd⟩ := entered_of_value hr hchild hnode
            rw [hd]
            cases v <;> first | (cases rest <;> rfl) | exact absurd rfl (hnode _)

section Growth

variable {flag : Bool} {v : Value} {s s₁ s' t : Store} {id c m : NodeId} {r : ObjectRule}
  {name : Value} {rest path : List Value}

/-! ## The tree of the first object -/

/-- Where one entry alone leads to a rule, and the rules of the others stay the same, the tree of
that entry alone changes. -/
theorem map_memberTree_eq_set {f g : NodeId → Tree} {es : Entries Value Value}
    (hget : es.get? name = some (.node c)) (honce : (Value.nodesUnder es).count c ≤ 1)
    (h : ∀ d ∈ Value.nodesUnder es, d ≠ c → s.get? d = t.get? d ∧ f d = g d) :
    es.map (fun e => (e.1, t.memberTree g e.2))
      = Entries.set (es.map fun e => (e.1, s.memberTree f e.2)) name (g c) := by
  induction es with
  | nil => cases hget
  | cons e es ih =>
    obtain ⟨k, v⟩ := e
    rw [Value.nodesUnder, List.count_append, List.count_append] at honce
    simp only [Value.nodesUnder, List.mem_append] at h
    rw [Entries.get?_cons] at hget
    rw [List.map_cons, List.map_cons, Entries.set]
    by_cases hk : (k == name) = true
    · rw [if_pos hk] at hget ⊢
      cases hget
      -- the rule is not below the other entries
      have hnone : (Value.nodesUnder es).count c = 0 := by
        have : (Value.node c).nodes.count c = 1 := by simp [Value.nodes]
        omega
      refine congrArg ((k, g c) :: ·) (List.map_congr_left fun e he => ?_)
      have hsame : t.memberTree g e.2 = s.memberTree f e.2 := by
        refine (memberTree_congr e.2 fun d hd => ?_).symm
        have hmem : d ∈ Value.nodesUnder es := Value.mem_nodesUnder.mpr ⟨e, he, .inr hd⟩
        refine h d (.inr (.inr hmem)) ?_
        rintro rfl
        exact List.count_eq_zero.mp hnone hmem
      rw [hsame]
    · rw [if_neg hk] at hget ⊢
      -- nor below this one
      have hrest := List.count_pos_iff.mpr (mem_nodesUnder_of_get? hget)
      have hnone : v.nodes.count c = 0 := by omega
      rw [ih hget (by omega) fun d hd => h d (.inr (.inr hd))]
      have hsame : t.memberTree g v = s.memberTree f v := by
        refine (memberTree_congr v fun d hd => h d (.inr (.inl hd)) ?_).symm
        rintro rfl
        exact List.count_eq_zero.mp hnone hd
      rw [hsame]

/-- The tree of an object after a rule was put under a name of it, or made there. -/
theorem tree_of_set {y : NodeId} (hid : s.Acyclic id) (hr : s.object? id = some r)
    (hr' : s'.object? id = some ((r.setProperty name (.node y)).mark flag name))
    (hname : name.nodes = []) (hold : ∀ d ∈ s.references id, s.Agree s' d) (hy : s'.Acyclic y) :
    s'.Acyclic id ∧ s'.tree id = .object r.kind
      (Entries.set (s.propertyTrees r) name (s'.tree y)) (Tree.listed flag name r.required)
      (furtherOf (fun c => (s.tree c).document) r.additional) := by
  rw [references_of_object? hr] at hold
  have hchild : ∀ d ∈ r.references, s.Acyclic d := fun d hd =>
    hid.child (by rw [references_of_object? hr]; exact hd)
  have hid' : s'.Acyclic id := by
    refine .of_children fun d hd => ?_
    rw [references_of_object? hr'] at hd
    rcases ObjectRule.mem_references_set hname hd with hd | hd
    · exact (hold d hd).acyclic (hchild d hd)
    · cases List.mem_singleton.mp hd
      exact hy
  -- all that the object referred to is as it was, and so are the trees of its other properties
  have hsame : ∀ d ∈ r.references, s'.get? d = s.get? d ∧ s'.tree d = s.tree d := fun d hd =>
    ⟨(hold d hd).self.symm, (tree_congr (hchild d hd) (hold d hd)).symm⟩
  simp only [ObjectRule.references, List.mem_append] at hsame
  refine ⟨hid', ?_⟩
  rw [tree_of_object hid' hr', ObjectRule.mark_kind, ObjectRule.mark_additional, propertyTrees,
    ObjectRule.mark_properties, ObjectRule.setProperty_properties, Entries.map_set,
    ObjectRule.mark_required]
  congr 1
  · refine congrArg (Entries.set · name _) (List.map_congr_left fun e he => ?_)
    rw [memberTree_congr e.2 fun d hd =>
      hsame d (.inl (Value.mem_nodesUnder.mpr ⟨e, he, .inr hd⟩))]
  · exact furtherOf_congr _ fun d hd => by rw [(hsame d (.inr (.inr hd))).2]

/-- The tree of an object after growth below what was there under a name. -/
theorem tree_of_there (hid : s.Acyclic id) (hr : s.object? id = some r)
    (hr' : s'.object? id = some (r.mark flag name)) (hchild : s.child? id name = some (.node c))
    (honce : (s.references id).count c ≤ 1) (hname : name.nodes = [])
    (hold : ∀ d ∈ s.references id, d ≠ c → s.Agree s' d) (hc : s'.Acyclic c) :
    s'.Acyclic id ∧ s'.tree id = .object r.kind
      (Entries.set (s.propertyTrees r) name (s'.tree c)) (Tree.listed flag name r.required)
      (furtherOf (fun c => (s.tree c).document) r.additional) := by
  have hget := get?_of_child? hr hchild
  rw [references_of_object? hr] at hold honce
  have hbelow : ∀ d ∈ r.references, s.Acyclic d := fun d hd =>
    hid.child (by rw [references_of_object? hr]; exact hd)
  have hid' : s'.Acyclic id := by
    refine .of_children fun d hd => ?_
    rw [references_of_object? hr'] at hd
    by_cases hdc : d = c
    · rw [hdc]
      exact hc
    · have hd := ObjectRule.mem_references_mark hname hd
      exact (hold d hd hdc).acyclic (hbelow d hd)
  have hsame : ∀ d ∈ r.references, d ≠ c → s.get? d = s'.get? d ∧ s.tree d = s'.tree d :=
    fun d hd hdc => ⟨(hold d hd hdc).self, tree_congr (hbelow d hd) (hold d hd hdc)⟩
  simp only [ObjectRule.references, List.mem_append] at hsame
  -- the one reference to the rule is under the name
  have hpos := List.count_pos_iff.mpr (mem_nodesUnder_of_get? hget)
  rw [ObjectRule.references, List.count_append, List.count_append] at honce
  have hadd : (Value.nodesOf r.additional.toList).count c = 0 := by omega
  refine ⟨hid', ?_⟩
  rw [tree_of_object hid' hr', ObjectRule.mark_kind, ObjectRule.mark_additional, propertyTrees,
    ObjectRule.mark_properties, ObjectRule.mark_required,
    map_memberTree_eq_set hget (by omega) fun d hd hdc => hsame d (.inl hd) hdc]
  congr 1
  refine furtherOf_congr _ fun d hd => ?_
  have hdc : d ≠ c := by
    rintro rfl
    exact List.count_eq_zero.mp hadd hd
  rw [(hsame d (.inr (.inr hd)) hdc).2]

/-! ## The tree after growth -/

theorem tree_empty (h : s.object? id = some .empty) : s.tree id = .empty :=
  tree_of_object (isTree_empty h).acyclic h

/-- The tree of what is entered is that of what was there, or an empty one. -/
theorem Entered.tree (h : s.Entered id name s₁ c) (hr : s.object? id = some r)
    (hid : s.Whole id) (flag : Bool) :
    (s₁.mark flag id name).tree c = Tree.entered (Entries.get? (s.propertyTrees r) name) := by
  cases h with
  | there hchild =>
    have hmem := mem_references_of_child? hchild
    rw [entered_of_node hid.acyclic hr hchild]
    exact (tree_congr (hid.child hmem).acyclic
      (agree_mark flag name (hid.acyclic.not_reaches hmem))).symm
  | made hchild =>
    rw [entered_of_missing hr hchild]
    exact tree_empty (object?_mark_fill_new flag name hr)

/-- The tree of a store that has grown along a way is the tree that has grown along it, provided that
the way is stored once and that the rule that is put has nothing in common with what was there. -/
theorem Grows.tree (h : Grows flag (.node m) s id path s')
    (hplain : ∀ name ∈ path, name.nodes = []) (hid : s.Whole id) (hclear : s.Clear id path)
    (hm : s.Whole m) (hapart : s.Apart id m) :
    s'.Acyclic id ∧ s'.tree id = (s.tree id).grow flag (s.tree m) path := by
  induction h with
  | @last s id r name hr =>
    have hgrows : Grows flag (.node m) s id [name] _ := .last hr
    have hput := hgrows.agree hm.inside fun x hx => hapart x (reaches_of_mem_walk hx)
    have hr' := object?_modifyObject_of_some (fun r => (r.setProperty name (.node m)).mark flag name) hr
    obtain ⟨hacyclic, htree⟩ := tree_of_set hid.acyclic hr hr' (hplain name (by simp))
      (fun d hd => hgrows.agree_other hid hclear hd fun hrest => absurd rfl hrest)
      (hput.acyclic hm.acyclic)
    refine ⟨hacyclic, ?_⟩
    rw [htree, tree_of_object hid.acyclic hr, ← tree_congr hm.acyclic hput]
    rfl
  | @more s s₁ s' id c r name rest hr hentered hrest hnext ih =>
    have hgrows := Grows.more hr hentered hrest hnext
    have hmid := hentered.agree flag hm (hapart id (.refl id))
    obtain ⟨hc, htree⟩ := ih (fun n hn => hplain n (by simp [hn])) (hentered.whole hr hid flag)
      (hentered.clear hr hid flag hrest hclear)
      (hm.congr hmid ((size_mark s₁ flag id name).symm ▸ hentered.size_le))
      (hentered.apart hr hid flag hm hapart)
    rw [hentered.tree hr hid flag, ← tree_congr hm.acyclic hmid] at htree
    rw [tree_of_object hid.acyclic hr, Tree.grow, ← htree]
    have hother : ∀ d ∈ s.references id, d ≠ c → s.Agree s' d := fun d hd hne =>
      hnext.agree_unentered hentered hr hrest hid hclear hd hne
    rcases hnext.object?_of_entered hentered hr hid.acyclic with ⟨hobj, hchild⟩ | ⟨hobj, hchild⟩
    · exact tree_of_there hid.acyclic hr hobj hchild (hclear.of_child? hrest hchild).1
        (hplain name (by simp)) hother hc
    · refine tree_of_set hid.acyclic hr hobj (hplain name (by simp)) (fun d hd => ?_) hc
      refine hgrows.agree_other hid hclear hd fun _ hfound => ?_
      rw [hchild] at hfound
      cases hfound

end Growth

end DraftSchema.Store
