import DraftSchema.Proofs.Sharing

/-!
# Unshared paths

What growth along a path leaves alone when no object on the way is stored in another place: whatever
else the objects on the way refer to, and the ways along the paths that part from its own. In a tree
every way is stored once, and it stays so when a rule is put that has nothing in common with it.
-/

namespace DraftSchema.Store

variable {s t : Store} {id c : NodeId} {r : ObjectRule} {name : Value}

/-! ## Ways that are stored once -/

/-- No object on the way along a path is stored in another place below the one that the path starts
from. -/
inductive Clear (s : Store) : NodeId → List Value → Prop
  | last (id : NodeId) (name : Value) : Clear s id [name]
  | missing {id : NodeId} {name : Value} {rest : List Value} (child : s.child? id name = none) :
      Clear s id (name :: rest)
  | through {id c : NodeId} {name : Value} {rest : List Value}
      (child : s.child? id name = some (.node c)) (once : (s.references id).count c ≤ 1)
      (apart : ∀ d ∈ s.references id, d ≠ c → ∀ x ∈ s.walk c rest, ¬ s.Reaches d x)
      (next : Clear s c rest) : Clear s id (name :: rest)

/-- Where a way that is stored once leads on to an object, that object is stored once, and the others
do not lead to the way below it. -/
theorem Clear.of_child? {rest : List Value} (h : s.Clear id (name :: rest)) (hrest : rest ≠ [])
    (hchild : s.child? id name = some (.node c)) :
    (s.references id).count c ≤ 1 ∧
      (∀ d ∈ s.references id, d ≠ c → ∀ x ∈ s.walk c rest, ¬ s.Reaches d x) ∧ s.Clear c rest := by
  cases h with
  | last => exact absurd rfl hrest
  | missing hmissing =>
    rw [hchild] at hmissing
    cases hmissing
  | through hfound honce hbeside hnext =>
    cases hchild.symm.trans hfound
    exact ⟨honce, hbeside, hnext⟩

/-- Two rules have nothing in common. -/
def Apart (s : Store) (a b : NodeId) : Prop := ∀ x, s.Reaches a x → ¬ s.Reaches b x

/-- In a tree every way is stored once. -/
theorem IsTree.clear {path : List Value} (h : s.IsTree id) (hp : s.Passes id path) :
    s.Clear id path := by
  induction hp with
  | last id name => exact .last id name
  | missing _ _ hchild => exact .missing hchild
  | through _ _ hchild _ _ _ ih =>
    have hmem := mem_references_of_child? hchild
    refine .through hchild (List.nodup_iff_count_le_one.mp h.nodup_references _) ?_ (ih (h.child hmem))
    intro d hd hne x hx hdx
    exact h.apart hmem hd (Ne.symm hne) (reaches_of_mem_walk hx) hdx

theorem references_of_object? (hr : s.object? id = some r) : s.references id = r.references := by
  obtain ⟨required, hget⟩ := object?_eq_some.mp hr
  rw [references_of_get? hget]
  rfl

end DraftSchema.Store

namespace DraftSchema.ObjectRule

variable {r : ObjectRule} {name v : Value} {c : NodeId}

/-- Putting a property adds no references but those of the name and the value. -/
theorem count_references_setProperty_le (r : ObjectRule) (name v : Value) (c : NodeId) :
    (r.setProperty name v).references.count c
      ≤ r.references.count c + name.nodes.count c + v.nodes.count c := by
  have hset := Value.count_nodesUnder_set_le r.properties name v c
  simp only [references, setProperty_properties, setProperty_required, setProperty_additional,
    List.count_append]
  omega

/-- Listing a name adds no references but those of the name. -/
theorem count_references_mark_le (r : ObjectRule) (flag : Bool) (name : Value) (c : NodeId) :
    (r.mark flag name).references.count c ≤ r.references.count c + name.nodes.count c := by
  have hlist : ∀ xs : List Value, (Value.nodesOf (xs ++ [name])).count c
      = (Value.nodesOf xs).count c + name.nodes.count c := by
    intro xs
    induction xs with
    | nil => simp [Value.nodesOf]
    | cons x xs ih =>
      simp only [List.cons_append, Value.nodesOf, List.count_append, ih]
      omega
  simp only [references, mark_properties, mark_additional, mark_required, List.count_append]
  split
  · rw [hlist]
    omega
  · omega

/-- What an object refers to after a plain name was put or listed. -/
theorem mem_references_set (hname : name.nodes = []) {flag : Bool}
    (h : c ∈ ((r.setProperty name v).mark flag name).references) : c ∈ r.references ∨ c ∈ v.nodes := by
  have hmark := count_references_mark_le (r.setProperty name v) flag name c
  have hset := count_references_setProperty_le r name v c
  rw [hname, List.count_nil] at hmark hset
  rw [← List.count_pos_iff] at h
  simp only [← List.count_pos_iff]
  omega

theorem mem_references_mark (hname : name.nodes = []) {flag : Bool}
    (h : c ∈ (r.mark flag name).references) : c ∈ r.references := by
  have hmark := count_references_mark_le r flag name c
  rw [hname, List.count_nil] at hmark
  rw [← List.count_pos_iff] at h ⊢
  omega

end DraftSchema.ObjectRule

namespace DraftSchema.Store

/-! ## Paths that part -/

/-- Two paths part: at some level they go on under different names. -/
inductive Part : List Value → List Value → Prop
  | here {a b : Value} {p q : List Value} (different : (a == b) = false) : Part (a :: p) (b :: q)
  | later {a b : Value} {p q : List Value} (same : (a == b) = true) (rest : Part p q) :
      Part (a :: p) (b :: q)

/-- Paths part exactly when neither leads on from the other. -/
theorem part_iff {p q : List Value} :
    Part p q ↔ p.isPrefixOf q = false ∧ q.isPrefixOf p = false := by
  induction p generalizing q with
  | nil => exact ⟨fun h => (nomatch h), fun h => (nomatch h.1)⟩
  | cons a p ih =>
    cases q with
    | nil => exact ⟨fun h => (nomatch h), fun h => (nomatch h.2)⟩
    | cons b q =>
      simp only [List.isPrefixOf]
      cases hab : a == b with
      | false =>
        have hba : (b == a) = false := by rw [BEq.comm, hab]
        exact ⟨fun _ => ⟨by simp, by simp [hba]⟩, fun _ => .here hab⟩
      | true =>
        have hba : (b == a) = true := BEq.symm hab
        rw [hba, Bool.true_and, Bool.true_and, ← ih]
        constructor
        · intro h
          cases h with
          | here hne => rw [hab] at hne; cases hne
          | later _ hrest => exact hrest
        · exact .later hab

theorem Part.ne_nil {p q : List Value} (h : Part p q) : p ≠ [] ∧ q ≠ [] := by
  cases h <;> exact ⟨List.cons_ne_nil _ _, List.cons_ne_nil _ _⟩

theorem Part.symm {p q : List Value} (h : Part p q) : Part q p := by
  rw [part_iff] at h ⊢
  exact ⟨h.2, h.1⟩

section Growth

variable {flag : Bool} {v : Value} {s s₁ s' t : Store} {id c m : NodeId} {r : ObjectRule}
  {name : Value} {rest path : List Value}

/-! ## What growth leaves alone -/

/-- Growth leaves alone a rule that leads to no object on the way. -/
theorem Grows.agree (h : Grows flag v s id path s') {y : NodeId}
    (hy : ∀ x, s.Reaches y x → x < s.size) (hapart : ∀ x ∈ s.walk id path, ¬ s.Reaches y x) :
    s.Agree s' y :=
  fun x hx => (h.get?_of_not_mem_walk (hy x hx) fun hw => hapart x hw hx).symm

/-- Growth leaves alone what the first object refers to, as long as this does not lead to the way
below. -/
theorem Grows.agree_reference (h : Grows flag v s id (name :: rest) s') (hid : s.Whole id)
    {d : NodeId} (hd : d ∈ s.references id)
    (hbeside : ∀ c, rest ≠ [] → s.child? id name = some (.node c) →
      ∀ x ∈ s.walk c rest, ¬ s.Reaches d x) : s.Agree s' d := by
  refine h.agree (hid.child hd).inside fun x hx hdx => ?_
  have hxid : x ≠ id := by
    rintro rfl
    exact hid.acyclic.not_reaches hd hdx
  by_cases hrest : rest = []
  · subst hrest
    exact hxid (List.mem_singleton.mp hx)
  rw [walk_of_more s id name hrest, List.mem_cons] at hx
  rcases hx with hx | hx
  · exact hxid hx
  split at hx
  · exact hbeside _ hrest ‹_› x hx hdx
  · cases hx

/-- On a way that is stored once, growth leaves alone all that the first object refers to, except
for what is entered. -/
theorem Grows.agree_other (h : Grows flag v s id (name :: rest) s') (hid : s.Whole id)
    (hclear : s.Clear id (name :: rest)) {d : NodeId} (hd : d ∈ s.references id)
    (hne : rest ≠ [] → s.child? id name ≠ some (.node d)) : s.Agree s' d := by
  refine h.agree_reference hid hd fun c hrest hchild x hx => ?_
  refine (hclear.of_child? hrest hchild).2.1 d hd ?_ x hx
  rintro rfl
  exact hne hrest hchild

theorem walk_congr (path : List Value) (h : s.Agree t id) : t.walk id path = s.walk id path := by
  induction path generalizing id with
  | nil => rfl
  | cons name rest ih =>
    by_cases hrest : rest = []
    · subst hrest
      rfl
    have hobj : t.object? id = s.object? id := by rw [object?, object?, h.self]
    rw [walk_of_more t id name hrest, walk_of_more s id name hrest, child?_congr hobj]
    split
    · rename_i c hchild
      rw [ih (h.child (mem_references_of_child? hchild))]
    · rfl

theorem Clear.congr (hc : s.Clear id path) (h : s.Agree t id) : t.Clear id path := by
  induction hc with
  | last id name => exact .last id name
  | @missing id name _ hchild =>
    have hobj : t.object? id = s.object? id := by rw [object?, object?, h.self]
    exact .missing (by rw [child?_congr hobj, hchild])
  | @through id c name rest hchild honce hapart _ ih =>
    have hobj : t.object? id = s.object? id := by rw [object?, object?, h.self]
    have hrefs : t.references id = s.references id := references_congr h.self.symm
    have hc := h.child (mem_references_of_child? hchild)
    refine .through (by rw [child?_congr hobj, hchild]) (by rw [hrefs]; exact honce) ?_ (ih hc)
    intro d hd hne x hx hdx
    rw [hrefs] at hd
    rw [walk_congr rest hc] at hx
    exact hapart d hd hne x hx ((h.child hd).symm.reaches hdx)

/-- The only object on the way from one just made is that one. -/
theorem walk_empty (hid : s.object? id = some .empty) (hp : path ≠ []) : s.walk id path = [id] := by
  obtain ⟨name, rest, rfl⟩ := List.exists_cons_of_ne_nil hp
  by_cases hrest : rest = []
  · subst hrest
    rfl
  · rw [walk_of_more s id name hrest, child?_empty hid]

theorem clear_empty (hid : s.object? id = some .empty) (hp : path ≠ []) : s.Clear id path := by
  obtain ⟨name, rest, rfl⟩ := List.exists_cons_of_ne_nil hp
  exact .missing (child?_empty hid name)

/-! ## The object that a path starts from -/

/-- What growth makes of the object that the path starts from. -/
theorem Grows.object?_first {name : Value} {rest : List Value} {r : ObjectRule}
    (h : Grows flag v s id (name :: rest) s') (ha : s.Acyclic id) (hr : s.object? id = some r) :
    ∃ r', s'.object? id = some r' ∧ r'.kind = r.kind ∧ r'.properties ≠ [] ∧
      ∀ b, (name == b) = false → r'.properties.get? b = r.properties.get? b := by
  cases h with
  | last hobj =>
    cases hr.symm.trans hobj
    refine ⟨_, object?_modifyObject_of_some _ hr, by simp, ?_, ?_⟩
    · rw [ObjectRule.mark_properties, ObjectRule.setProperty_properties]
      exact Entries.set_ne_nil _ _ v
    · intro b hb
      rw [ObjectRule.mark_properties, ObjectRule.setProperty_properties, Entries.get?_set_ne _ _ hb]
  | more hobj hentered _ hnext =>
    cases hr.symm.trans hobj
    rcases hnext.object?_of_entered hentered hr ha with ⟨hobj', hchild⟩ | ⟨hobj', -⟩
    · refine ⟨_, hobj', by simp, ?_, fun b _ => by rw [ObjectRule.mark_properties]⟩
      intro hnil
      have hget := get?_of_child? hr hchild
      rw [ObjectRule.mark_properties] at hnil
      rw [hnil] at hget
      cases hget
    · refine ⟨_, hobj', by simp, ?_, ?_⟩
      · rw [ObjectRule.mark_properties, ObjectRule.setProperty_properties]
        exact Entries.set_ne_nil _ _ _
      · intro b hb
        rw [ObjectRule.mark_properties, ObjectRule.setProperty_properties,
          Entries.get?_set_ne _ _ hb]

theorem Grows.object?_start (h : Grows flag v s id path s') : ∃ r, s.object? id = some r := by
  cases h with
  | last hr => exact ⟨_, hr⟩
  | more hr => exact ⟨_, hr⟩

/-! ## One level down -/

theorem Entered.whole (h : s.Entered id name s₁ c) (hr : s.object? id = some r)
    (hid : s.Whole id) (flag : Bool) : (s₁.mark flag id name).Whole c := by
  cases h with
  | there hchild =>
    have hmem := mem_references_of_child? hchild
    exact (hid.child hmem).congr (agree_mark flag name (hid.acyclic.not_reaches hmem))
      (by rw [size_mark])
  | made => exact (isTree_empty (object?_mark_fill_new flag name hr)).toWhole

theorem Entered.clear (h : s.Entered id name s₁ c) (hr : s.object? id = some r)
    (hid : s.Whole id) (flag : Bool) (hrest : rest ≠ []) (hclear : s.Clear id (name :: rest)) :
    (s₁.mark flag id name).Clear c rest := by
  cases h with
  | there hchild =>
    have hmem := mem_references_of_child? hchild
    exact (hclear.of_child? hrest hchild).2.2.congr
      (agree_mark flag name (hid.acyclic.not_reaches hmem))
  | made => exact clear_empty (object?_mark_fill_new flag name hr) hrest

/-- Entering an object leaves alone a rule that does not lead to where it is entered from. -/
theorem Entered.agree (h : s.Entered id name s₁ c) (flag : Bool) {y : NodeId} (hy : s.Whole y)
    (hapart : ¬ s.Reaches y id) : s.Agree (s₁.mark flag id name) y := by
  intro x hx
  have hne : x ≠ id := by
    rintro rfl
    exact hapart hx
  rw [get?_mark_ne s₁ flag name hne, h.get?_of_ne (hy.inside x hx) hne]

/-- What has nothing in common with an object has nothing in common with what is entered there. -/
theorem Entered.apart (h : s.Entered id name s₁ c) (hr : s.object? id = some r)
    (hid : s.Whole id) (flag : Bool) {y : NodeId} (hy : s.Whole y) (hapart : s.Apart id y) :
    (s₁.mark flag id name).Apart c y := by
  have hagree := h.agree flag hy (hapart id (.refl id))
  intro x hcx hreach
  have hyx : s.Reaches y x := hagree.symm.reaches hreach
  cases h with
  | there hchild =>
    have hmem := mem_references_of_child? hchild
    have hback := agree_mark flag name (hid.acyclic.not_reaches hmem)
    exact hapart x (.step hmem (hback.symm.reaches hcx)) hyx
  | made =>
    have hrefs := references_empty (object?_mark_fill_new flag name hr)
    cases hcx with
    | refl => exact Nat.lt_irrefl _ (hy.inside _ hyx)
    | step hc =>
      rw [hrefs] at hc
      cases hc

/-! ## What is reached after growth -/

theorem Entered.mem_references (h : s.Entered id name s₁ c) (hr : s.object? id = some r)
    (hname : name.nodes = []) (flag : Bool) {y z : NodeId}
    (hz : z ∈ (s₁.mark flag id name).references y) :
    z ∈ s.references y ∨ s.size ≤ z ∧ z < s₁.size := by
  by_cases hy : y = id
  · subst hy
    rw [references_of_object? hr]
    cases h with
    | there =>
      have hobj := object?_mark_of_some flag y name hr
      rw [if_pos rfl] at hobj
      rw [references_of_object? hobj] at hz
      exact .inl (ObjectRule.mem_references_mark hname hz)
    | made =>
      have hobj : (s.fill y name).object? y = some (r.setProperty name (.node s.size)) := by
        rw [object?_fill name hr, if_pos rfl]
      have hmark := object?_mark_of_some flag y name hobj
      rw [if_pos rfl] at hmark
      rw [references_of_object? hmark] at hz
      rcases ObjectRule.mem_references_set hname hz with hz | hz
      · exact .inl hz
      · cases List.mem_singleton.mp hz
        rw [size_fill]
        exact .inr ⟨Nat.le_refl _, Nat.lt_succ_self _⟩
  · rw [references_congr (get?_mark_ne s₁ flag name hy)] at hz
    cases h with
    | there => exact .inl hz
    | made =>
      -- the object just made refers to nothing
      have hfill : (s.fill id name).get? y
          = if y = s.size then some ⟨.object .empty, .bool true⟩ else s.get? y := by
        rw [fill, get?_modifyObject_ne _ _ (Ne.symm hy), get?_alloc]
      by_cases hnew : y = s.size
      · rw [if_pos hnew] at hfill
        rw [references_of_get? hfill] at hz
        cases hz
      · rw [if_neg hnew] at hfill
        rw [references_congr hfill] at hz
        exact .inl hz

theorem Grows.size_le (h : Grows flag v s id path s') : s.size ≤ s'.size := by
  induction h with
  | last => rw [size_modifyObject]
  | @more s s₁ _ id _ _ name _ _ hentered _ _ ih =>
    rw [size_mark] at ih
    exact hentered.size_le.trans ih

/-- Growth makes rules refer to the rule that is put, and to objects just made, but to nothing else. -/
theorem Grows.mem_references (h : Grows flag (.node m) s id path s')
    (hplain : ∀ name ∈ path, name.nodes = []) {y z : NodeId} (hz : z ∈ s'.references y) :
    z ∈ s.references y ∨ z = m ∨ s.size ≤ z ∧ z < s'.size := by
  induction h with
  | @last s id r name hr =>
    by_cases hy : y = id
    · subst hy
      rw [references_of_object? (object?_modifyObject_of_some _ hr)] at hz
      rw [references_of_object? hr]
      rcases ObjectRule.mem_references_set (hplain name (by simp)) hz with hz | hz
      · exact .inl hz
      · exact .inr (.inl (List.mem_singleton.mp hz))
    · rw [references_congr (get?_modifyObject_ne s _ (Ne.symm hy))] at hz
      exact .inl hz
  | @more s s₁ s' id c r name rest hr hentered _ hnext ih =>
    have hle := hnext.size_le
    rw [size_mark] at hle
    rcases ih (fun n hn => hplain n (by simp [hn])) hz with hz | hz | ⟨hz, hlt⟩
    · rcases hentered.mem_references hr (hplain name (by simp)) flag hz with hz | ⟨hz, hlt⟩
      · exact .inl hz
      · exact .inr (.inr ⟨hz, hlt.trans_le hle⟩)
    · exact .inr (.inl hz)
    · rw [size_mark] at hz
      exact .inr (.inr ⟨hentered.size_le.trans hz, hlt⟩)

/-- What is reached after growth was reached before, or is below the rule that was put, or is new. -/
theorem Grows.reaches (h : Grows flag (.node m) s id path s')
    (hplain : ∀ name ∈ path, name.nodes = []) {y x : NodeId} (hx : s'.Reaches y x) :
    s.Reaches y x ∨ s.Reaches m x ∨ s.size ≤ x ∧ x < s'.size := by
  induction hx with
  | refl y => exact .inl (.refl y)
  | @step y z x hz _ ih =>
    rcases h.mem_references hplain hz with hz | rfl | ⟨hz, hlt⟩
    · exact ih.imp_left (.step hz)
    · exact ih.elim (fun hx => .inr (.inl hx)) .inr
    · -- a new rule refers to nothing as yet
      refine ih.elim (fun hx => .inr (.inr ?_)) .inr
      cases hx with
      | refl => exact ⟨hz, hlt⟩
      | step hc => exact absurd (lt_size_of_mem_references hc) (Nat.not_lt.mpr hz)

/-- After growth every chain of references from the first object on still ends, if it is acyclic. -/
theorem Grows.whole (h : Grows flag (.node m) s id path s')
    (hplain : ∀ name ∈ path, name.nodes = []) (hid : s.Whole id) (hm : s.Whole m)
    (ha : s'.Acyclic id) : s'.Whole id where
  acyclic := ha
  inside x hx := by
    rcases h.reaches hplain hx with hx | hx | hx
    · exact (hid.inside x hx).trans_le h.size_le
    · exact (hm.inside x hx).trans_le h.size_le
    · exact hx.2

/-! ## Ways that stay clear -/

theorem Clear.of_beq {a b : Value} (hc : s.Clear id (b :: rest)) (h : (a == b) = true) :
    s.Clear id (a :: rest) := by
  cases hc with
  | last => exact .last id a
  | missing hchild => exact .missing (by rw [child?_beq h, hchild])
  | through hchild honce hapart hnext =>
    exact .through (by rw [child?_beq h, hchild]) honce hapart hnext

/-- What is entered on a way that is stored once is under no other name. -/
theorem Clear.beq_of_child? (hc : s.Clear id (name :: rest)) (hrest : rest ≠ []) {b : Value}
    (hname : s.child? id name = some (.node c)) (hb : s.child? id b = some (.node c)) :
    (name == b) = true := by
  cases hc with
  | last => exact absurd rfl hrest
  | missing hmissing =>
    rw [hname] at hmissing
    cases hmissing
  | through hfound honce =>
    cases hname.symm.trans hfound
    cases hr : s.object? id with
    | none =>
      rw [child?, hr] at hname
      cases hname
    | some r =>
      rw [references_of_object? hr, ObjectRule.references, List.count_append] at honce
      exact beq_of_get?_eq (by omega) (get?_of_child? hr hname) (get?_of_child? hr hb)

/-- Growth makes the first object refer no more often to what was there. -/
theorem Grows.count_references_le (h : Grows flag (.node m) s id (name :: rest) s')
    (hname : name.nodes = []) (ha : s.Acyclic id) (hc : c < s.size) (hcm : c ≠ m) :
    (s'.references id).count c ≤ (s.references id).count c := by
  -- setting a property may drop a reference, and adds one to nothing but what is put
  have put : ∀ {r' : ObjectRule} {y : NodeId}, c ≠ y →
      ((r'.setProperty name (.node y)).mark flag name).references.count c ≤ r'.references.count c := by
    intro r' y hy
    have hmark := (r'.setProperty name (.node y)).count_references_mark_le flag name c
    have hset := r'.count_references_setProperty_le name (.node y) c
    have hnone : (Value.node y).nodes.count c = 0 := by simp [Value.nodes, Ne.symm hy]
    rw [hname, List.count_nil] at hmark hset
    omega
  cases h with
  | @last _ _ r _ hr =>
    rw [references_of_object? (object?_modifyObject_of_some _ hr), references_of_object? hr]
    exact put hcm
  | @more _ _ _ _ _ r _ _ hr hentered _ hnext =>
    rw [references_of_object? hr]
    rcases hnext.object?_of_entered hentered hr ha with ⟨hobj, -⟩ | ⟨hobj, hchild⟩
    · have hmark := r.count_references_mark_le flag name c
      rw [hname, List.count_nil] at hmark
      rw [references_of_object? hobj]
      exact hmark
    · rw [references_of_object? hobj]
      cases hentered with
      | there hfound =>
        rw [hchild] at hfound
        cases hfound
      | made => exact put (Nat.ne_of_lt hc)

/-- Growth leaves a way alone that starts with another name. -/
theorem Grows.clear_first (h : Grows flag (.node m) s id (name :: rest) s')
    (hplain : ∀ n ∈ name :: rest, n.nodes = []) (hid : s.Whole id)
    (hclear : s.Clear id (name :: rest)) (hapart : s.Apart id m) {b : Value}
    {q : List Value} (hb : (name == b) = false) (hq : s.Clear id (b :: q)) :
    s'.Clear id (b :: q) ∧ s'.walk id (b :: q) = s.walk id (b :: q) := by
  obtain ⟨r, hr⟩ := h.object?_start
  obtain ⟨r', hr', -, -, hget⟩ := h.object?_first hid.acyclic hr
  have hsame : s'.child? id b = s.child? id b := by
    rw [child?_of_object? hr', child?_of_object? hr, hget b hb]
  have hagree : ∀ {d}, s.child? id b = some (.node d) → s.Agree s' d := fun {d} hd =>
    h.agree_other hid hclear (mem_references_of_child? hd) fun hrest hname => by
      rw [hclear.beq_of_child? hrest hname hd] at hb
      cases hb
  constructor
  · cases hq with
    | last => exact .last id b
    | missing hchild => exact .missing (by rw [hsame, hchild])
    | @through _ d _ _ hchild honce hbeside hnext =>
      have hd := mem_references_of_child? hchild
      have hdm : d ≠ m := by
        rintro rfl
        exact hapart d (.step hd (.refl d)) (.refl d)
      refine .through (by rw [hsame, hchild]) ?_ ?_ (hnext.congr (hagree hchild))
      · exact (h.count_references_le (hplain name (by simp)) hid.acyclic
          (hid.inside d (.step hd (.refl d))) hdm).trans honce
      · intro y hy hne x hx hyx
        rw [walk_congr q (hagree hchild)] at hx
        -- the way was there before, and nothing that is new or below the new rule leads to it
        have hidx : s.Reaches id x := .step hd (reaches_of_mem_walk hx)
        have hlt := hid.inside x hidx
        rcases h.reaches hplain hyx with hyx | hmx | ⟨hge, -⟩
        · rcases h.mem_references hplain hy with hy | rfl | ⟨hge, -⟩
          · exact hbeside y hy hne x hx hyx
          · exact hapart x hidx hyx
          · cases hyx with
            | refl => exact absurd hlt (Nat.not_lt.mpr hge)
            | step hc => exact absurd (lt_size_of_mem_references hc) (Nat.not_lt.mpr hge)
        · exact hapart x hidx hmx
        · exact absurd hlt (Nat.not_lt.mpr hge)
  · by_cases hq' : q = []
    · subst hq'
      rfl
    rw [walk_of_more s' id b hq', walk_of_more s id b hq', hsame]
    split
    · rw [walk_congr q (hagree ‹_›)]
    · rfl

/-- What is entered on a way that is stored once is referred to once, when growth below it is over. -/
theorem Grows.count_entered_le (hnext : Grows flag (.node m) (s₁.mark flag id name) c rest s')
    (hentered : s.Entered id name s₁ c) (hr : s.object? id = some r) (hrest : rest ≠ [])
    (hname : name.nodes = []) (hid : s.Whole id) (hclear : s.Clear id (name :: rest))
    (hapart : s.Apart id m) : (s'.references id).count c ≤ 1 := by
  rcases hnext.object?_of_entered hentered hr hid.acyclic with ⟨-, hchild⟩ | ⟨hobj, hchild⟩
  · have hmem := mem_references_of_child? hchild
    have hcm : c ≠ m := by
      rintro rfl
      exact hapart c (.step hmem (.refl c)) (.refl c)
    exact ((Grows.more hr hentered hrest hnext).count_references_le hname hid.acyclic
      (hid.inside c (.step hmem (.refl c))) hcm).trans (hclear.of_child? hrest hchild).1
  · cases hentered with
    | there hfound =>
      rw [hchild] at hfound
      cases hfound
    | made =>
      -- nothing referred to the new object before
      have hnone : r.references.count s.size = 0 := by
        refine List.count_eq_zero.mpr fun hmem => ?_
        rw [← references_of_object? hr] at hmem
        exact Nat.lt_irrefl _ (hid.inside _ (.step hmem (.refl _)))
      have hmark := (r.setProperty name (.node s.size)).count_references_mark_le flag name s.size
      have hset := r.count_references_setProperty_le name (.node s.size) s.size
      have hself : (Value.node s.size).nodes.count s.size = 1 := by simp [Value.nodes]
      rw [hname, List.count_nil] at hmark hset
      rw [references_of_object? hobj]
      omega

/-- What the first object refers to when growth below what is entered is over. -/
theorem Grows.mem_references_entered (hnext : Grows flag v (s₁.mark flag id name) c rest s')
    (hentered : s.Entered id name s₁ c) (hr : s.object? id = some r) (hname : name.nodes = [])
    (ha : s.Acyclic id) {d : NodeId} (hd : d ∈ s'.references id) : d ∈ s.references id ∨ d = c := by
  rw [references_of_object? hr]
  rcases hnext.object?_of_entered hentered hr ha with ⟨hobj, -⟩ | ⟨hobj, -⟩
  · rw [references_of_object? hobj] at hd
    exact .inl (ObjectRule.mem_references_mark hname hd)
  · rw [references_of_object? hobj] at hd
    exact (ObjectRule.mem_references_set hname hd).imp_right fun h => List.mem_singleton.mp h

/-- Growth below an object that is entered on a way that is stored once leaves alone what else the
first object refers to. -/
theorem Grows.agree_unentered (hnext : Grows flag v (s₁.mark flag id name) c rest s')
    (hentered : s.Entered id name s₁ c) (hr : s.object? id = some r) (hrest : rest ≠ [])
    (hid : s.Whole id) (hclear : s.Clear id (name :: rest)) {d : NodeId}
    (hd : d ∈ s.references id) (hne : d ≠ c) : s.Agree s' d := by
  refine (Grows.more hr hentered hrest hnext).agree_other hid hclear hd fun _ hfound => ?_
  rcases hnext.object?_of_entered hentered hr hid.acyclic with ⟨-, hchild⟩ | ⟨-, hchild⟩
  · cases hfound.symm.trans hchild
    exact hne rfl
  · rw [hchild] at hfound
    cases hfound

/-- What is on a way below an object that is entered was on it before, or is the object just made. -/
theorem Entered.mem_walk (h : s.Entered id name s₁ c) (hr : s.object? id = some r) (flag : Bool)
    {q : List Value} (hq : q ≠ []) {x : NodeId} (hx : x ∈ (s₁.mark flag id name).walk c q) :
    s.child? id name = some (.node c) ∧ x ∈ s.walk c q ∨ s.size ≤ x := by
  cases h with
  | there hchild =>
    rw [walk_mark] at hx
    exact .inl ⟨hchild, hx⟩
  | made =>
    rw [walk_empty (object?_mark_fill_new flag name hr) hq, List.mem_singleton] at hx
    exact .inr (Nat.le_of_eq hx.symm)

/-- Growth leaves the ways clear that part from its own, and puts nothing on them but objects just
made. -/
theorem Grows.clear (h : Grows flag (.node m) s id path s')
    (hplain : ∀ name ∈ path, name.nodes = []) (hid : s.Whole id) (hclear : s.Clear id path)
    (hm : s.Whole m) (hapart : s.Apart id m) {q : List Value} (hpart : Part path q)
    (hq : s.Clear id q) :
    s'.Clear id q ∧ ∀ x ∈ s'.walk id q, x ∈ s.walk id q ∨ s.size ≤ x := by
  induction h generalizing q with
  | last hr =>
    cases hpart with
    | here hb =>
      obtain ⟨hc, hw⟩ := (Grows.last hr).clear_first hplain hid hclear hapart hb hq
      exact ⟨hc, fun x hx => .inl (hw ▸ hx)⟩
    | later _ hrest => cases hrest
  | @more s s₁ s' id c r name rest hr hentered hrest hnext ih =>
    have hgrows := Grows.more hr hentered hrest hnext
    have hname := hplain name (by simp)
    cases hpart with
    | here hb =>
      obtain ⟨hc, hw⟩ := hgrows.clear_first hplain hid hclear hapart hb hq
      exact ⟨hc, fun x hx => .inl (hw ▸ hx)⟩
    | @later _ b _ q hb hpart =>
      have hq' := hpart.ne_nil.2
      have hmid := hentered.agree flag hm (hapart id (.refl id))
      have hsize := hentered.size_mark_le flag
      have hway := hq.of_beq hb
      obtain ⟨hbelow, hwalk⟩ := ih (fun n hn => hplain n (by simp [hn]))
        (hentered.whole hr hid flag) (hentered.clear hr hid flag hrest hclear)
        (hm.congr hmid hsize) (hentered.apart hr hid flag hm hapart) hpart
        (hentered.clear hr hid flag hq' hway)
      -- what was on the way below was below the object that was there
      have hold : ∀ x ∈ s'.walk c q,
          s.child? id name = some (.node c) ∧ x ∈ s.walk c q ∨ s.size ≤ x := by
        intro x hx
        rcases hwalk x hx with hx | hx
        · exact hentered.mem_walk hr flag hq' hx
        · exact .inr (hsize.trans hx)
      have hchild' : s'.child? id b = some (.node c) := by
        rw [← child?_beq hb, hnext.child?_of_entered hentered hr hid.acyclic]
      have honce := hnext.count_entered_le hentered hr hrest hname hid hclear hapart
      refine ⟨.through hchild' honce ?_ hbelow, ?_⟩
      · intro d hd hne x hx hdx
        have hd := (hnext.mem_references_entered hentered hr hname hid.acyclic hd).resolve_right hne
        have hagree := hnext.agree_unentered hentered hr hrest hid hclear hd hne
        have hdx : s.Reaches d x := hagree.symm.reaches hdx
        rcases hold x hx with ⟨hchild, hx⟩ | hge
        · exact (hway.of_child? hq' hchild).2.1 d hd hne x hx hdx
        · exact absurd (hid.inside x (.step hd hdx)) (Nat.not_lt.mpr hge)
      · intro x hx
        rw [walk_of_more s' id b hq', hchild', List.mem_cons] at hx
        rw [walk_of_more s id b hq', List.mem_cons, ← child?_beq hb]
        rcases hx with hx | hx
        · exact .inl (.inl hx)
        · rcases hold x hx with ⟨hchild, hx⟩ | hge
          · rw [hchild]
            exact .inl (.inr hx)
          · exact .inr hge

end Growth

end DraftSchema.Store
