import DraftSchema.Proofs.Reference

/-!
# Changes of object rules

What a store holds after one of its object rules is changed, after an empty object is put under a
name of it, and after a name of it is listed as required.
-/

namespace DraftSchema

/-- A rule with its object rule changed, if it is one for objects. -/
def Node.mapObject (f : ObjectRule → ObjectRule) : Node → Node
  | ⟨.object r, required⟩ => ⟨.object (f r), required⟩
  | node => node

theorem Node.mapObject_comm {f g : ObjectRule → ObjectRule} (h : ∀ r, f (g r) = g (f r))
    (node : Node) : (node.mapObject f).mapObject g = (node.mapObject g).mapObject f := by
  obtain ⟨rule, required⟩ := node
  cases rule <;> simp [mapObject, h]

namespace ObjectRule

/-- Lists a name as required if a flag says so. -/
def mark (r : ObjectRule) (flag : Bool) (name : Value) : ObjectRule :=
  if flag then r.addRequired name else r

@[simp] theorem setProperty_properties (r : ObjectRule) (name v : Value) :
    (r.setProperty name v).properties = r.properties.set name v := rfl

@[simp] theorem setProperty_required (r : ObjectRule) (name v : Value) :
    (r.setProperty name v).required = r.required := rfl

@[simp] theorem setProperty_kind (r : ObjectRule) (name v : Value) :
    (r.setProperty name v).kind = r.kind := rfl

@[simp] theorem setProperty_model (r : ObjectRule) (name v : Value) :
    (r.setProperty name v).model = r.model := rfl

@[simp] theorem setProperty_additional (r : ObjectRule) (name v : Value) :
    (r.setProperty name v).additional = r.additional := rfl

theorem addRequired_eq (r : ObjectRule) (name : Value) :
    r.addRequired name = { r with required := (r.addRequired name).required } := by
  unfold addRequired
  split <;> rfl

theorem mark_eq (r : ObjectRule) (flag : Bool) (name : Value) :
    r.mark flag name = { r with required := (r.mark flag name).required } := by
  cases flag
  · rfl
  · exact r.addRequired_eq name

@[simp] theorem mark_properties (r : ObjectRule) (flag : Bool) (name : Value) :
    (r.mark flag name).properties = r.properties := by rw [mark_eq]

@[simp] theorem mark_kind (r : ObjectRule) (flag : Bool) (name : Value) :
    (r.mark flag name).kind = r.kind := by rw [mark_eq]

@[simp] theorem mark_model (r : ObjectRule) (flag : Bool) (name : Value) :
    (r.mark flag name).model = r.model := by rw [mark_eq]

@[simp] theorem mark_additional (r : ObjectRule) (flag : Bool) (name : Value) :
    (r.mark flag name).additional = r.additional := by rw [mark_eq]

@[simp] theorem mark_false (r : ObjectRule) (name : Value) : r.mark false name = r := rfl

/-- The required names after one more is listed. -/
theorem mark_required (r : ObjectRule) (flag : Bool) (name : Value) :
    (r.mark flag name).required
      = if flag ∧ r.requires name = false then r.required ++ [name] else r.required := by
  cases flag <;> cases h : r.requires name <;> simp [mark, addRequired, h]

/-- Putting a property and listing a name do not interfere. -/
theorem mark_setProperty (r : ObjectRule) (flag : Bool) (name other v : Value) :
    (r.setProperty other v).mark flag name = (r.mark flag name).setProperty other v := by
  cases flag
  · rfl
  · by_cases h : r.requires name = true <;> simp_all [mark, addRequired, requires, setProperty]

/-- A name is listed once it is marked. -/
theorem requires_mark (r : ObjectRule) (name : Value) : (r.mark true name).requires name = true := by
  rw [mark, if_pos rfl, addRequired]
  by_cases h : r.requires name = true
  · rw [if_pos h, h]
  · rw [if_neg h]
    simp [requires, Entries.has]

end ObjectRule

namespace Store

theorem ext_get? {s t : Store} (h : ∀ x, s.get? x = t.get? x) : s = t := by
  cases s
  cases t
  exact congrArg Store.mk (List.ext_getElem? h)

/-- What stands at the addresses after an object rule is changed. -/
theorem get?_modifyObject (s : Store) (id : NodeId) (f : ObjectRule → ObjectRule) (x : NodeId) :
    (s.modifyObject id f).get? x
      = if x = id then (s.get? id).map (Node.mapObject f) else s.get? x := by
  by_cases hx : x = id
  · subst hx
    unfold modifyObject
    rw [if_pos rfl]
    split
    · rename_i r required h
      have hlt := lt_size_of_get? h
      rw [h]
      simp only [get?, set, List.getElem?_set_self hlt]
      rfl
    · rename_i h
      cases hn : s.get? x with
      | none => rfl
      | some node =>
        obtain ⟨rule, required⟩ := node
        cases rule <;> first | rfl | exact absurd hn (h _ _)
  · rw [if_neg hx, get?_modifyObject_ne s f (Ne.symm hx)]

theorem object?_modifyObject (s : Store) (id : NodeId) (f : ObjectRule → ObjectRule) (x : NodeId) :
    (s.modifyObject id f).object? x = if x = id then (s.object? id).map f else s.object? x := by
  by_cases hx : x = id
  · rw [if_pos hx, hx, object?_modifyObject_self]
  · rw [if_neg hx, object?, object?, get?_modifyObject, if_neg hx]

/-- Changes of object rules that do not interfere may be made in either order. -/
theorem modifyObject_comm (s : Store) (a b : NodeId) {f g : ObjectRule → ObjectRule}
    (h : ∀ r, f (g r) = g (f r)) :
    (s.modifyObject a f).modifyObject b g = (s.modifyObject b g).modifyObject a f := by
  refine ext_get? fun x => ?_
  simp only [get?_modifyObject]
  by_cases ha : x = a <;> by_cases hb : x = b <;> by_cases hab : a = b <;> simp_all
  -- one rule is changed twice
  exact congrArg (Option.map · _) (funext fun node => (Node.mapObject_comm h node))

theorem modifyObject_modifyObject (s : Store) (id : NodeId) (f g : ObjectRule → ObjectRule) :
    (s.modifyObject id f).modifyObject id g = s.modifyObject id fun r => g (f r) := by
  refine ext_get? fun x => ?_
  simp only [get?_modifyObject]
  split
  · rw [if_pos trivial, Option.map_map]
    refine congrArg (Option.map · _) (funext fun node => ?_)
    obtain ⟨rule, required⟩ := node
    cases rule <;> rfl
  · rfl

theorem object?_eq_some {s : Store} {id : NodeId} {r : ObjectRule} :
    s.object? id = some r ↔ ∃ required, s.get? id = some ⟨.object r, required⟩ := by
  unfold object?
  constructor
  · intro h
    split at h
    · rename_i required hget
      exact ⟨required, by rw [hget, Option.some.inj h]⟩
    · cases h
  · rintro ⟨required, h⟩
    rw [h]

/-- What has become of an object rule that was changed. -/
theorem object?_modifyObject_of_some {s : Store} {id : NodeId} {r : ObjectRule}
    (f : ObjectRule → ObjectRule) (hr : s.object? id = some r) :
    (s.modifyObject id f).object? id = some (f r) := by
  rw [object?_modifyObject_self, hr, Option.map_some]

theorem lt_size_of_object? {s : Store} {id : NodeId} {r : ObjectRule} (h : s.object? id = some r) :
    id < s.size := by
  obtain ⟨required, h⟩ := object?_eq_some.mp h
  exact lt_size_of_get? h

@[simp] theorem size_alloc (s : Store) (node : Node) : (s.alloc node).1.size = s.size + 1 := by
  simp [alloc, size]

/-- What stands at the addresses after a rule is put at a new one. -/
theorem get?_alloc (s : Store) (node : Node) (x : NodeId) :
    (s.alloc node).1.get? x = if x = s.size then some node else s.get? x := by
  by_cases hx : x = s.size
  · rw [if_pos hx, hx]
    exact get?_alloc_self s node
  · rw [if_neg hx]
    rcases Nat.lt_or_ge x s.size with hlt | hge
    · exact get?_alloc_lt s node hlt
    · have hout : (s.alloc node).1.size ≤ x := by
        rw [size_alloc]
        exact Nat.lt_of_le_of_ne hge (Ne.symm hx)
      rw [get?_eq_none hout, get?_eq_none hge]

theorem object?_alloc (s : Store) (r : ObjectRule) (required : Value) (x : NodeId) :
    (s.alloc ⟨.object r, required⟩).1.object? x = if x = s.size then some r else s.object? x := by
  by_cases hx : x = s.size <;> simp [object?, get?_alloc, hx]

/-- Putting a rule at a new address and changing another one do not interfere. -/
theorem alloc_modifyObject (s : Store) (node : Node) {id : NodeId} (f : ObjectRule → ObjectRule)
    (h : id < s.size) :
    ((s.modifyObject id f).alloc node).1 = (s.alloc node).1.modifyObject id f := by
  refine ext_get? fun x => ?_
  simp only [get?_alloc, get?_modifyObject, size_modifyObject, if_neg (Nat.ne_of_lt h)]
  by_cases hx : x = s.size
  · rw [if_pos hx, if_neg (hx ▸ Nat.ne_of_gt h)]
    simp [hx]
  · simp [hx]

/-! ## One level -/

/-- Lists a name as required on an object rule if a flag says so. -/
def mark (s : Store) (flag : Bool) (id : NodeId) (name : Value) : Store :=
  s.modifyObject id fun r => r.mark flag name

@[simp] theorem size_mark (s : Store) (flag : Bool) (id : NodeId) (name : Value) :
    (s.mark flag id name).size = s.size := size_modifyObject s id _

theorem get?_mark_ne (s : Store) (flag : Bool) {id x : NodeId} (name : Value) (h : x ≠ id) :
    (s.mark flag id name).get? x = s.get? x :=
  get?_modifyObject_ne s _ (Ne.symm h)

theorem object?_mark (s : Store) (flag : Bool) (id : NodeId) (name : Value) (x : NodeId) :
    (s.mark flag id name).object? x
      = if x = id then (s.object? id).map (·.mark flag name) else s.object? x :=
  object?_modifyObject s id _ x

@[simp] theorem mark_false (s : Store) (x : NodeId) (name : Value) : s.mark false x name = s := by
  have hsame : Node.mapObject (fun r => r.mark false name) = id := by
    funext node
    obtain ⟨rule, required⟩ := node
    cases rule <;> rfl
  refine ext_get? fun y => ?_
  rw [mark, get?_modifyObject, hsame, Option.map_id]
  split
  · subst y
    rfl
  · rfl

theorem object?_mark_of_some {s : Store} {x : NodeId} {r : ObjectRule} (flag : Bool) (id : NodeId)
    (name : Value) (h : s.object? x = some r) :
    (s.mark flag id name).object? x = some (if x = id then r.mark flag name else r) := by
  rw [object?_mark]
  by_cases hx : x = id
  · subst hx
    simp [h]
  · simp [hx, h]

theorem child?_of_object? {s : Store} {id : NodeId} {r : ObjectRule} (h : s.object? id = some r)
    (name : Value) : s.child? id name = (r.properties.get? name).bind Value.present := by
  rw [child?, h]

/-- Only the object rule at an address counts for what a property of it holds. -/
theorem child?_congr {s t : Store} {id : NodeId} (h : s.object? id = t.object? id) (name : Value) :
    s.child? id name = t.child? id name := by
  rw [child?, child?, h]

@[simp] theorem child?_mark (s : Store) (flag : Bool) (id : NodeId) (name : Value) (x : NodeId)
    (other : Value) : (s.mark flag id name).child? x other = s.child? x other := by
  by_cases hx : x = id
  · subst hx
    cases hr : s.object? x with
    | none => rw [child?, child?, object?_mark, if_pos rfl, hr, Option.map_none]
    | some r =>
      have hm : (s.mark flag x name).object? x = some (r.mark flag name) := by
        rw [object?_mark, if_pos rfl, hr, Option.map_some]
      rw [child?_of_object? hm, child?_of_object? hr, ObjectRule.mark_properties]
  · exact child?_congr (by rw [object?_mark, if_neg hx]) other

theorem enter_of_child {s : Store} {id : NodeId} {name v : Value} (h : s.child? id name = some v) :
    s.enter id name = (s, v) := by
  rw [enter, h]

/-- The store in which an empty object stands under a name. -/
def fill (s : Store) (id : NodeId) (name : Value) : Store :=
  (s.alloc ⟨.object .empty, .bool true⟩).1.modifyObject id fun r => r.setProperty name (.node s.size)

theorem enter_of_missing {s : Store} {id : NodeId} {name : Value} (h : s.child? id name = none) :
    s.enter id name = (s.fill id name, .node s.size) := by
  rw [enter, h]
  rfl

theorem size_fill (s : Store) (id : NodeId) (name : Value) :
    (s.fill id name).size = s.size + 1 := by
  rw [fill, size_modifyObject, size_alloc]

theorem get?_fill_lt (s : Store) {id x : NodeId} (name : Value) (hx : x < s.size) (hne : x ≠ id) :
    (s.fill id name).get? x = s.get? x := by
  rw [fill, get?_modifyObject_ne _ _ (Ne.symm hne), get?_alloc_lt s _ hx]

theorem object?_fill {s : Store} {id : NodeId} {r : ObjectRule} (name : Value)
    (hr : s.object? id = some r) (x : NodeId) :
    (s.fill id name).object? x
      = if x = id then some (r.setProperty name (.node s.size))
        else if x = s.size then some .empty else s.object? x := by
  have hne : id ≠ s.size := Nat.ne_of_lt (lt_size_of_object? hr)
  rw [fill, object?_modifyObject]
  simp only [object?_alloc, if_neg hne, hr, Option.map_some]

/-- What stands at the new address is an empty object. -/
theorem object?_fill_new {s : Store} {id : NodeId} {r : ObjectRule} (name : Value)
    (hr : s.object? id = some r) : (s.fill id name).object? s.size = some .empty := by
  rw [object?_fill name hr, if_neg (Nat.ne_of_gt (lt_size_of_object? hr)), if_pos rfl]

/-- The new object is still empty when its name is listed. -/
theorem object?_mark_fill_new {s : Store} {id : NodeId} {r : ObjectRule} (flag : Bool)
    (name : Value) (hr : s.object? id = some r) :
    ((s.fill id name).mark flag id name).object? s.size = some .empty := by
  rw [object?_mark, if_neg (Nat.ne_of_gt (lt_size_of_object? hr)), object?_fill_new name hr]

theorem references_empty {s : Store} {id : NodeId} (h : s.object? id = some .empty) :
    s.references id = [] := by
  obtain ⟨required, hget⟩ := object?_eq_some.mp h
  rw [references_of_get? hget]
  rfl

theorem child?_empty {s : Store} {id : NodeId} (h : s.object? id = some .empty) (name : Value) :
    s.child? id name = none := by
  rw [child?_of_object? h]
  rfl

end Store

end DraftSchema
