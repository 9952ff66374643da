import DraftSchema.Evaluation.Call
import DraftSchema.Proofs.Document
import DraftSchema.Proofs.Placement
import DraftSchema.Proofs.UnsharedPath

/-!
# What a call leaves alone

A call with a path changes the objects on the way along it and nothing else, and each of them by no
more than one property and one required name. In a tree this leaves alone what other paths lead to,
down to the documents.
-/

namespace DraftSchema

/-- What a call may change in an object on its way: the property under the name of the level is set
on the last level, and made where it is missing on the others; the name may be listed. -/
structure ObjectRule.Gains (r r' : ObjectRule) (name : Value) (rest : List Value) : Prop where
  frame : Store.SameFrame r r'
  properties : r'.properties = r.properties ∨ ∃ v, r'.properties = r.properties.set name v
  kept : rest ≠ [] → ∀ v, (r.properties.get? name).bind Value.present = some v →
    r'.properties = r.properties
  required : r'.required = r.required ∨
    r.requires name = false ∧ r'.required = r.required ++ [name]

namespace ObjectRule

theorem required_mark_cases (r : ObjectRule) (flag : Bool) (name : Value) :
    (r.mark flag name).required = r.required ∨
      r.requires name = false ∧ (r.mark flag name).required = r.required ++ [name] := by
  rw [mark_required]
  split
  · rename_i h
    exact .inr ⟨h.2, rfl⟩
  · exact .inl rfl

theorem gains_mark (r : ObjectRule) (flag : Bool) (name : Value) (rest : List Value) :
    r.Gains (r.mark flag name) name rest where
  frame := ⟨by simp, by simp, by simp⟩
  properties := .inl (by simp)
  kept _ _ _ := by simp
  required := r.required_mark_cases flag name

theorem gains_setProperty {r : ObjectRule} {name : Value} {rest : List Value} (flag : Bool)
    (v : Value) (h : rest ≠ [] → (r.properties.get? name).bind Value.present = none) :
    r.Gains ((r.setProperty name v).mark flag name) name rest where
  frame := ⟨by simp, by simp, by simp⟩
  properties := .inr ⟨v, by simp⟩
  kept hrest w hw := by
    rw [h hrest] at hw
    cases hw
  required := (r.setProperty name v).required_mark_cases flag name

end ObjectRule

namespace Store

theorem follow?_mark (s : Store) (flag : Bool) (x : NodeId) (name v : Value) (q : List Value) :
    (s.mark flag x name).follow? v q = s.follow? v q := by
  induction q generalizing v with
  | nil => rfl
  | cons other q ih =>
    cases v with
    | node id =>
      rw [follow?, follow?, child?_mark]
      simp only [ih]
    | _ => rfl

/-- What is found below a rule depends on the rules below it alone. -/
theorem follow?_congr {s t : Store} {c : NodeId} (h : s.Agree t c) (q : List Value) :
    t.follow? (.node c) q = s.follow? (.node c) q := by
  induction q generalizing c with
  | nil => rfl
  | cons name q ih =>
    have hobj : t.object? c = s.object? c := by rw [object?, object?, h.self]
    rw [follow?, follow?, child?_congr hobj]
    cases hchild : s.child? c name with
    | none => rfl
    | some v =>
      cases v with
      | node d => exact ih (h.child (mem_references_of_child? hchild))
      | _ => cases q <;> rfl

/-- A rule that a path leads to is below the one that the path starts from. -/
theorem reaches_of_follow? {s : Store} {id m : NodeId} {q : List Value}
    (h : s.follow? (.node id) q = some (.node m)) : s.Reaches id m := by
  induction q generalizing id with
  | nil =>
    cases h
    exact .refl _
  | cons name q ih =>
    rw [follow?] at h
    obtain ⟨v, hchild, h⟩ := Option.bind_eq_some_iff.mp h
    cases v with
    | node c => exact .step (mem_references_of_child? hchild) (ih h)
    | _ => cases q <;> cases h

theorem get?_mark_self {s : Store} {id : NodeId} {r : ObjectRule} {required : Value} (flag : Bool)
    (name : Value) (h : s.get? id = some ⟨.object r, required⟩) :
    (s.mark flag id name).get? id = some ⟨.object (r.mark flag name), required⟩ := by
  rw [mark, get?_modifyObject, if_pos rfl, h]
  rfl

/-- What has become of the object that is entered from, with the flag that it is required by. -/
theorem Entered.get?_self {s s₁ : Store} {id c : NodeId} {r : ObjectRule} {required name : Value}
    (h : s.Entered id name s₁ c) (hget : s.get? id = some ⟨.object r, required⟩) :
    s₁.get? id = some ⟨.object r, required⟩ ∨
      s₁.get? id = some ⟨.object (r.setProperty name (.node c)), required⟩ ∧
        s.child? id name = none := by
  cases h with
  | there => exact .inl hget
  | made hchild =>
    refine .inr ⟨?_, hchild⟩
    rw [fill, get?_modifyObject, if_pos rfl, get?_alloc_lt s _ (lt_size_of_get? hget), hget]
    rfl

variable {flag : Bool} {v : Value} {s s' : Store} {id : NodeId} {path : List Value}

/-- What growth makes of the object that the path starts from, with the flag that it is required
by. -/
theorem Grows.gains_first {name : Value} {rest : List Value}
    (h : Grows flag v s id (name :: rest) s') (ha : s.Acyclic id) :
    ∃ r r' required, s.get? id = some ⟨.object r, required⟩ ∧
      s'.get? id = some ⟨.object r', required⟩ ∧ r.Gains r' name rest := by
  cases h with
  | @last _ _ r _ hr =>
    obtain ⟨required, hget⟩ := object?_eq_some.mp hr
    refine ⟨r, _, required, hget, ?_, ObjectRule.gains_setProperty flag v fun h => absurd rfl h⟩
    rw [get?_modifyObject, if_pos rfl, hget]
    rfl
  | @more _ s₁ _ _ c r _ _ hr hentered _ hnext =>
    obtain ⟨required, hget⟩ := object?_eq_some.mp hr
    have hself := hnext.get?_of_entered hentered hr ha
    rcases hentered.get?_self hget with hmid | ⟨hmid, hchild⟩
    · refine ⟨r, _, required, hget, ?_, r.gains_mark flag name rest⟩
      rw [hself, get?_mark_self flag name hmid]
    · refine ⟨r, _, required, hget, ?_, ObjectRule.gains_setProperty flag (.node c) fun _ => ?_⟩
      · rw [hself, get?_mark_self flag name hmid]
      · rw [← child?_of_object? hr, hchild]

/-- What a path leads to from an object that is entered, and was there before, was led to by the
longer path. -/
theorem Entered.follow? {s s₁ : Store} {id c x : NodeId} {r : ObjectRule} {name : Value}
    {q : List Value} (h : s.Entered id name s₁ c) (hr : s.object? id = some r) (hx : x < s.size)
    (hfollow : s₁.follow? (.node c) q = some (.node x)) :
    s.follow? (.node id) (name :: q) = some (.node x) := by
  cases h with
  | there hchild =>
    rw [Store.follow?, hchild]
    exact hfollow
  | made hchild =>
    -- nothing that was there is below an object just made
    cases q with
    | nil =>
      cases hfollow
      exact absurd hx (Nat.lt_irrefl _)
    | cons first q =>
      rw [Store.follow?, child?_empty (object?_fill_new name hr)] at hfollow
      cases hfollow

/-- Growth changes no rule but the objects on the way along the path, each at its own level. -/
theorem Grows.changes (h : Grows flag v s id path s') (ha : s.Acyclic id) {x : NodeId}
    (hx : x < s.size) :
    s'.get? x = s.get? x ∨ ∃ before name rest r r' required,
      path = before ++ name :: rest ∧ s.follow? (.node id) before = some (.node x) ∧
      s.get? x = some ⟨.object r, required⟩ ∧ s'.get? x = some ⟨.object r', required⟩ ∧
      r.Gains r' name rest ∧ (x ≠ id → r.kind.acceptsProperties = true) := by
  -- the first object is changed at the first level
  have first : ∀ {s s' id name rest}, Grows flag v s id (name :: rest) s' → s.Acyclic id →
      ∃ before name' rest' r r' required, name :: rest = before ++ name' :: rest' ∧
        s.follow? (.node id) before = some (.node id) ∧ s.get? id = some ⟨.object r, required⟩ ∧
        s'.get? id = some ⟨.object r', required⟩ ∧ r.Gains r' name' rest' ∧
        (id ≠ id → r.kind.acceptsProperties = true) := by
    intro s s' id name rest h ha
    obtain ⟨r, r', required, hget, hget', hgains⟩ := h.gains_first ha
    exact ⟨[], name, rest, r, r', required, rfl, rfl, hget, hget', hgains, fun h => absurd rfl h⟩
  induction h with
  | @last s id r name hr =>
    by_cases hid : x = id
    · subst hid
      exact .inr (first (.last hr) ha)
    · exact .inl (get?_modifyObject_ne _ _ (Ne.symm hid))
  | @more s s₁ s' id c r name rest hr hentered hrest hnext ih =>
    by_cases hid : x = id
    · subst hid
      exact .inr (first (.more hr hentered hrest hnext) ha)
    have hmid : (s₁.mark flag id name).get? x = s.get? x := by
      rw [get?_mark_ne s₁ flag name hid, hentered.get?_of_ne hx hid]
    rcases ih (hentered.acyclic hr ha flag).1 (hx.trans_le (hentered.size_mark_le flag)) with hsame |
      ⟨before, n, after, rx, rx', required, hpath, hfollow, hget, hget', hgains, hkind⟩
    · exact .inl (hsame.trans hmid)
    rw [follow?_mark] at hfollow
    rw [hmid] at hget
    refine .inr ⟨name :: before, n, after, rx, rx', required, by rw [hpath]; rfl,
      hentered.follow? hr hx hfollow, hget, hget', hgains, fun _ => ?_⟩
    by_cases hxc : x = c
    · subst hxc
      cases hentered with
      | there _ hobj hacc =>
        obtain ⟨required', hobj⟩ := object?_eq_some.mp hobj
        cases hget.symm.trans hobj
        exact hacc
      | made => exact absurd hx (Nat.lt_irrefl _)
    · exact hkind hxc

/-! ## Beside the way -/

/-- Growth leaves alone what another property of the first object holds. -/
theorem Grows.agree_beside {name b : Value} {rest : List Value} {c : NodeId}
    (h : Grows flag v s id (name :: rest) s') (ht : s.IsTree id) (hb : (name == b) = false)
    (hchild : s.child? id b = some (.node c)) : s.Agree s' c := by
  refine h.agree_reference ht.toWhole (mem_references_of_child? hchild) ?_
  intro d _ hentered x hwalk hx
  exact ht.children_apart hentered hchild hb (reaches_of_mem_walk hwalk) hx

/-- Growth leaves alone what a path leads to that starts with another name. -/
theorem Grows.follow?_first {name b : Value} {rest q : List Value}
    (h : Grows flag v s id (name :: rest) s') (ht : s.IsTree id) (hb : (name == b) = false) :
    s'.follow? (.node id) (b :: q) = s.follow? (.node id) (b :: q) ∧
      ∀ m, s.follow? (.node id) (b :: q) = some (.node m) → s.Agree s' m := by
  obtain ⟨r, hr⟩ := h.object?_start
  obtain ⟨r', hr', -, -, hget⟩ := h.object?_first ht.acyclic hr
  have hsame : s'.child? id b = s.child? id b := by
    rw [child?_of_object? hr', child?_of_object? hr, hget b hb]
  rw [follow?, follow?, hsame]
  cases hchild : s.child? id b with
  | none => exact ⟨rfl, fun m hm => by cases hm⟩
  | some u =>
    cases u with
    | node c =>
      have hagree := h.agree_beside ht hb hchild
      exact ⟨follow?_congr hagree q, fun m hm => hagree.below (reaches_of_follow? hm)⟩
    | _ => cases q <;> exact ⟨rfl, fun m hm => by cases hm⟩

/-- Growth leaves alone what a path that parts from its own leads to. -/
theorem Grows.follow?_beside (h : Grows flag v s id path s') (ht : s.IsTree id) {q : List Value}
    (hq : Part path q) :
    s'.follow? (.node id) q = s.follow? (.node id) q ∧
      ∀ m, s.follow? (.node id) q = some (.node m) → s.Agree s' m := by
  induction h generalizing q with
  | last hr =>
    cases hq with
    | here hb => exact (Grows.last hr).follow?_first ht hb
    | later _ hrest => cases hrest
  | @more s s₁ s' id c r name rest hr hentered hrest hnext ih =>
    cases hq with
    | here hb => exact (Grows.more hr hentered hrest hnext).follow?_first ht hb
    | @later _ b _ q hb hpart =>
      obtain ⟨hsame, hbelow⟩ := ih (hentered.isTree hr ht flag) hpart
      rw [follow?_mark] at hsame hbelow
      rw [follow?, follow?, ← child?_beq hb, ← child?_beq hb,
        hnext.child?_of_entered hentered hr ht.acyclic, Option.bind_some, hsame]
      cases hentered with
      | there hchild =>
        -- the name listed on this level is above all that the path leads to
        rw [hchild, Option.bind_some]
        refine ⟨rfl, fun m hm => ?_⟩
        have hback := ht.acyclic.not_reaches (mem_references_of_child? hchild)
        exact ((agree_mark flag name hback).below (reaches_of_follow? hm)).trans (hbelow m hm)
      | made hchild =>
        obtain ⟨b', q, rfl⟩ : ∃ b' q', q = b' :: q' := by
          cases hpart <;> exact ⟨_, _, rfl⟩
        rw [hchild, follow?, child?_empty (object?_fill_new name hr)]
        exact ⟨rfl, fun m hm => by cases hm⟩

/-- The objects that two paths go through together, up to the one at which they part. -/
def meet (s : Store) (id : NodeId) : List Value → List Value → List NodeId
  | name :: rest, other :: others =>
    id ::
      if name == other then
        match s.child? id name with
        | some (.node c) => s.meet c rest others
        | _ => []
      else []
  | _, _ => []

theorem meet_mark (s : Store) (flag : Bool) (x : NodeId) (other : Value) (id : NodeId)
    (p q : List Value) : (s.mark flag x other).meet id p q = s.meet id p q := by
  induction p generalizing id q with
  | nil => rfl
  | cons a p ih =>
    cases q with
    | nil => rfl
    | cons b q =>
      rw [meet, meet, child?_mark]
      simp only [ih]

theorem reaches_of_mem_meet {id x : NodeId} {p q : List Value} (h : x ∈ s.meet id p q) :
    s.Reaches id x := by
  induction p generalizing id q with
  | nil => cases h
  | cons a p ih =>
    cases q with
    | nil => cases h
    | cons b q =>
      rw [meet] at h
      rcases List.mem_cons.mp h with rfl | h
      · exact .refl _
      · split at h
        · split at h
          · exact .step (mem_references_of_child? ‹_›) (ih h)
          · cases h
        · cases h

theorem eq_of_mem_meet_empty {id x : NodeId} {p q : List Value} (hid : s.object? id = some .empty)
    (h : x ∈ s.meet id p q) : x = id := by
  cases p with
  | nil => cases h
  | cons a p =>
    cases q with
    | nil => cases h
    | cons b q =>
      rw [meet, child?_empty hid] at h
      rcases List.mem_cons.mp h with rfl | h
      · rfl
      · split at h <;> cases h

/-- The document of an empty object holds nothing. -/
theorem property?_empty {id : NodeId} (h : s.object? id = some .empty) :
    ∃ d, s.documentWithin 1 id = .ok d ∧
      ∀ name rest, Draft04.property? d (name :: rest) = none := by
  obtain ⟨required, hget⟩ := object?_eq_some.mp h
  rw [documentWithin, hget]
  exact ⟨_, rfl, fun name rest => rfl⟩

/-- Growth leaves alone what stands in a document along a path that starts with another name. -/
theorem Grows.property?_first {name b : Value} {rest q : List Value} {r : ObjectRule} {n n' : Nat}
    {d d' : Value} (h : Grows flag v s id (name :: rest) s') (ht : s.IsTree id)
    (hb : (name == b) = false) (hr : s.object? id = some r) (hw : WrittenOut r)
    (hd : s.documentWithin n id = .ok d) (hd' : s'.documentWithin n' id = .ok d') :
    (body r.kind d').bind (Draft04.property? · (b :: q))
      = (body r.kind d).bind (Draft04.property? · (b :: q)) := by
  obtain ⟨r', hr', hkind, hne, hget⟩ := h.object?_first ht.acyclic hr
  have hw' : WrittenOut r' := .inr (.inl hne)
  rcases property_cases (object?_eq_some.mp hr) hw hd b with
    ⟨hnone, hbody⟩ | ⟨k, c, dc, rfl, hc, hdc, hbody⟩
  · rcases property_cases (object?_eq_some.mp hr') hw' hd' b with ⟨-, hbody'⟩ | ⟨_, _, _, -, hc, -⟩
    · rw [hbody, ← hkind, hbody']
    · rw [hget b hb, hnone] at hc
      cases hc
  · rw [← hget b hb] at hc
    obtain ⟨k', dc', rfl, hdc', hbody'⟩ := property_of_child (object?_eq_some.mp hr') hc hd'
    rw [hget b hb] at hc
    have hagree := h.agree_beside ht hb (child?_of_get? hr hc)
    rw [hbody, ← hkind, hbody', document_unique hagree hdc hdc']

/-- What two paths go through together, below an object that is entered, they went through before, or
it is the object just made. -/
theorem Entered.written {s s₁ : Store} {id c : NodeId} {r : ObjectRule} {name b : Value}
    {rest q : List Value} (h : s.Entered id name s₁ c) (hr : s.object? id = some r)
    (ha : s.Acyclic id) (flag : Bool) (hb : (name == b) = true)
    (hw : ∀ x ∈ s.meet id (name :: rest) (b :: q), ∀ r, s.object? x = some r → WrittenOut r) :
    ∀ x ∈ (s₁.mark flag id name).meet c rest q, ∀ r,
      (s₁.mark flag id name).object? x = some r → WrittenOut r := by
  intro x hx rx hrx
  cases h with
  | there hchild =>
    rw [meet_mark] at hx
    have hxid : x ≠ id := by
      rintro rfl
      exact ha.not_reaches (mem_references_of_child? hchild) (reaches_of_mem_meet hx)
    rw [object?_mark, if_neg hxid] at hrx
    refine hw x ?_ rx hrx
    rw [meet, if_pos hb, hchild]
    exact List.mem_cons_of_mem _ hx
  | made =>
    have hempty := object?_mark_fill_new flag name hr
    rw [eq_of_mem_meet_empty hempty hx, hempty] at hrx
    cases hrx
    exact .inl rfl

/-- What stands in a document along a path is what stands in that of the object which is entered by
its first name, when that name has been listed. -/
theorem Entered.property? {s s₁ : Store} {id c : NodeId} {r : ObjectRule} {name b d : Value}
    {q : List Value} {n : Nat} (h : s.Entered id name s₁ c) (hr : s.object? id = some r)
    (ha : s.Acyclic id) (flag : Bool) (hb : (name == b) = true) (hq : q ≠ []) (hw : WrittenOut r)
    (hd : s.documentWithin n id = .ok d) :
    ∃ k dc, (s₁.mark flag id name).documentWithin k c = .ok dc ∧
      (body r.kind d).bind (Draft04.property? · (b :: q)) = Draft04.property? dc q := by
  cases h with
  | there hchild =>
    have hback := ha.not_reaches (mem_references_of_child? hchild)
    have hc := get?_of_child? hr hchild
    rw [Entries.get?_congr hb] at hc
    obtain ⟨k, dc, rfl, hdc, hbody⟩ := property_of_child (object?_eq_some.mp hr) hc hd
    refine ⟨k, dc, ?_, hbody q⟩
    rw [documentWithin_congr k (agree_mark flag name hback), hdc]
  | made hchild =>
    obtain ⟨b', q, rfl⟩ := List.exists_cons_of_ne_nil hq
    obtain ⟨d₀, hd₀, hnothing⟩ := property?_empty (object?_mark_fill_new flag name hr)
    rcases property_cases (object?_eq_some.mp hr) hw hd b with
      ⟨-, hbody⟩ | ⟨_, _, _, -, hc, -⟩
    · exact ⟨1, d₀, hd₀, (hbody _).trans (hnothing b' q).symm⟩
    · rw [← Entries.get?_congr hb] at hc
      rw [child?_of_get? hr hc] at hchild
      cases hchild

/-- Growth leaves alone what stands in a document along a path that parts from its own, provided
that no object that both paths go through was written as its one rule for every key. -/
theorem Grows.property?_beside (h : Grows flag v s id path s') (ht : s.IsTree id) {q : List Value}
    (hq : Part path q) {r : ObjectRule} (hr : s.object? id = some r)
    (hw : ∀ x ∈ s.meet id path q, ∀ r, s.object? x = some r → WrittenOut r) {n n' : Nat}
    {d d' : Value} (hd : s.documentWithin n id = .ok d) (hd' : s'.documentWithin n' id = .ok d') :
    (body r.kind d').bind (Draft04.property? · q) = (body r.kind d).bind (Draft04.property? · q) := by
  induction h generalizing q r n n' d d' with
  | last hobj =>
    cases hq with
    | here hb => exact (Grows.last hobj).property?_first ht hb hr (hw _ (by simp [meet]) r hr) hd hd'
    | later _ hrest => cases hrest
  | @more s s₁ s' id c ro name rest hobj hentered hrest hnext ih =>
    have hgrows := Grows.more hobj hentered hrest hnext
    have hwr : WrittenOut r := hw id (by cases hq <;> simp [meet]) r hr
    cases hq with
    | here hb => exact hgrows.property?_first ht hb hr hwr hd hd'
    | @later _ b _ q hb hpart =>
      obtain ⟨rc, hrc, haccepts⟩ := hentered.object?_entered hr
      have hrc₂ := object?_mark_of_some flag id name hrc
      have hkind₂ : (if c = id then rc.mark flag name else rc).kind.acceptsProperties = true := by
        split <;> simp [haccepts]
      -- one step down in the documents of both stores
      obtain ⟨k, dc, hdc, hbody⟩ :=
        hentered.property? hr ht.acyclic flag hb hpart.ne_nil.2 hwr hd
      obtain ⟨r', hr', hkind, -, -⟩ := hgrows.object?_first ht.acyclic hr
      have hchild' := get?_of_child? hr' (hnext.child?_of_entered hentered hr ht.acyclic)
      rw [Entries.get?_congr hb] at hchild'
      obtain ⟨k', dc', rfl, hdc', hbody'⟩ := property_of_child (object?_eq_some.mp hr') hchild' hd'
      -- what is left is what the growth below leaves alone
      have hsame := ih (hentered.isTree hr ht flag) hpart hrc₂
        (hentered.written hr ht.acyclic flag hb hw) hdc hdc'
      rw [body_of_accepts hkind₂, body_of_accepts hkind₂, Option.bind_some,
        Option.bind_some] at hsame
      rw [hbody, ← hkind, hbody', hsame]

end Store

namespace Builder

open Build Store

variable {call : Caller} {id node : NodeId} {selector value : Value} {path : List Value}
  {w w₁ w' : Workspace}

theorem store_of_add_nil (hres : resolve call selector value w = .ok ([], node) w₁)
    (hadd : add call id selector value w = .ok () w') :
    w'.store = w₁.store.putAdditional id (.node node) := by
  have hsettled : Settled call id [] node w₁ (add call id selector value w) := add_settled hres
  rw [hadd] at hsettled
  cases hsettled with
  | additional => rfl
  | put hne => exact absurd rfl hne

/-- The frame of a successful call, from when the functions among its selector and its value had been
run. Without a path it changes the rule of the builder for every key. With a path it changes the
objects on the way, each at its own level, and no other dictionary. If the builder's rules form a
tree it leaves alone what other paths lead to; and so it does in the documents, provided that no
object that both paths go through was written as its one rule for every key. -/
theorem add_frame (hres : resolve call selector value w = .ok (path, node) w₁)
    (hbuilder : isBuilder w₁.store id = true) (hclosed : w₁.store.Closed)
    (hacyclic : w₁.store.Acyclic id) (hadd : add call id selector value w = .ok () w') :
    (path = [] → ∀ x, w'.store.get? x =
      if x = id then
        (w₁.store.get? id).map (Node.mapObject fun r => { r with additional := some (.node node) })
      else w₁.store.get? x) ∧
    (path ≠ [] →
      (∀ x, x < w₁.store.size → w'.store.get? x = w₁.store.get? x ∨
        ∃ before name rest r r' required, path = before ++ name :: rest ∧
          w₁.store.follow? (.node id) before = some (.node x) ∧
          w₁.store.get? x = some ⟨.object r, required⟩ ∧
          w'.store.get? x = some ⟨.object r', required⟩ ∧
          r.Gains r' name rest ∧ (x ≠ id → r.kind.acceptsProperties = true)) ∧
      (∀ x r, w₁.store.object? x = some r → r.kind = .dictionary → x ≠ id →
        w'.store.get? x = w₁.store.get? x) ∧
      ((w₁.store.held id).Nodup →
        ∀ q, path.isPrefixOf q = false → q.isPrefixOf path = false →
          w'.store.follow? (.node id) q = w₁.store.follow? (.node id) q ∧
          (∀ m, w₁.store.follow? (.node id) q = some (.node m) →
            w'.store.document m = w₁.store.document m) ∧
          ((∀ x ∈ w₁.store.meet id path q, ∀ r, w₁.store.object? x = some r → WrittenOut r) →
            ∀ r d d', w₁.store.object? id = some r → w₁.store.document id = .ok d →
              w'.store.document id = .ok d' →
              (body r.kind d').bind (Draft04.property? · q)
                = (body r.kind d).bind (Draft04.property? · q)))) := by
  constructor
  · rintro rfl x
    rw [store_of_add_nil hres hadd, putAdditional, get?_modifyObject]
  intro hp
  obtain ⟨b, -, hgrows⟩ := grows_of_add hp hres hbuilder hadd
  have hchanges := fun x hx => hgrows.changes hacyclic (x := x) hx
  refine ⟨hchanges, ?_, ?_⟩
  · -- an object that is changed below the builder accepts properties, which no dictionary does
    intro x r hr hkind hne
    rcases hchanges x (lt_size_of_object? hr) with hsame |
      ⟨before, name, rest, rx, rx', required, -, -, hget, -, -, haccepts⟩
    · exact hsame
    · obtain ⟨required', hget'⟩ := object?_eq_some.mp hr
      rw [hget] at hget'
      cases hget'
      have := haccepts hne
      rw [hkind] at this
      cases this
  · intro honce q hpq hqp
    obtain ⟨r, hr⟩ := hgrows.object?_start
    have htree : w₁.store.IsTree id :=
      ⟨hclosed.whole hacyclic (lt_size_of_object? hr), honce⟩
    have hpart : Part path q := part_iff.mpr ⟨hpq, hqp⟩
    obtain ⟨hfollow, hagree⟩ := hgrows.follow?_beside htree hpart
    refine ⟨hfollow, fun m hm => ?_, fun hw r d d' hr hd hd' => ?_⟩
    · exact (document_congr (hacyclic.reaches (reaches_of_follow? hm)) (hagree m hm)).symm
    · exact hgrows.property?_beside htree hpart hr hw hd hd'

/-- A builder with an object that has a property `c`. -/
def withNested : Workspace :=
  { store := ⟨[
      ⟨.object { kind := .schema, model := .null, properties := [(.text "a", .node 1)],
                 required := [.text "a"], additional := none }, .bool true⟩,
      ⟨.object { ObjectRule.empty with properties := [(.text "c", .node 2)] }, .bool true⟩,
      ⟨.boolean (some [.bool true]), .bool true⟩]⟩ }

/-- A call with the path to `b` leaves alone what stands under `c` beside it. -/
theorem add_frame_nested :
    ∃ w', add Build.call 0 (.list 0 [.text "a", .text "b"]) (.int 1) withNested = .ok () w' ∧
      w'.store.follow? (.node 0) [.text "a", .text "c"] = some (.node 2) ∧
      w'.store.document 2 = withNested.store.document 2 := by
  obtain ⟨w', hadd⟩ : ∃ w', add Build.call 0 (.list 0 [.text "a", .text "b"]) (.int 1) withNested
      = .ok () w' := ⟨_, rfl⟩
  have hres : resolve Build.call (.list 0 [.text "a", .text "b"]) (.int 1) withNested
      = .ok ([.text "a", .text "b"], 3) _ := rfl
  have hframe := (add_frame hres rfl (by unfold Closed; decide)
    (acyclic_of_rank (fun id => 2 - id) (by decide) 0) hadd).2 (by simp)
  have hbeside := hframe.2.2 (by decide) [.text "a", .text "c"] (by decide) (by decide)
  exact ⟨w', hadd, hbeside.1, hbeside.2.1 2 rfl⟩

/-- A builder that holds nothing but one rule for every key, which is a builder itself. -/
def withWildcard : Workspace :=
  { store := ⟨[
      ⟨.object { ObjectRule.empty with kind := .schema, additional := some (.node 1) }, .bool true⟩,
      ⟨.object { ObjectRule.empty with kind := .schema, properties := [(.text "x", .node 2)] },
        .bool true⟩,
      ⟨.boolean (some [.bool true]), .bool true⟩]⟩ }

/-- A builder that is written as its one rule for every key is written with its own properties once
it has one, and what stood in its document under `x` is gone. A selector may itself put a rule that
is in no way on the path. -/
theorem add_frame_fails :
    (∃ w' d d', add Build.call 0 (.list 0 [.text "y"]) (.bool true) withWildcard = .ok () w' ∧
      withWildcard.store.document 0 = .ok d ∧ w'.store.document 0 = .ok d' ∧
      (Draft04.property? d [.text "x"]).isSome = true ∧
      (Draft04.property? d' [.text "x"]).isSome = false) ∧
    (∃ w', add Build.call 0
        (.function 0 (.and
          (.call (.attr (.const (.ref "b")) "with_") [.const (.list [.text "x"]), .const (.int 1)])
          (.attr .arg "y")))
        (.bool true) alone = .ok () w' ∧
      alone.store.child? 0 (.text "x") = none ∧
      w'.store.child? 0 (.text "x") = some (.node 1)) :=
  ⟨⟨_, _, _, rfl, rfl, rfl, rfl, rfl⟩, _, rfl, rfl, rfl⟩

end Builder

end DraftSchema
