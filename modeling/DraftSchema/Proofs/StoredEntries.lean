import DraftSchema.Proofs.Listing
import DraftSchema.Proofs.UnsharedPath

/-!
# What calls put into objects

A call puts rules under names: its own rule under the last name of its path, and the objects that it
makes on the way under the names before. Each goes into the object on that level, which is one on
the way or one that the call has made. `Store.Stocked` says that the object rules of a store hold no
more than that which those of another one did not, and a call leaves nothing else behind, however it
ends.
-/

namespace DraftSchema

theorem Entries.mem_keys {κ α : Type} {es : Entries κ α} {k : κ} :
    k ∈ es.keys ↔ ∃ v, (k, v) ∈ es := by
  simp [Entries.keys]

/-- An entry after one is set was there, or holds what is set under a key that was there or is the
one given. -/
theorem Entries.mem_of_mem_set {κ α : Type} [BEq κ] {es : Entries κ α} {key k : κ} {v u : α}
    (h : (k, u) ∈ es.set key v) : (k, u) ∈ es ∨ (k ∈ es.keys ∨ k = key) ∧ u = v := by
  induction es with
  | nil =>
    cases List.mem_singleton.mp h
    exact .inr ⟨.inr rfl, rfl⟩
  | cons e es ih =>
    obtain ⟨k', v'⟩ := e
    unfold Entries.set at h
    rw [Entries.keys_cons]
    by_cases hk : (k' == key) = true
    · rw [if_pos hk] at h
      rcases List.mem_cons.mp h with h | h
      · cases h
        exact .inr ⟨.inl List.mem_cons_self, rfl⟩
      · exact .inl (List.mem_cons_of_mem _ h)
    · rw [if_neg hk] at h
      rcases List.mem_cons.mp h with h | h
      · cases h
        exact .inl List.mem_cons_self
      · rcases ih h with hmem | ⟨hkey | rfl, rfl⟩
        · exact .inl (List.mem_cons_of_mem _ hmem)
        · exact .inr ⟨.inl (List.mem_cons_of_mem _ hkey), rfl⟩
        · exact .inr ⟨.inr rfl, rfl⟩

namespace ObjectRule

/-- What calls make of an object rule: it keeps its kind and its model, and comes to hold, under its
names and given ones, a rule that is put or has an address below a bound; the rule that is put may
become the one for every key, if it is put for `every` key. -/
structure Stocked (names : Value → Prop) (node : NodeId) (bound : Nat) (every : Prop)
    (r r' : ObjectRule) : Prop where
  kind : r'.kind = r.kind
  model : r'.model = r.model
  additional : r'.additional = r.additional ∨ every ∧ r'.additional = some (.node node)
  required : ∀ k ∈ r'.required, k ∈ r.required ∨ names k
  entries : ∀ k v, (k, v) ∈ r'.properties → (k, v) ∈ r.properties ∨
    (k ∈ r.properties.keys ∨ names k) ∧ ∃ c, v = .node c ∧ (c = node ∨ c < bound)

variable {names : Value → Prop} {node : NodeId} {bound bound' : Nat} {every : Prop}
  {r r' r'' : ObjectRule}

theorem Stocked.refl (r : ObjectRule) : r.Stocked names node bound every r :=
  ⟨rfl, rfl, .inl rfl, fun _ h => .inl h, fun _ _ h => .inl h⟩

/-- The names of an object rule are those it had and given ones. -/
theorem Stocked.keys (h : r.Stocked names node bound every r') {k : Value}
    (hk : k ∈ r'.properties.keys) : k ∈ r.properties.keys ∨ names k := by
  obtain ⟨v, hv⟩ := Entries.mem_keys.mp hk
  rcases h.entries k v hv with hold | ⟨hnew, -⟩
  · exact .inl (Entries.mem_keys.mpr ⟨v, hold⟩)
  · exact hnew

theorem Stocked.trans (h : r.Stocked names node bound every r')
    (h' : r'.Stocked names node bound' every r'') (hbound : bound ≤ bound') :
    r.Stocked names node bound' every r'' where
  kind := h'.kind.trans h.kind
  model := h'.model.trans h.model
  additional := by
    rcases h'.additional with hsame | hset
    · rw [hsame]
      exact h.additional
    · exact .inr hset
  required k hk := by
    rcases h'.required k hk with hmid | hname
    · exact h.required k hmid
    · exact .inr hname
  entries k v hv := by
    rcases h'.entries k v hv with hmid | ⟨hnew, hnode⟩
    · rcases h.entries k v hmid with hold | ⟨hnew, c, hc, hin⟩
      · exact .inl hold
      · exact .inr ⟨hnew, c, hc, hin.imp_right fun hlt => hlt.trans_le hbound⟩
    · refine .inr ⟨?_, hnode⟩
      rcases hnew with hkey | hname
      · exact h.keys hkey
      · exact .inr hname

theorem stocked_setProperty (r : ObjectRule) {name : Value} {c : NodeId} (hname : names name)
    (hc : c = node ∨ c < bound) : r.Stocked names node bound every (r.setProperty name (.node c)) where
  kind := rfl
  model := rfl
  additional := .inl rfl
  required _ hk := .inl hk
  entries k v hv := by
    rw [setProperty_properties] at hv
    rcases Entries.mem_of_mem_set hv with hold | ⟨hkey | rfl, rfl⟩
    · exact .inl hold
    · exact .inr ⟨.inl hkey, c, rfl, hc⟩
    · exact .inr ⟨.inr hname, c, rfl, hc⟩

theorem stocked_mark (r : ObjectRule) (flag : Bool) {name : Value} (hname : names name) :
    r.Stocked names node bound every (r.mark flag name) where
  kind := r.mark_kind flag name
  model := r.mark_model flag name
  additional := .inl (r.mark_additional flag name)
  required k hk := by
    rw [mark_required] at hk
    split at hk
    · rcases List.mem_append.mp hk with hk | hk
      · exact .inl hk
      · cases List.mem_singleton.mp hk
        exact .inr hname
    · exact .inl hk
  entries k v hv := by
    rw [mark_properties] at hv
    exact .inl hv

theorem stocked_additional (r : ObjectRule) (h : every) :
    r.Stocked names node bound every { r with additional := some (.node node) } :=
  ⟨rfl, rfl, .inr ⟨h, rfl⟩, fun _ h => .inl h, fun _ _ h => .inl h⟩

end ObjectRule

namespace Store

/-- The objects that there are on the way along a path, each with the name on its level. -/
def stations (s : Store) (id : NodeId) (path : List Value) : List (NodeId × Value) :=
  (s.walk id path).zip path

/-- What calls make of a store: its object rules get rules under given names, the one that is put or
such that there are by then; new ones start out empty, and nothing else is changed. -/
structure Stocked (names : NodeId → Value → Prop) (node : NodeId) (every : Prop) (s s' : Store) :
    Prop where
  size : s.size ≤ s'.size
  kept : ∀ x r, s.object? x = some r → ∃ r', s'.object? x = some r' ∧
    r.Stocked (names x) node s'.size every r'
  made : ∀ x r', s.object? x = none → s'.object? x = some r' → s.size ≤ x ∧
    ObjectRule.empty.Stocked (names x) node s'.size every r'
  other : ∀ x, x < s'.size → s'.object? x = none → x < s.size ∧ s'.get? x = s.get? x

variable {names : NodeId → Value → Prop} {node : NodeId} {every : Prop} {s s' s'' : Store}

theorem Stocked.refl (s : Store) : s.Stocked names node every s where
  size := Nat.le_refl _
  kept x r h := ⟨r, h, .refl r⟩
  made x r h h' := by rw [h] at h'; cases h'
  other x h _ := ⟨h, rfl⟩

theorem Stocked.trans (h : s.Stocked names node every s') (h' : s'.Stocked names node every s'') :
    s.Stocked names node every s'' := by
  refine ⟨h.size.trans h'.size, fun x r hr => ?_, fun x r'' hx hr'' => ?_, fun x hx hnone => ?_⟩
  · obtain ⟨r', hr', hrr'⟩ := h.kept x r hr
    obtain ⟨r'', hr'', hrr''⟩ := h'.kept x r' hr'
    exact ⟨r'', hr'', hrr'.trans hrr'' h'.size⟩
  · cases hr' : s'.object? x with
    | none =>
      obtain ⟨hsize, hempty⟩ := h'.made x r'' hr' hr''
      exact ⟨h.size.trans hsize, hempty⟩
    | some r' =>
      obtain ⟨hsize, hempty⟩ := h.made x r' hx hr'
      obtain ⟨found, hfound, hrr''⟩ := h'.kept x r' hr'
      cases hfound.symm.trans hr''
      exact ⟨hsize, hempty.trans hrr'' h'.size⟩
  · obtain ⟨hlt', hget'⟩ := h'.other x hx hnone
    -- what is no object in the end was none before
    have hnone' : s'.object? x = none := by rw [object?, ← hget', ← object?, hnone]
    obtain ⟨hlt, hget⟩ := h.other x hlt' hnone'
    exact ⟨hlt, hget'.trans hget⟩

/-- The model of an object rule stays what it is. -/
theorem Stocked.object? (h : s.Stocked names node every s') {x : NodeId} {r : ObjectRule}
    (hr : s.object? x = some r) : ∃ r', s'.object? x = some r' ∧ r'.kind = r.kind ∧
      r'.model = r.model ∧ ∀ k ∈ r'.properties.keys, k ∈ r.properties.keys ∨ names x k := by
  obtain ⟨r', hr', hrr'⟩ := h.kept x r hr
  exact ⟨r', hr', hrr'.kind, hrr'.model, fun k hk => hrr'.keys hk⟩

theorem stocked_modifyObject {id : NodeId} {f : ObjectRule → ObjectRule}
    (h : ∀ r, s.object? id = some r →
      r.Stocked (names id) node s.size every (f r)) :
    s.Stocked names node every (s.modifyObject id f) where
  size := Nat.le_of_eq (size_modifyObject s id f).symm
  kept x r hr := by
    rw [object?_modifyObject, size_modifyObject]
    split
    · subst x
      exact ⟨f r, by rw [hr, Option.map_some], h r hr⟩
    · exact ⟨r, hr, .refl r⟩
  made x r' hx hr' := by
    rw [object?_modifyObject] at hr'
    split at hr'
    · subst x
      rw [hx] at hr'
      cases hr'
    · rw [hx] at hr'
      cases hr'
  other x hx hnone := by
    rw [size_modifyObject] at hx
    refine ⟨hx, ?_⟩
    rw [object?_modifyObject] at hnone
    by_cases hid : x = id
    · subst hid
      rw [if_pos rfl, Option.map_eq_none_iff] at hnone
      unfold modifyObject
      split
      · rename_i hget
        rw [object?, hget] at hnone
        cases hnone
      · rfl
    · exact get?_modifyObject_ne s f (Ne.symm hid)

theorem stocked_alloc_empty (s : Store) (required : Value) :
    s.Stocked names node every (s.alloc ⟨.object .empty, required⟩).1 where
  size := by rw [size_alloc]; exact Nat.le_succ _
  kept x r hr := by
    rw [object?_alloc, if_neg (Nat.ne_of_lt (lt_size_of_object? hr))]
    exact ⟨r, hr, .refl r⟩
  made x r' hx hr' := by
    rw [object?_alloc] at hr'
    split at hr'
    · subst x
      cases hr'
      exact ⟨Nat.le_refl _, .refl _⟩
    · rw [hx] at hr'
      cases hr'
  other x hx hnone := by
    rw [object?_alloc] at hnone
    split at hnone
    · cases hnone
    · rename_i hne
      rw [size_alloc] at hx
      have hlt : x < s.size := Nat.lt_of_le_of_ne (Nat.le_of_lt_succ hx) hne
      exact ⟨hlt, get?_alloc_lt s _ hlt⟩

/-! ## Putting a rule -/

theorem stocked_enter {id : NodeId} {name : Value} (hname : names id name) :
    s.Stocked names node every (s.enter id name).1 := by
  cases hchild : s.child? id name with
  | some v =>
    rw [enter_of_child hchild]
    exact .refl s
  | none =>
    rw [enter_of_missing hchild, fill]
    refine (s.stocked_alloc_empty _).trans (stocked_modifyObject fun r _ => ?_)
    refine r.stocked_setProperty hname (.inr ?_)
    rw [size_alloc]
    exact Nat.lt_succ_self _

/-- Where the names on the way from an object are given ones, so are those from what is entered. -/
theorem names_of_enter {id c : NodeId} {r : ObjectRule} {name : Value} {rest : List Value}
    (hr : s.object? id = some r) (hrest : rest ≠ []) (hnew : ∀ x, s.size ≤ x → ∀ k ∈ rest, names x k)
    (hway : ∀ e ∈ s.stations id (name :: rest), names e.1 e.2)
    (hc : (s.enter id name).2 = .node c) :
    ∀ e ∈ (s.enter id name).1.stations c rest, names e.1 e.2 := by
  intro e he
  cases hchild : s.child? id name with
  | some v =>
    rw [enter_of_child hchild] at hc he
    subst hc
    refine hway e ?_
    rw [stations, walk_of_more s id name hrest, hchild]
    exact List.mem_cons_of_mem _ he
  | none =>
    -- from what was just made there is no way on
    rw [enter_of_missing hchild] at hc he
    cases hc
    obtain ⟨x, k⟩ := e
    obtain ⟨hx, hk⟩ := List.of_mem_zip he
    rw [walk_empty (object?_fill_new name hr) hrest, List.mem_singleton] at hx
    exact hnew x (Nat.le_of_eq hx.symm) k hk

theorem walk_eq_cons (s : Store) (id : NodeId) (name : Value) (rest : List Value) :
    ∃ tail, s.walk id (name :: rest) = id :: tail := by
  by_cases hrest : rest = []
  · subst hrest
    exact ⟨[], rfl⟩
  · exact ⟨_, walk_of_more s id name hrest⟩

/-- The name on the first level of a way is a given one if all on the way are. -/
theorem names_first {id : NodeId} {name : Value} {rest : List Value}
    (hway : ∀ e ∈ s.stations id (name :: rest), names e.1 e.2) : names id name := by
  obtain ⟨tail, hwalk⟩ := s.walk_eq_cons id name rest
  refine hway (id, name) ?_
  rw [stations, hwalk]
  exact List.mem_cons_self

/-- Looking for the levels of a path puts the objects that it makes under names on the way, and the
levels found are those of names on the way. -/
theorem stocked_levels {v : Value} {path : List Value}
    (hnew : ∀ x, s.size ≤ x → ∀ k ∈ path, names x k)
    (hway : ∀ id, v = .node id → ∀ e ∈ s.stations id path, names e.1 e.2) :
    s.Stocked names node every (s.levels v path).1 ∧ ∀ levels, (s.levels v path).2 = .ok levels →
      ∀ e ∈ levels.zip path, ∀ id, e.1 = .node id → names id e.2 := by
  induction path generalizing s v with
  | nil =>
    refine ⟨.refl s, fun levels h e he => ?_⟩
    rw [List.zip_nil_right] at he
    cases he
  | cons name rest ih =>
    by_cases hrest : rest = []
    · subst hrest
      refine ⟨.refl s, fun levels h e he id hid => ?_⟩
      cases h
      cases List.mem_singleton.mp he
      exact names_first (hway id hid)
    rw [levels.eq_3 s v name rest fun h => hrest h]
    split
    · exact ⟨.refl s, fun levels h => by cases h⟩
    · exact ⟨.refl s, fun levels h => by cases h⟩
    · rename_i id hholder _
      obtain ⟨rfl, r, hr⟩ := holder_eq_ok.mp hholder
      have hentered : s.Stocked names node every (s.enter id name).1 :=
        stocked_enter (names_first (hway id rfl))
      have hbefore : ∀ x, s.size ≤ x → ∀ k ∈ rest, names x k :=
        fun x hx k hk => hnew x hx k (List.mem_cons_of_mem _ hk)
      obtain ⟨hbelow, hlevels⟩ := ih (s := (s.enter id name).1) (v := (s.enter id name).2)
        (fun x hx => hbefore x (hentered.size.trans hx))
        (fun c hc => names_of_enter hr hrest hbefore (hway id rfl) hc)
      refine ⟨hentered.trans hbelow, fun levels h e he x hx => ?_⟩
      obtain ⟨tail, htail, rfl⟩ := except_map_eq_ok.mp h
      rcases List.mem_cons.mp he with rfl | he
      · cases hx
        exact names_first (hway id rfl)
      · exact hlevels tail htail e he x hx

theorem stocked_listRequired {flag level name : Value}
    (hname : ∀ id, level = .node id → names id name)
    (h : s.listRequired flag level name = .ok s') : s.Stocked names node every s' := by
  have hlisted := h
  unfold listRequired at h
  split at h
  · cases h
  · cases h
    exact .refl s
  · obtain ⟨id, hid, -⟩ := except_bind_eq_ok.mp h
    obtain ⟨rfl, r, hr⟩ := holder_eq_ok.mp hid
    obtain ⟨b, -, -, rfl⟩ := (listRequired_eq_ok hr).mp hlisted
    exact stocked_modifyObject fun r _ => r.stocked_mark b (hname id rfl)

/-- Placing a rule on the levels of a path puts it under the last name, even if it stops on the
way. -/
theorem stocked_place (flag : Value) {levels path : List Value}
    (hnames : ∀ e ∈ levels.zip path, ∀ id, e.1 = .node id → names id e.2) :
    s.Stocked names node every (s.place flag (.node node) levels path).1 := by
  induction levels generalizing s path with
  | nil =>
    rw [place]
    · exact .refl s
    · intro _ _ _ _ h
      cases h
  | cons level levels ih =>
    cases path with
    | nil =>
      rw [place]
      · exact .refl s
      · intro _ _ _ _ _ h
        cases h
    | cons name rest =>
      rw [place]
      split
      · exact .refl s
      rename_i s₁ hput
      have hs₁ : s.Stocked names node every s₁ := by
        split at hput
        · obtain ⟨id, r, rfl, hr, rfl⟩ := putProperty_eq_ok hput
          refine stocked_modifyObject fun r _ => r.stocked_setProperty ?_ (.inl rfl)
          exact hnames _ List.mem_cons_self id rfl
        · cases hput
          exact .refl s
      split
      · exact hs₁
      · rename_i s₂ hlist
        have hs₂ := hs₁.trans (stocked_listRequired (hnames _ List.mem_cons_self) hlist)
        exact hs₂.trans (ih fun e he => hnames e (List.mem_cons_of_mem _ he))

/-- The names that a call with a path may put something under: those of the path, each on its level
of the way along it or in an object that the call makes. -/
def Named (s : Store) (id : NodeId) (path : List Value) (x : NodeId) (k : Value) : Prop :=
  k ∈ path ∧ ((x, k) ∈ s.stations id path ∨ s.size ≤ x)

theorem stocked_put (s : Store) (id : NodeId) (path : List Value) (flag : Value) :
    s.Stocked (s.Named id path) node every (s.put id path flag (.node node)).1 := by
  have hlevels : s.Stocked (s.Named id path) node every (s.levels (.node id) path).1 ∧
      ∀ levels, (s.levels (.node id) path).2 = .ok levels →
        ∀ e ∈ levels.zip path, ∀ x, e.1 = .node x → s.Named id path x e.2 :=
    stocked_levels (fun x hx k hk => ⟨hk, .inr hx⟩) fun x hx e he => by
      cases hx
      exact ⟨(List.of_mem_zip he).2, .inl he⟩
  unfold put
  split
  · rename_i s₁ f h
    rw [h] at hlevels
    exact hlevels.1
  · rename_i s₁ levels h
    rw [h] at hlevels
    exact hlevels.1.trans (stocked_place flag (hlevels.2 levels rfl))

end Store

namespace Builder

open Build

variable {call : Caller} {id node : NodeId} {selector value : Value} {path : List Value}
  {w w₁ : Workspace}

/-- Once path and rule are known a call puts nothing but the rule and empty objects, under names on
its way, however it ends. The rule is for every key only if the path is empty and it can be shown. -/
theorem stocked_add (id : NodeId) (hres : resolve call selector value w = .ok (path, node) w₁) :
    w₁.store.Stocked (w₁.store.Named id path) node
      (path = [] ∧ ∃ shown, w₁.store.nodeText node = .ok shown)
      ((add call id selector value).after w).store := by
  have hsettled : Settled call id path node w₁ (add call id selector value w) := add_settled hres
  have hput : w₁.store.Stocked (w₁.store.Named id path) node
      (path = [] ∧ ∃ shown, w₁.store.nodeText node = .ok shown)
      (w₁.store.put id path (w₁.store.requirement node) (.node node)).1 :=
    w₁.store.stocked_put id path (w₁.store.requirement node)
  unfold Build.after
  generalize add call id selector value w = result at hsettled
  cases hsettled with
  | unshown | undeclared | conflict => exact .refl _
  | additional empty text =>
    exact Store.stocked_modifyObject fun r _ => r.stocked_additional ⟨empty, _, text⟩
  | stuck _ _ _ h =>
    rw [h] at hput
    exact hput
  | unreported _ _ _ h =>
    rw [h] at hput
    exact hput
  | put _ _ _ h =>
    rw [h] at hput
    exact hput

/-- A call that its model does not let pass changes no properties. -/
theorem checked_of_add (hres : resolve call selector value w = .ok (path, node) w₁) {x : NodeId}
    {r r' : ObjectRule} (hr : w₁.store.object? x = some r)
    (hr' : ((add call id selector value).after w).store.object? x = some r') :
    r'.properties = r.properties ∨ checkModel call id path w₁ = .ok () w₁ := by
  have hsettled : Settled call id path node w₁ (add call id selector value w) := add_settled hres
  unfold Build.after at hr'
  generalize add call id selector value w = result at hsettled hr'
  cases hsettled with
  | unshown | undeclared | conflict =>
    cases hr.symm.trans hr'
    exact .inl rfl
  | additional =>
    refine .inl ?_
    dsimp only [Store.putAdditional] at hr'
    rw [Store.object?_modifyObject] at hr'
    split at hr'
    · subst x
      rw [hr] at hr'
      cases hr'
      rfl
    · cases hr.symm.trans hr'
      rfl
  | stuck _ hcheck | unreported _ hcheck | put _ hcheck => exact .inr hcheck

end Builder

end DraftSchema
