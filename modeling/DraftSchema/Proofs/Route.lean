import DraftSchema.Proofs.Listing
import DraftSchema.Proofs.Recast

/-!
# Ways from a builder of the other kind

A path that starts from a builder leads to the same places if the builder becomes a dictionary: the
same models declare it, the same things block it, and what is put at its end is the same. Faults may
be worded differently, since they may name the class of the builder, but not be of another sort.
-/

namespace DraftSchema

open Catalog (outcome outcome_bind outcome_map)

/-- Names are listed as required whatever the kind of an object rule. -/
theorem ObjectRule.addRequired_kind (r : ObjectRule) (kind : ObjectKind) (name : Value) :
    { r with kind }.addRequired name = { r.addRequired name with kind } := by
  have hsame : { r with kind }.requires name = r.requires name := rfl
  rw [addRequired, addRequired, hsame]
  cases r.requires name <;> rfl

namespace Store

variable {s : Store} {id x c : NodeId} {name v : Value} {path : List Value} {r : ObjectRule}

/-! ## Ways -/

/-- A path through other objects leads through the same ones. -/
theorem Aside.passable?_recast (h : s.Aside id) (hchild : s.child? x name = some v) :
    (s.recast id).passable? v = s.passable? v := by
  unfold passable?
  split
  · rename_i c
    rw [object?_recast, if_neg (h.ne_of_mem (mem_references_of_child? hchild))]
  · rfl

theorem Aside.sort_blocked (h : s.Aside id) (hr : s.object? id = some r) (v : Value)
    (hpath : ∀ name ∈ path, id ∉ name.nodes) :
    ((s.recast id).blocked v path).sort = (s.blocked v path).sort := by
  have hv := h.valueText_alike hr v
  unfold blocked
  rw [h.pointer_recast hpath]
  generalize (s.recast id).valueText v = shown at hv ⊢
  generalize s.valueText v = shown' at hv ⊢
  cases hv with
  | ok a b => cases s.pointer path <;> rfl
  | error f => rfl

/-- Whether something blocks a path, and at which name, does not depend on the kind of the builder
that the path starts from. -/
theorem Aside.conflict?_recast (h : s.Aside id) (hr : s.object? id = some r) (x : NodeId)
    {seen : List Value} (hpath : ∀ name ∈ seen ++ path, id ∉ name.nodes) :
    ((s.recast id).conflict? x seen path).map Fault.sort = (s.conflict? x seen path).map Fault.sort := by
  induction path generalizing x seen with
  | nil => rfl
  | cons name rest ih =>
    cases rest with
    | nil => rfl
    | cons next rest =>
      have hseen : ∀ other ∈ seen ++ [name], id ∉ other.nodes := fun other hother =>
        hpath other (by simp only [List.mem_append, List.mem_cons] at hother ⊢; tauto)
      rw [conflict?.eq_3 _ x seen name (next :: rest) (by simp),
        conflict?.eq_3 s x seen name (next :: rest) (by simp), unhashable?, unhashable?, child?_recast]
      cases name.unhashable? with
      | some v => rfl
      | none =>
        cases hchild : s.child? x name with
        | none => rfl
        | some v =>
          simp only [Option.map_none, h.passable?_recast hchild]
          cases s.passable? v with
          | some child => exact ih child (by simpa using hpath)
          | none => exact congrArg some (h.sort_blocked hr v hseen)

/-! ## What is put -/

/-- What holds the properties is asked for alike. -/
theorem outcome_holder (s : Store) (id : NodeId) (v : Value) (part : String) :
    outcome Fault.sort ((s.recast id).holder v part) = outcome Fault.sort (s.holder v part) := by
  have hmissing : ((s.recast id).missing v part).sort = (s.missing v part).sort :=
    (sort_missing _ v part).trans (sort_missing s v part).symm
  unfold holder
  split
  · rw [isSome_object?_recast]
    split
    · rfl
    · exact congrArg Except.error hmissing
  · exact congrArg Except.error hmissing

theorem modifyObject_recast (s : Store) (id x : NodeId) {f : ObjectRule → ObjectRule}
    (hf : ∀ r, f { r with kind := .dictionary } = { f r with kind := .dictionary }) :
    (s.recast id).modifyObject x f = (s.modifyObject x f).recast id :=
  modifyObject_comm s id x fun r => (hf r).symm

theorem enter_recast (hid : id < s.size) (x : NodeId) (name : Value) :
    (s.recast id).enter x name = ((s.enter x name).1.recast id, (s.enter x name).2) := by
  cases hchild : s.child? x name with
  | some v => rw [enter_of_child hchild, enter_of_child ((child?_recast s id x name).trans hchild)]
  | none =>
    rw [enter_of_missing hchild, enter_of_missing ((child?_recast s id x name).trans hchild),
      size_recast, fill, fill, recast, alloc_modifyObject s _ _ hid, size_modifyObject]
    exact congrArg (·, _) (modifyObject_recast _ id x fun _ => rfl)

/-- The objects along a path are found or made alike. -/
theorem levels_recast (hid : id < s.size) (v : Value) (path : List Value) :
    ((s.recast id).levels v path).1 = (s.levels v path).1.recast id ∧
      outcome Fault.sort ((s.recast id).levels v path).2
        = outcome Fault.sort (s.levels v path).2 := by
  induction path generalizing s v with
  | nil => exact ⟨rfl, rfl⟩
  | cons name rest ih =>
    cases rest with
    | nil => exact ⟨rfl, rfl⟩
    | cons next rest =>
      rw [levels.eq_3 _ v name (next :: rest) (by simp),
        levels.eq_3 s v name (next :: rest) (by simp), unhashable?, unhashable?]
      rcases outcome_eq_iff.mp (outcome_holder s id v "properties") with
        ⟨x, hx, hx'⟩ | ⟨f, g, hf, hg, hsort⟩
      · rw [hx, hx']
        cases name.unhashable? with
        | some key => exact ⟨rfl, rfl⟩
        | none =>
          have hle : s.size ≤ (s.enter x name).1.size := size_enter_le rfl
          obtain ⟨hstore, hlevels⟩ := ih (hid.trans_le hle) (s.enter x name).2
          simp only [Option.map_none, enter_recast hid]
          refine ⟨hstore, ?_⟩
          exact (outcome_map _ _).trans ((congrArg _ hlevels).trans (outcome_map _ _).symm)
      · rw [hf, hg]
        exact ⟨rfl, congrArg Except.error hsort⟩

/-- The stores are the same but for the kind of a builder, and the faults but for their words. -/
theorem outcome_putProperty (s : Store) (id : NodeId) (level name v : Value) :
    outcome Fault.sort ((s.recast id).putProperty level name v)
      = (·.recast id) <$> outcome Fault.sort (s.putProperty level name v) := by
  rw [putProperty, putProperty, unhashable?, unhashable?]
  rcases outcome_eq_iff.mp (outcome_holder s id level "properties") with
    ⟨x, hx, hx'⟩ | ⟨f, g, hf, hg, hsort⟩
  · rw [hx, hx']
    cases name.unhashable? with
    | some key => rfl
    | none => exact congrArg Except.ok (modifyObject_recast s id x fun _ => rfl)
  · rw [hf, hg]
    exact congrArg Except.error hsort

theorem outcome_listRequired (s : Store) (id : NodeId) (flag level name : Value) :
    outcome Fault.sort ((s.recast id).listRequired flag level name)
      = (·.recast id) <$> outcome Fault.sort (s.listRequired flag level name) := by
  unfold listRequired
  cases flag.truth with
  | error r => rfl
  | ok flag =>
    cases flag with
    | false => rfl
    | true =>
      rcases outcome_eq_iff.mp (outcome_holder s id level "add_required") with
        ⟨x, hx, hx'⟩ | ⟨f, g, hf, hg, hsort⟩
      · have hmark : ((s.recast id).modifyObject x fun r => r.addRequired name)
            = (s.modifyObject x fun r => r.addRequired name).recast id :=
          modifyObject_recast s id x (·.addRequired_kind .dictionary name)
        have hsearch := searchable_recast s id x name
        simp only [hx, hx', bind, Except.bind, hsearch]
        cases (s.object? x).all (·.searchable name) with
        | false => rfl
        | true => exact congrArg Except.ok hmark
      · simp only [hf, hg]
        exact congrArg Except.error hsort

/-- One level of a path after the other gets what it gets in the other store. -/
theorem place_recast (s : Store) (id : NodeId) (flag v : Value) (levels path : List Value) :
    ((s.recast id).place flag v levels path).1 = (s.place flag v levels path).1.recast id ∧
      outcome Fault.sort ((s.recast id).place flag v levels path).2
        = outcome Fault.sort (s.place flag v levels path).2 := by
  induction path generalizing s levels with
  | nil => cases levels <;> exact ⟨rfl, rfl⟩
  | cons name rest ih =>
    cases levels with
    | nil => exact ⟨rfl, rfl⟩
    | cons level levels =>
      have hput : outcome Fault.sort
            (if rest.isEmpty then (s.recast id).putProperty level name v else .ok (s.recast id))
          = (·.recast id) <$> outcome Fault.sort
            (if rest.isEmpty then s.putProperty level name v else .ok s) := by
        split
        · exact outcome_putProperty s id level name v
        · rfl
      rw [← outcome_map] at hput
      rw [place, place]
      rcases outcome_eq_iff.mp hput with ⟨t, ht, ht'⟩ | ⟨f, g, hf, hg, hsort⟩
      · obtain ⟨s₁, hs₁, rfl⟩ := except_map_eq_ok.mp ht'
        have hlist := outcome_listRequired s₁ id flag level name
        rw [← outcome_map] at hlist
        rw [ht, hs₁]
        dsimp only
        rcases outcome_eq_iff.mp hlist with ⟨u, hu, hu'⟩ | ⟨f, g, hf, hg, hsort⟩
        · obtain ⟨s₂, hs₂, rfl⟩ := except_map_eq_ok.mp hu'
          rw [hu, hs₂]
          exact ih s₂ levels
        · obtain hg := except_map_eq_error.mp hg
          rw [hf, hg]
          exact ⟨rfl, congrArg Except.error hsort⟩
      · obtain hg := except_map_eq_error.mp hg
        rw [hf, hg]
        exact ⟨rfl, congrArg Except.error hsort⟩

/-- What a path and a value make of a store does not depend on the kind of a builder, and neither
does whether they can. -/
theorem put_recast (hid : id < s.size) (x : NodeId) (path : List Value) (flag v : Value) :
    ((s.recast id).put x path flag v).1 = (s.put x path flag v).1.recast id ∧
      outcome Fault.sort ((s.recast id).put x path flag v).2
        = outcome Fault.sort (s.put x path flag v).2 := by
  obtain ⟨hstore, hlevels⟩ := levels_recast hid (.node x) path
  unfold put
  rcases outcome_eq_iff.mp hlevels with ⟨ls, hls, hls'⟩ | ⟨f, g, hf, hg, hsort⟩
  · rw [← Prod.eta ((s.recast id).levels (.node x) path), ← Prod.eta (s.levels (.node x) path), hls, hls', hstore]
    exact place_recast _ id flag v ls path
  · rw [← Prod.eta ((s.recast id).levels (.node x) path), ← Prod.eta (s.levels (.node x) path), hf, hg, hstore]
    exact ⟨rfl, congrArg Except.error hsort⟩

/-! ## What is put beside a builder -/

theorem Aside.modifyObject {f : ObjectRule → ObjectRule} (h : s.Aside id)
    (hf : ∀ r, s.object? x = some r → id ∉ (f r).references) : (s.modifyObject x f).Aside id := by
  intro y hy
  cases hx : s.object? x with
  | none =>
    have hsame : s.modifyObject x f = s := by
      unfold Store.modifyObject
      split
      · rename_i hget
        rw [object?, hget] at hx
        cases hx
      · rfl
    exact h y (hsame ▸ hy)
  | some r =>
    by_cases hyx : y = x
    · subst hyx
      rw [references_of_object? (object?_modifyObject_of_some f hx)] at hy
      exact hf r hx hy
    · rw [references_congr (get?_modifyObject_ne s f (Ne.symm hyx))] at hy
      exact h y hy

theorem Aside.alloc {node : Node} (h : s.Aside id) (hnode : id ∉ node.rule.references) :
    (s.alloc node).1.Aside id := by
  intro y hy
  have hget := get?_alloc s node y
  by_cases hy' : y = s.size
  · rw [if_pos hy'] at hget
    exact hnode (references_of_get? hget ▸ hy)
  · rw [if_neg hy'] at hget
    exact h y (references_congr hget ▸ hy)

theorem Aside.setProperty (h : s.Aside id) (x : NodeId) (hname : id ∉ name.nodes)
    (hv : id ∉ v.nodes) : (s.modifyObject x fun r => r.setProperty name v).Aside id := by
  refine h.modifyObject fun r hr => ?_
  have hset := r.count_references_setProperty_le name v id
  have hold : id ∉ r.references := references_of_object? hr ▸ h x
  rw [← List.count_eq_zero] at hname hv hold ⊢
  omega

theorem Aside.mark (h : s.Aside id) (flag : Bool) (x : NodeId) (hname : id ∉ name.nodes) :
    (s.mark flag x name).Aside id := by
  refine h.modifyObject fun r hr => ?_
  have hmark := r.count_references_mark_le flag name id
  have hold : id ∉ r.references := references_of_object? hr ▸ h x
  rw [← List.count_eq_zero] at hname hold ⊢
  omega

theorem Aside.putAdditional (h : s.Aside id) (x : NodeId) (hc : c ≠ id) :
    (s.putAdditional x (.node c)).Aside id := by
  refine h.modifyObject fun r hr hmem => ?_
  have hold : id ∉ r.references := references_of_object? hr ▸ h x
  simp only [ObjectRule.references, List.mem_append, not_or] at hold
  simp only [ObjectRule.references, List.mem_append, hold, false_or] at hmem
  simp only [Option.toList, Value.nodesOf, Value.nodes, List.append_nil, List.mem_singleton] at hmem
  exact hc hmem.symm

theorem Aside.enter (h : s.Aside id) (hid : id < s.size) (x : NodeId) (hname : id ∉ name.nodes) :
    (s.enter x name).1.Aside id := by
  cases hchild : s.child? x name with
  | some v =>
    rw [enter_of_child hchild]
    exact h
  | none =>
    rw [enter_of_missing hchild]
    refine Aside.setProperty (h.alloc List.not_mem_nil) x hname fun hmem => ?_
    exact Nat.ne_of_lt hid (List.mem_singleton.mp hmem)

theorem Aside.levels (h : s.Aside id) (hid : id < s.size) (v : Value)
    (hpath : ∀ name ∈ path, id ∉ name.nodes) : (s.levels v path).1.Aside id := by
  induction path generalizing s v with
  | nil => exact h
  | cons name rest ih =>
    by_cases hrest : rest = []
    · subst hrest
      exact h
    rw [levels.eq_3 s v name rest fun heq => hrest heq]
    split
    · exact h
    · exact h
    · rename_i x _ _
      exact ih (h.enter hid x (hpath name List.mem_cons_self)) (hid.trans_le (size_enter_le rfl)) _
        fun other hother => hpath other (List.mem_cons_of_mem _ hother)

theorem Aside.listRequired {t : Store} {flag level : Value} (h : s.Aside id)
    (hname : id ∉ name.nodes) (hlist : s.listRequired flag level name = .ok t) : t.Aside id := by
  have hlisted := hlist
  unfold Store.listRequired at hlist
  split at hlist
  · cases hlist
  · cases hlist
    exact h
  · obtain ⟨x, hx, -⟩ := except_bind_eq_ok.mp hlist
    obtain ⟨rfl, r, hr⟩ := holder_eq_ok.mp hx
    obtain ⟨b, -, -, rfl⟩ := (listRequired_eq_ok hr).mp hlisted
    exact h.mark b x hname

theorem Aside.place (h : s.Aside id) (flag : Value) (hv : id ∉ v.nodes) (levels : List Value)
    (hpath : ∀ name ∈ path, id ∉ name.nodes) : (s.place flag v levels path).1.Aside id := by
  induction path generalizing s levels with
  | nil => cases levels <;> exact h
  | cons name rest ih =>
    cases levels with
    | nil => exact h
    | cons level levels =>
      have hname := hpath name List.mem_cons_self
      rw [Store.place]
      split
      · exact h
      · rename_i s₁ hput
        have h₁ : s₁.Aside id := by
          split at hput
          · obtain ⟨x, r, rfl, -, rfl⟩ := putProperty_eq_ok hput
            exact h.setProperty x hname hv
          · cases hput
            exact h
        split
        · exact h₁
        · rename_i s₂ hlist
          exact ih (h₁.listRequired hname hlist) levels fun other hother =>
            hpath other (List.mem_cons_of_mem _ hother)

/-- A builder that no rule holds is held by none after a call that does not put it or a name with it
in. -/
theorem Aside.put (h : s.Aside id) (hid : id < s.size) (x : NodeId) (flag : Value)
    (hv : id ∉ v.nodes) (hpath : ∀ name ∈ path, id ∉ name.nodes) :
    (s.put x path flag v).1.Aside id := by
  have hlevels := h.levels hid (.node x) hpath
  unfold Store.put
  split
  · rename_i hf
    rwa [hf] at hlevels
  · rename_i s₁ levels hls
    rw [hls] at hlevels
    exact hlevels.place flag hv levels hpath

end Store

/-! ## What a model says -/

namespace Catalog

variable {catalog : Catalog} {read : String → Except Fault Value} {s : Store} {id : NodeId}
  {r : ObjectRule} {label label' : Value → Except Fault String} {path : List Value}

/-- The fields that a type declares are found alike among any rules. -/
theorem outcome_fields (s t : Store) (type : Value) :
    outcome Fault.sort (catalog.fields s read type)
      = outcome Fault.sort (catalog.fields t read type) := by
  unfold fields
  split
  · split
    · rfl
    · rename_i m _
      rcases outcome_eq_iff.mp (outcome_resolveFields wordless_sort s t read []
          (catalog.inherited m)) with ⟨es, hs, ht⟩ | ⟨f, g, hf, hg, hsort⟩
      · rw [hs, ht]
      · have hunknown : isUnknown f = isUnknown g := by
          rw [isUnknown, isUnknown, Fault.kind_of_sort hsort]
        rw [hf, hg]
        dsimp only
        rw [hunknown]
        split
        · rfl
        · exact congrArg Except.error hsort
  · rfl

/-- A model declares a path, or refuses it at one of its names, whatever the kind of a builder that
the names do not hold. -/
theorem outcome_check (h : s.Aside id) (hr : s.object? id = some r)
    (hlabel : ∀ v, EndAlike (label v) (label' v)) (seen : List Value) (type : Value)
    (hpath : ∀ name ∈ seen ++ path, id ∉ name.nodes) :
    outcome Fault.sort (catalog.check (s.recast id) read label seen type path)
      = outcome Fault.sort (catalog.check s read label' seen type path) := by
  induction path generalizing seen type with
  | nil => rfl
  | cons name rest ih =>
    have hpointer : (s.recast id).pointer (seen ++ [name]) = s.pointer (seen ++ [name]) :=
      h.pointer_recast fun other hother =>
        hpath other (by simp only [List.mem_append, List.mem_cons] at hother ⊢; tauto)
    rw [check, check, outcome_bind, outcome_bind, outcome_fields (s.recast id) s]
    refine congrArg _ (funext fun fields => ?_)
    rw [Store.unhashable?, Store.unhashable?]
    cases name.unhashable? with
    | some key => rfl
    | none =>
      dsimp only [Option.map_none]
      split
      · exact ih _ _ (by simpa using hpath)
      · rw [hpointer, outcome_bind, outcome_bind]
        refine congrArg _ (funext fun pointer => ?_)
        exact (h.valueText_alike hr name).outcome_bind fun _ _ =>
          (hlabel type).outcome_bind fun _ _ => rfl

end Catalog

namespace Builder

theorem modelLabel_alike {s : Store} {id : NodeId} {r : ObjectRule} (h : s.Aside id)
    (hr : s.object? id = some r) (v : Value) :
    EndAlike (modelLabel (s.recast id) v) (modelLabel s v) := by
  unfold modelLabel
  split
  · rename_i t
    cases t.name? with
    | some name => exact .refl _
    | none => exact h.valueText_alike hr _
  all_goals first | exact .refl _ | exact h.valueText_alike hr _

end Builder

end DraftSchema
