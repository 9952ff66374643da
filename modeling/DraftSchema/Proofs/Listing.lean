import DraftSchema.Evaluation.Call
import DraftSchema.Proofs.Growth
import DraftSchema.Proofs.Resolution

/-!
# Required names

Names come to be required in two places: when an object rule is made with them, and level by level
when a rule is put under a path. Both list a name once, and the second one only where a property has
that name. `Store.Enlarged` says this of what a call does to the rules, however it ends; a whole
course of rules that are made and calls on builders then keeps the required names of every object
rule distinct, and those of builders and of the objects that calls made among their properties.
-/

namespace DraftSchema

/-- No two names in a list are equal. -/
def Distinct (names : List Value) : Prop := names.Pairwise fun a b => (a == b) = false

theorem Distinct.append {names : List Value} {name : Value} (h : Distinct names)
    (hnew : Entries.has names name = false) : Distinct (names ++ [name]) := by
  refine List.pairwise_append.mpr ⟨h, List.pairwise_singleton _ _, fun a ha b hb => ?_⟩
  obtain rfl := List.mem_singleton.mp hb
  simp only [Entries.has, List.any_eq_false, Bool.not_eq_true] at hnew
  exact hnew a ha

/-! ## Object rules that are enlarged -/

namespace ObjectRule

/-- Every required name is that of a property. -/
def Covered (r : ObjectRule) : Prop :=
  ∀ name ∈ r.required, Entries.has r.properties.keys name = true

/-- What calls make of an object rule: it keeps its kind and the names of its properties, and does
not come to have two properties of one name, to require a name twice, or one without a property. -/
structure Enlarged (r r' : ObjectRule) : Prop where
  kind : r'.kind = r.kind
  keys : ∀ name, Entries.has r.properties.keys name = true →
    Entries.has r'.properties.keys name = true
  single : Distinct r.properties.keys → Distinct r'.properties.keys
  distinct : Distinct r.required → Distinct r'.required
  covered : r.Covered → r'.Covered

theorem Enlarged.refl (r : ObjectRule) : r.Enlarged r := ⟨rfl, fun _ h => h, id, id, id⟩

theorem Enlarged.trans {r r' r'' : ObjectRule} (h : r.Enlarged r') (h' : r'.Enlarged r'') :
    r.Enlarged r'' where
  kind := h'.kind.trans h.kind
  keys name hname := h'.keys name (h.keys name hname)
  single hr := h'.single (h.single hr)
  distinct hr := h'.distinct (h.distinct hr)
  covered hr := h'.covered (h.covered hr)

theorem covered_empty : ObjectRule.empty.Covered := fun _ h => absurd h List.not_mem_nil

theorem has_keys_setProperty (r : ObjectRule) (name v other : Value) :
    Entries.has (r.setProperty name v).properties.keys other
      = (Entries.has r.properties.keys other ||
          (!Entries.has r.properties.keys name && name == other)) := by
  rw [setProperty_properties, Entries.keys_set]
  cases h : Entries.has r.properties.keys name <;> simp [Entries.has]

theorem has_keys_setProperty_self (r : ObjectRule) (name v : Value) :
    Entries.has (r.setProperty name v).properties.keys name = true := by
  rw [has_keys_setProperty]
  cases Entries.has r.properties.keys name <;> simp

theorem enlarged_setProperty (r : ObjectRule) (name v : Value) :
    r.Enlarged (r.setProperty name v) := by
  have hkeys : ∀ other, Entries.has r.properties.keys other = true →
      Entries.has (r.setProperty name v).properties.keys other = true := by
    intro other h
    rw [has_keys_setProperty, h, Bool.true_or]
  exact ⟨rfl, hkeys, fun h => Entries.pairwise_keys_set h name v, id,
    fun h other hother => hkeys other (h other hother)⟩

/-- A name that a property has can be listed. -/
theorem enlarged_addRequired {r : ObjectRule} {name : Value}
    (hname : Entries.has r.properties.keys name = true) : r.Enlarged (r.addRequired name) := by
  unfold addRequired
  split
  · exact .refl r
  · rename_i hnew
    refine ⟨rfl, fun _ h => h, id, fun h => h.append (Bool.not_eq_true _ ▸ hnew),
      fun h other hother => ?_⟩
    rcases List.mem_append.mp hother with hother | hother
    · exact h other hother
    · exact List.mem_singleton.mp hother ▸ hname

theorem enlarged_additional (r : ObjectRule) (v : Value) :
    r.Enlarged { r with additional := some v } :=
  ⟨rfl, fun _ h => h, id, id, id⟩

end ObjectRule

namespace Store

/-- What calls make of the object rules: those that are there are enlarged, and new ones are
enlarged from empty ones. -/
structure Enlarged (s s' : Store) : Prop where
  size : s.size ≤ s'.size
  kept : ∀ x r, s.object? x = some r → ∃ r', s'.object? x = some r' ∧ r.Enlarged r'
  made : ∀ x r', s.object? x = none → s'.object? x = some r' →
    s.size ≤ x ∧ ObjectRule.empty.Enlarged r'

variable {s s' s'' : Store}

theorem Enlarged.refl (s : Store) : s.Enlarged s where
  size := Nat.le_refl _
  kept x r h := ⟨r, h, .refl r⟩
  made x r h h' := by rw [h] at h'; cases h'

theorem Enlarged.trans (h : s.Enlarged s') (h' : s'.Enlarged s'') : s.Enlarged s'' where
  size := h.size.trans h'.size
  kept x r hr := by
    obtain ⟨r', hr', hrr'⟩ := h.kept x r hr
    obtain ⟨r'', hr'', hrr''⟩ := h'.kept x r' hr'
    exact ⟨r'', hr'', hrr'.trans hrr''⟩
  made x r'' hx hr'' := by
    cases hr' : s'.object? x with
    | none =>
      obtain ⟨hsize, hempty⟩ := h'.made x r'' hr' hr''
      exact ⟨h.size.trans hsize, hempty⟩
    | some r' =>
      obtain ⟨hsize, hempty⟩ := h.made x r' hx hr'
      obtain ⟨found, hfound, hrr''⟩ := h'.kept x r' hr'
      cases hfound.symm.trans hr''
      exact ⟨hsize, hempty.trans hrr''⟩

theorem enlarged_modifyObject {id : NodeId} {f : ObjectRule → ObjectRule}
    (h : ∀ r, s.object? id = some r → r.Enlarged (f r)) : s.Enlarged (s.modifyObject id f) where
  size := Nat.le_of_eq (size_modifyObject s id f).symm
  kept x r hr := by
    rw [object?_modifyObject]
    split
    · subst x
      exact ⟨f r, by rw [hr, Option.map_some], h r hr⟩
    · exact ⟨r, hr, .refl r⟩
  made x r' hx hr' := by
    rw [object?_modifyObject] at hr'
    split at hr'
    · subst x
      rw [hx] at hr'
      cases hr'
    · rw [hx] at hr'
      cases hr'

theorem enlarged_alloc_empty (s : Store) (required : Value) :
    s.Enlarged (s.alloc ⟨.object .empty, required⟩).1 where
  size := by rw [size_alloc]; exact Nat.le_succ _
  kept x r hr := by
    rw [object?_alloc, if_neg (Nat.ne_of_lt (lt_size_of_object? hr))]
    exact ⟨r, hr, .refl r⟩
  made x r' hx hr' := by
    rw [object?_alloc] at hr'
    split at hr'
    · subst x
      cases hr'
      exact ⟨Nat.le_refl _, .refl _⟩
    · rw [hx] at hr'
      cases hr'

/-! ## Putting a rule -/

theorem enlarged_enter (s : Store) (id : NodeId) (name : Value) :
    s.Enlarged (s.enter id name).1 := by
  cases hchild : s.child? id name with
  | some v =>
    rw [enter_of_child hchild]
    exact .refl s
  | none =>
    rw [enter_of_missing hchild]
    exact (s.enlarged_alloc_empty _).trans
      (enlarged_modifyObject fun r _ => r.enlarged_setProperty name _)

/-- What is entered has its name among the properties. -/
theorem keys_enter {id : NodeId} {r : ObjectRule} (name : Value) (hr : s.object? id = some r) :
    ∃ r', (s.enter id name).1.object? id = some r' ∧
      Entries.has r'.properties.keys name = true := by
  cases hchild : s.child? id name with
  | some v =>
    rw [enter_of_child hchild]
    refine ⟨r, hr, ?_⟩
    rw [child?_of_object? hr] at hchild
    obtain ⟨u, hu, -⟩ := Option.bind_eq_some_iff.mp hchild
    rw [Entries.has_keys, hu]
    rfl
  | none =>
    rw [enter_of_missing hchild]
    refine ⟨_, by rw [object?_fill name hr, if_pos rfl], r.has_keys_setProperty_self name _⟩

/-- Each level but the last is an object that has a property of the name on that level. -/
def Keyed (s : Store) : List Value → List Value → Prop
  | level :: levels, name :: rest =>
    (rest ≠ [] → ∃ id r, level = .node id ∧ s.object? id = some r ∧
      Entries.has r.properties.keys name = true) ∧ s.Keyed levels rest
  | _, _ => True

theorem Keyed.enlarged {levels path : List Value} (h : s.Keyed levels path) (hs : s.Enlarged s') :
    s'.Keyed levels path := by
  induction levels generalizing path with
  | nil => trivial
  | cons level levels ih =>
    cases path with
    | nil => trivial
    | cons name rest =>
      refine ⟨fun hrest => ?_, ih h.2⟩
      obtain ⟨id, r, hlevel, hr, hname⟩ := h.1 hrest
      obtain ⟨r', hr', hrr'⟩ := hs.kept id r hr
      exact ⟨id, r', hlevel, hr', hrr'.keys name hname⟩

/-- Looking for the levels of a path makes objects at most. -/
theorem enlarged_levels (s : Store) (v : Value) (path : List Value) :
    s.Enlarged (s.levels v path).1 := by
  induction path generalizing s v with
  | nil => exact .refl s
  | cons name rest ih =>
    by_cases hrest : rest = []
    · subst hrest
      exact .refl s
    rw [levels.eq_3 s v name rest fun h => hrest h]
    split
    · exact .refl s
    · exact .refl s
    · rename_i id _ _
      exact (s.enlarged_enter id name).trans (ih _ _)

theorem keyed_levels {v : Value} {path levels : List Value}
    (h : s.levels v path = (s', .ok levels)) : s'.Keyed levels path := by
  induction path generalizing s v levels with
  | nil =>
    cases h
    trivial
  | cons name rest ih =>
    by_cases hrest : rest = []
    · subst hrest
      cases h
      exact ⟨fun h => absurd rfl h, trivial⟩
    obtain ⟨id, r, s₁, child, tail, rfl, hr, -, henter, htail, rfl⟩ := (levels_eq_ok hrest).mp h
    refine ⟨fun _ => ?_, ih htail⟩
    obtain ⟨r₁, hr₁, hname⟩ := keys_enter name hr
    rw [henter] at hr₁
    -- what comes below keeps the names of properties
    have hbelow := s₁.enlarged_levels child rest
    rw [htail] at hbelow
    obtain ⟨r', hr', hrr'⟩ := hbelow.kept id r₁ hr₁
    exact ⟨id, r', rfl, hr', hrr'.keys name hname⟩

theorem putProperty_eq_ok {level name v : Value} (h : s.putProperty level name v = .ok s') :
    ∃ id r, level = .node id ∧ s.object? id = some r ∧
      s' = s.modifyObject id fun r => r.setProperty name v := by
  cases hheld : s.holder level "properties" with
  | error f =>
    rw [putProperty, hheld] at h
    cases h
  | ok id =>
    obtain ⟨rfl, r, hr⟩ := holder_eq_ok.mp hheld
    rw [putProperty_eq v hr (isHashable_of_putProperty h)] at h
    cases h
    exact ⟨id, r, rfl, hr, rfl⟩

theorem enlarged_listRequired {id : NodeId} {r : ObjectRule} {flag name : Value}
    (hr : s.object? id = some r) (hname : Entries.has r.properties.keys name = true)
    (h : s.listRequired flag (.node id) name = .ok s') : s.Enlarged s' := by
  obtain ⟨b, -, -, rfl⟩ := (listRequired_eq_ok hr).mp h
  refine enlarged_modifyObject fun r' hr' => ?_
  cases hr.symm.trans hr'
  cases b
  · exact .refl r
  · exact ObjectRule.enlarged_addRequired hname

/-- Placing a value enlarges object rules, even if it stops on the way. -/
theorem enlarged_place (flag v : Value) {levels path : List Value} (hkeyed : s.Keyed levels path) :
    s.Enlarged (s.place flag v levels path).1 := by
  induction levels generalizing s path with
  | nil =>
    rw [place]
    · exact .refl s
    · intro _ _ _ _ h
      cases h
  | cons level levels ih =>
    cases path with
    | nil =>
      rw [place]
      · exact .refl s
      · intro _ _ _ _ _ h
        cases h
    | cons name rest =>
      rw [place]
      split
      · exact .refl s
      rename_i s₁ hput
      -- on the last level the name has just become that of a property, on the others it was one
      obtain ⟨id, r, rfl, hr, hname, hs₁⟩ : ∃ id r, level = .node id ∧ s₁.object? id = some r ∧
          Entries.has r.properties.keys name = true ∧ s.Enlarged s₁ := by
        by_cases hrest : rest = []
        · subst hrest
          obtain ⟨id, r, rfl, hr, rfl⟩ := putProperty_eq_ok hput
          exact ⟨id, _, rfl, object?_modifyObject_of_some _ hr, r.has_keys_setProperty_self name v,
            enlarged_modifyObject fun r _ => r.enlarged_setProperty name v⟩
        · rw [if_neg (by simpa using hrest)] at hput
          cases hput
          obtain ⟨id, r, rfl, hr, hname⟩ := hkeyed.1 hrest
          exact ⟨id, r, rfl, hr, hname, .refl s⟩
      split
      · exact hs₁
      · rename_i s₂ hlist
        have hs₂ := hs₁.trans (enlarged_listRequired hr hname hlist)
        exact hs₂.trans (ih (hkeyed.2.enlarged hs₂))

/-- Putting a value under a path enlarges object rules, even if it stops on the way. -/
theorem enlarged_put (s : Store) (id : NodeId) (path : List Value) (flag v : Value) :
    s.Enlarged (s.put id path flag v).1 := by
  have hlevels := s.enlarged_levels (.node id) path
  unfold put
  split
  · rename_i s₁ f h
    rw [h] at hlevels
    exact hlevels
  · rename_i s₁ levels h
    rw [h] at hlevels
    exact hlevels.trans (enlarged_place flag v (keyed_levels h))

end Store

namespace Builder

open Build

variable {call : Caller} {id node : NodeId} {selector value : Value} {path : List Value}
  {w w₁ : Workspace}

/-- A call enlarges object rules, however it ends. -/
theorem enlarged_add (hres : resolve call selector value w = .ok (path, node) w₁) :
    w₁.store.Enlarged ((add call id selector value).after w).store := by
  have hsettled : Settled call id path node w₁ (add call id selector value w) := add_settled hres
  have hput := w₁.store.enlarged_put id path (w₁.store.requirement node) (.node node)
  unfold Build.after
  generalize add call id selector value w = result at hsettled
  cases hsettled with
  | unshown | undeclared | conflict => exact .refl _
  | additional => exact Store.enlarged_modifyObject fun r _ => r.enlarged_additional _
  | stuck _ _ _ h =>
    rw [h] at hput
    exact hput
  | unreported _ _ _ h =>
    rw [h] at hput
    exact hput
  | put _ _ _ h =>
    rw [h] at hput
    exact hput

end Builder

/-! ## Making a rule -/

namespace Construction

open Build

variable {call : Caller} {w w₁ : Workspace}

theorem among_eq_false {v : Value} {xs : List Value} (h : among v xs w = .ok false w₁) :
    Entries.has xs v = false := by
  induction xs generalizing w with
  | nil => rfl
  | cons x xs ih =>
    rw [among] at h
    rw [Entries.has_cons, Bool.or_eq_false_iff]
    split at h
    · cases h
    · rename_i hx
      obtain ⟨answer, w₂, -, hrest⟩ := bind_eq_ok.mp h
      obtain ⟨here, w₃, -, hrest⟩ := bind_eq_ok.mp hrest
      cases here with
      | true => cases hrest
      | false => exact ⟨Bool.eq_false_of_not_eq_true hx, ih hrest⟩

theorem distinct_of_distinctNames {names vs found : List Value} (hnames : Distinct names)
    (h : distinctNames names vs w = .ok found w₁) : Distinct found := by
  induction vs generalizing names w with
  | nil =>
    cases h
    exact hnames
  | cons v vs ih =>
    obtain ⟨listed, w₂, hlisted, hrest⟩ := bind_eq_ok.mp h
    cases listed with
    | true => exact ih hnames hrest
    | false => exact ih (hnames.append (among_eq_false hlisted)) hrest

theorem distinct_of_requiredNames {required : Option Value} {found : List Value}
    (h : requiredNames required w = .ok found w₁) : Distinct found := by
  obtain ⟨given, w₂, -, hrest⟩ := bind_eq_ok.mp h
  cases given with
  | none =>
    cases hrest
    exact .nil
  | some v =>
    obtain ⟨names, w₃, -, hnames⟩ := bind_eq_ok.mp hrest
    exact distinct_of_distinctNames .nil hnames

/-- An object rule is made with distinct required names, and a builder with none. -/
theorem lists_of_ruleFrom {c : NodeClass} {args : Arguments} {r : ObjectRule}
    (h : ruleFrom call c args w = .ok (.object r) w₁) :
    Distinct r.required ∧ (r.kind ≠ .plain → r.required = []) := by
  unfold ruleFrom at h
  split at h
  case h_5 =>
    obtain ⟨r', w₂, hr', hpure⟩ := bind_eq_ok.mp h
    cases hpure
    obtain ⟨properties, w₃, -, hrest⟩ := bind_eq_ok.mp hr'
    obtain ⟨required, w₄, hrequired, hmade⟩ := bind_eq_ok.mp hrest
    cases hmade
    exact ⟨distinct_of_requiredNames hrequired, fun h => absurd rfl h⟩
  case h_6 | h_7 =>
    cases h
    exact ⟨.nil, fun _ => rfl⟩
  all_goals
    obtain ⟨r', w₂, -, hpure⟩ := bind_eq_ok.mp h
    cases hpure

/-- No raw value stands for an object rule. -/
theorem ruleOf_ne_object {mode : LiteralMode} {v : Value} {r : ObjectRule} :
    ruleOf call mode v w ≠ .ok (.object r) w₁ := by
  intro h
  unfold ruleOf at h
  split at h
  case h_1 =>
    obtain ⟨source, w₂, -, hpure⟩ := bind_eq_ok.mp h
    cases hpure
  case h_2 => cases mode <;> cases h
  case h_6 =>
    split at h
    · obtain ⟨b, w₂, -, hrest⟩ := bind_eq_ok.mp h
      split at hrest
      · obtain ⟨lengths, w₃, -, hpure⟩ := bind_eq_ok.mp hrest
        cases hpure
      · cases hrest
    · obtain ⟨type, w₂, -, hrefuse⟩ := bind_eq_ok.mp h
      cases hrefuse
  all_goals cases h

end Construction

/-! ## A course of rules made and calls -/

open Build

/-- The addresses from the size of a store on up to the size of another one. -/
def Store.added (s s' : Store) : List NodeId := List.range' s.size (s'.size - s.size)

/-- A course of rules that are made and of calls on builders, from no rules on, with the addresses
of the objects that calls have made on their ways. What functions among the values do in the
meantime is part of the course; a call that fails is, too. -/
inductive Course (call : Caller) : List NodeId → Workspace → Prop
  | start {w : Workspace} (empty : w.store = {}) : Course call [] w
  /-- Something that concerns no rule. -/
  | aside {made : List NodeId} {w w' : Workspace} (before : Course call made w)
      (same : w'.store = w.store) : Course call made w'
  /-- A rule is made from arguments. -/
  | construct {made : List NodeId} {w w₁ w' : Workspace} {c : NodeClass} {args : Arguments}
      {rule : Rule} {id : NodeId} (described : Construction.ruleFrom call c args w = .ok rule w₁)
      (before : Course call made w₁) (put : alloc rule args.required w₁ = .ok id w') :
      Course call made w'
  /-- A rule is made from a raw value. -/
  | compile {made : List NodeId} {w w₁ w' : Workspace} {mode : LiteralMode} {value : Value}
      {rule : Rule} {id : NodeId} (described : Construction.ruleOf call mode value w = .ok rule w₁)
      (before : Course call made w₁) (put : alloc rule (.bool true) w₁ = .ok id w') :
      Course call made w'
  /-- A builder is called, once it is known what the call stands for. -/
  | add {made : List NodeId} {w w₁ : Workspace} {id node : NodeId} {selector value : Value}
      {path : List Value}
      (resolved : Builder.resolve call selector value w = .ok (path, node) w₁)
      (before : Course call made w₁) (builder : Builder.isBuilder w₁.store id = true) :
      Course call
        (made ++ w₁.store.added ((Builder.add call id selector value).after w).store)
        ((Builder.add call id selector value).after w)

/-- To find out what a call without functions stands for makes a rule at most. -/
theorem Course.resolve {call : Caller} {made : List NodeId} {w w₁ : Workspace}
    {selector value : Value} {path : List Value} {node : NodeId} (h : Course call made w)
    (hs : selector.isCallable = false) (hv : value.isCallable = false)
    (hres : Builder.resolve call selector value w = .ok (path, node) w₁) : Course call made w₁ := by
  rcases Builder.resolve_cases hs hv hres with rfl | ⟨rule, hrule, halloc⟩
  · exact h
  · exact .compile hrule h halloc

/-- The required names of all object rules are distinct, and those of builders and of the objects
that calls have made are among their properties. -/
structure Store.Listed (made : List NodeId) (s : Store) : Prop where
  known : ∀ x ∈ made, x < s.size
  distinct : ∀ x r, s.object? x = some r → Distinct r.required
  covered : ∀ x r, s.object? x = some r → r.kind ≠ .plain ∨ x ∈ made → r.Covered

namespace Store

variable {s s' : Store} {made : List NodeId}

theorem mem_added {x : NodeId} (h : s.size ≤ s'.size) :
    x ∈ s.added s' ↔ s.size ≤ x ∧ x < s'.size := by
  rw [added, List.mem_range'_1, Nat.add_sub_cancel' h]

theorem listed_empty : Store.Listed [] {} where
  known _ h := absurd h List.not_mem_nil
  distinct _ _ h := by cases h
  covered _ _ h := by cases h

/-- Calls keep the required names in order, also those of the objects they make. -/
theorem Listed.enlarged (h : Listed made s) (hs : s.Enlarged s') :
    Listed (made ++ s.added s') s' where
  known x hx := by
    rcases List.mem_append.mp hx with hx | hx
    · exact (h.known x hx).trans_le hs.size
    · exact ((mem_added hs.size).mp hx).2
  distinct x r' hr' := by
    cases hr : s.object? x with
    | none => exact (hs.made x r' hr hr').2.distinct .nil
    | some r =>
      obtain ⟨found, hfound, hrr'⟩ := hs.kept x r hr
      cases hfound.symm.trans hr'
      exact hrr'.distinct (h.distinct x r hr)
  covered x r' hr' hx := by
    cases hr : s.object? x with
    | none => exact (hs.made x r' hr hr').2.covered ObjectRule.covered_empty
    | some r =>
      obtain ⟨found, hfound, hrr'⟩ := hs.kept x r hr
      cases hfound.symm.trans hr'
      refine hrr'.covered (h.covered x r hr ?_)
      rw [hrr'.kind] at hx
      refine hx.imp_right fun hx => ?_
      -- what the call has made was no object before
      refine (List.mem_append.mp hx).resolve_right fun hx => ?_
      exact Nat.not_lt.mpr ((mem_added hs.size).mp hx).1 (lt_size_of_object? hr)

/-- An object after a rule is made is that rule or was there. -/
theorem object?_of_alloc {rule : Rule} {required : Value} {x : NodeId} {r : ObjectRule}
    (h : (s.alloc ⟨rule, required⟩).1.object? x = some r) :
    x = s.size ∧ rule = .object r ∨ s.object? x = some r := by
  obtain ⟨flag, hget⟩ := object?_eq_some.mp h
  rw [get?_alloc] at hget
  split at hget
  · cases hget
    exact .inl ⟨‹_›, rfl⟩
  · exact .inr (object?_eq_some.mpr ⟨flag, hget⟩)

/-- A rule that is made keeps the required names in order if its own are. -/
theorem Listed.alloc {rule : Rule} {required : Value} (h : Listed made s)
    (hrule : ∀ r, rule = .object r → Distinct r.required ∧ (r.kind ≠ .plain → r.required = [])) :
    Listed made (s.alloc ⟨rule, required⟩).1 := by
  refine ⟨fun x hx => ?_, fun x r hr => ?_, fun x r hr hx => ?_⟩
  · rw [size_alloc]
    exact Nat.lt_succ_of_lt (h.known x hx)
  · rcases object?_of_alloc hr with ⟨-, hobject⟩ | hr
    · exact (hrule r hobject).1
    · exact h.distinct x r hr
  · rcases object?_of_alloc hr with ⟨rfl, hobject⟩ | hr
    · intro name hname
      have hkind := hx.resolve_right fun hx => Nat.lt_irrefl _ (h.known _ hx)
      rw [(hrule r hobject).2 hkind] at hname
      exact absurd hname List.not_mem_nil
    · exact h.covered x r hr hx

end Store

/-- A course keeps the required names in order. -/
theorem Course.listed {call : Caller} {made : List NodeId} {w : Workspace}
    (h : Course call made w) : w.store.Listed made := by
  induction h with
  | start empty =>
    rw [empty]
    exact Store.listed_empty
  | aside _ same ih =>
    rw [same]
    exact ih
  | construct described _ put ih =>
    cases put
    refine ih.alloc fun r hr => ?_
    subst hr
    exact Construction.lists_of_ruleFrom described
  | compile described _ put ih =>
    cases put
    refine ih.alloc fun r hr => ?_
    subst hr
    exact absurd described Construction.ruleOf_ne_object
  | add resolved _ _ ih => exact ih.enlarged (Builder.enlarged_add resolved)

end DraftSchema
