import DraftSchema.Proofs.Atomicity
import DraftSchema.Proofs.Listing
import DraftSchema.Proofs.Placement
import DraftSchema.Proofs.Sharing

/-!
# The history of a builder

What a builder holds on its first level is told by the calls on it that succeeded, in the order in
which they took effect: its properties have the first names of their paths, and of these the first
names of the calls with a required rule are required, each where it first occurred. Under a name
stands the rule of the last call with that name alone; whether the name is required is told by all
of them.
-/

namespace DraftSchema

/-! ## Names in the order of their arrival -/

/-- A list of names with one more at its end, unless it is there. -/
def withName (names : List Value) (name : Value) : List Value :=
  if Entries.has names name then names else names ++ [name]

/-- The names of a list, each where it first stands. -/
def firsts (names : List Value) : List Value := names.foldl withName []

theorem firsts_append (names : List Value) (name : Value) :
    firsts (names ++ [name]) = withName (firsts names) name := by
  rw [firsts, List.foldl_append]
  rfl

theorem has_withName (names : List Value) (name other : Value) :
    Entries.has (withName names name) other = (Entries.has names other || name == other) := by
  unfold withName
  split
  · rename_i h
    cases hother : name == other with
    | false => rw [Bool.or_false]
    | true =>
      -- an equal name is there
      obtain ⟨x, hx, hname⟩ := List.any_eq_true.mp h
      rw [Bool.or_true]
      exact List.any_eq_true.mpr ⟨x, hx, BEq.trans hname hother⟩
  · simp [Entries.has]

/-- The names of a list are those that it holds. -/
theorem has_firsts (names : List Value) (name : Value) :
    Entries.has (firsts names) name = Entries.has names name := by
  induction names using List.reverseRecOn with
  | nil => rfl
  | append_singleton names last ih =>
    rw [firsts_append, has_withName, ih]
    simp [Entries.has]

namespace ObjectRule

theorem keys_setProperty (r : ObjectRule) (name v : Value) :
    (r.setProperty name v).properties.keys = withName r.properties.keys name :=
  Entries.keys_set r.properties name v

theorem mark_required_eq (r : ObjectRule) (flag : Bool) (name : Value) :
    (r.mark flag name).required = if flag then withName r.required name else r.required := by
  rw [mark_required, withName, requires]
  cases flag <;> cases Entries.has r.required name <;> rfl

end ObjectRule

/-! ## The first level -/

namespace Store

variable {flag : Bool} {v name : Value} {rest : List Value} {s s' : Store} {id : NodeId}
  {r : ObjectRule}

/-- What growth along a path makes of the object that it starts from, which no path leads back to.
-/
theorem Grows.object?_level (h : Grows flag v s id (name :: rest) s') (hr : s.object? id = some r)
    (hdirect : rest = [] ∨ s.Acyclic id) :
    ∃ r', s'.object? id = some r' ∧ r'.properties.keys = withName r.properties.keys name ∧
      r'.required = (if flag then withName r.required name else r.required) ∧
      (rest = [] → r'.properties = r.properties.set name v) := by
  cases h with
  | last =>
    refine ⟨_, object?_modifyObject_of_some _ hr, ?_, ?_, fun _ => by simp⟩
    · rw [ObjectRule.mark_properties, ObjectRule.keys_setProperty]
    · rw [ObjectRule.mark_required_eq, ObjectRule.setProperty_required]
  | more _ hentered hrest hnext =>
    have ha := hdirect.resolve_left hrest
    rcases hnext.object?_of_entered hentered hr ha with ⟨hr', hchild⟩ | ⟨hr', -⟩
    · -- the name is that of a property
      have hname : Entries.has r.properties.keys name = true := by
        rw [Entries.has_keys, get?_of_child? hr hchild]
        rfl
      refine ⟨_, hr', ?_, r.mark_required_eq flag name, fun h => absurd h hrest⟩
      rw [ObjectRule.mark_properties, withName, if_pos hname]
    · refine ⟨_, hr', ?_, ?_, fun h => absurd h hrest⟩
      · rw [ObjectRule.mark_properties, ObjectRule.keys_setProperty]
      · rw [ObjectRule.mark_required_eq, ObjectRule.setProperty_required]

end Store

namespace Builder

open Build

/-- A call that succeeded: the path that it put its rule under, name by name, the rule, and whether
it was required. -/
structure Put where
  name : Value
  rest : List Value
  node : NodeId
  required : Bool

/-- A history of a builder: the calls on it that succeeded, in the order in which they took effect.
It was changed by nothing else but rules for every key. -/
inductive History (call : Caller) (id : NodeId) : List Put → Workspace → Prop
  | start {w w' : Workspace} {c : NodeClass} {args : Arguments}
      (builder : c = .schema ∨ c = .dictionary)
      (made : Construction.construct call c args w = .ok id w') : History call id [] w'
  /-- Something that does not change the builder, such as most of the calls that fail. -/
  | aside {puts : List Put} {w w' : Workspace} (before : History call id puts w)
      (same : w'.store.get? id = w.store.get? id) : History call id puts w'
  /-- A rule for every key is set. -/
  | additional {puts : List Put} {w w₁ w' : Workspace} {selector value : Value} {node : NodeId}
      (resolved : resolve call selector value w = .ok ([], node) w₁)
      (before : History call id puts w₁) (succeeded : add call id selector value w = .ok () w') :
      History call id puts w'
  /-- A rule is put, under a name or below it. No path leads from a builder back to it. -/
  | put {puts : List Put} {w w₁ w' : Workspace} {selector value name : Value} {rest : List Value}
      {node : NodeId} {required : Bool}
      (resolved : resolve call selector value w = .ok (name :: rest, node) w₁)
      (before : History call id puts w₁)
      (flag : (w₁.store.requirement node).truth = .ok required)
      (direct : rest = [] ∨ w₁.store.Acyclic id)
      (succeeded : add call id selector value w = .ok () w') :
      History call id (puts ++ [⟨name, rest, node, required⟩]) w'

variable {call : Caller} {id node : NodeId} {puts : List Put} {selector value name : Value}
  {rest : List Value} {w w₁ w' : Workspace}

/-- To find out what a call without functions stands for does not change a builder. -/
theorem History.resolve (h : History call id puts w) (hs : selector.isCallable = false)
    (hv : value.isCallable = false) {path : List Value}
    (hres : Builder.resolve call selector value w = .ok (path, node) w₁) (hid : id < w.store.size) :
    History call id puts w₁ := by
  have hkeeps : (Builder.resolve call selector value).Keeps :=
    keeps_resolve (Value.harmless_of_not_callable hs) (Value.harmless_of_not_callable hv)
  have hextends := hkeeps w
  rw [after_of_ok hres] at hextends
  exact .aside h (hextends.same id hid)

/-- What a builder is when it was just made. -/
theorem builderRule_of_construct {c : NodeClass} {args : Arguments}
    (hc : c = .schema ∨ c = .dictionary) (h : Construction.construct call c args w = .ok id w') :
    ∃ kind, kind ≠ ObjectKind.plain ∧
      w'.store.object? id = some (Construction.builderRule kind args) := by
  obtain ⟨rule, w₁, hrule, halloc⟩ := bind_eq_ok.mp h
  -- both classes make a builder's rule
  obtain ⟨kind, hkind, rfl, rfl⟩ : ∃ kind, kind ≠ ObjectKind.plain ∧
      rule = .object (Construction.builderRule kind args) ∧ w₁ = w := by
    rcases hc with rfl | rfl
    · cases hrule
      exact ⟨.schema, by decide, rfl, rfl⟩
    · cases hrule
      exact ⟨.dictionary, by decide, rfl, rfl⟩
  cases halloc
  exact ⟨kind, hkind, (Store.object?_alloc w₁.store _ _ _).trans (if_pos rfl)⟩

/-- A builder that was just made has no properties and requires nothing. -/
theorem object?_of_construct {c : NodeClass} {args : Arguments}
    (hc : c = .schema ∨ c = .dictionary) (h : Construction.construct call c args w = .ok id w') :
    ∃ r, w'.store.object? id = some r ∧ r.kind ≠ .plain ∧ r.properties = [] ∧ r.required = [] := by
  obtain ⟨kind, hkind, hr⟩ := builderRule_of_construct hc h
  exact ⟨_, hr, hkind, rfl, rfl⟩

/-- What a call that succeeds makes of a rule for every key. -/
theorem object?_of_add_nil {r : ObjectRule}
    (hres : resolve call selector value w = .ok ([], node) w₁)
    (hr : w₁.store.object? id = some r) (hadd : add call id selector value w = .ok () w') :
    w'.store.object? id = some { r with additional := some (.node node) } := by
  have hsettled : Settled call id [] node w₁ (add call id selector value w) := add_settled hres
  rw [hadd] at hsettled
  cases hsettled with
  | additional => exact Store.object?_modifyObject_of_some _ hr
  | put hne => exact absurd rfl hne

/-- What a call that succeeds makes of the first level of a builder. -/
theorem object?_of_add {r : ObjectRule} {required : Bool}
    (hres : resolve call selector value w = .ok (name :: rest, node) w₁)
    (hr : w₁.store.object? id = some r) (hbuilder : r.kind ≠ .plain)
    (hflag : (w₁.store.requirement node).truth = .ok required)
    (hdirect : rest = [] ∨ w₁.store.Acyclic id) (hadd : add call id selector value w = .ok () w') :
    ∃ r', w'.store.object? id = some r' ∧ r'.kind = r.kind ∧
      r'.properties.keys = withName r.properties.keys name ∧
      r'.required = (if required then withName r.required name else r.required) ∧
      (rest = [] → r'.properties = r.properties.set name (.node node)) := by
  have his : isBuilder w₁.store id = true := by simp [isBuilder, hr, hbuilder]
  obtain ⟨b, hb, hgrows⟩ := grows_of_add (by simp) hres his hadd
  cases Except.ok.inj (hb.symm.trans hflag)
  obtain ⟨r', hr', hkeys, hrequired, hlast⟩ := hgrows.object?_level hr hdirect
  obtain ⟨r'', hr'', hframe⟩ := hgrows.object? hr
  cases hr'.symm.trans hr''
  exact ⟨r', hr', hframe.kind, hkeys, hrequired, hlast⟩

/-- A builder has the names of its history as properties, and requires those of required rules. -/
theorem History.names (h : History call id puts w) :
    ∃ r, w.store.object? id = some r ∧ r.kind ≠ .plain ∧
      r.properties.keys = firsts (puts.map Put.name) ∧
      r.required = firsts ((puts.filter Put.required).map Put.name) := by
  induction h with
  | start hc made =>
    obtain ⟨r, hr, hkind, hproperties, hrequired⟩ := object?_of_construct hc made
    exact ⟨r, hr, hkind, by rw [hproperties]; rfl, hrequired⟩
  | aside _ same ih =>
    obtain ⟨r, hr, h⟩ := ih
    exact ⟨r, by rw [Store.object?, same, ← Store.object?, hr], h⟩
  | additional resolved _ succeeded ih =>
    obtain ⟨r, hr, h⟩ := ih
    exact ⟨_, object?_of_add_nil resolved hr succeeded, h⟩
  | @put puts _ _ _ _ _ name rest node required resolved _ flag direct succeeded ih =>
    obtain ⟨r, hr, hkind, hkeys, hrequired⟩ := ih
    obtain ⟨r', hr', hkind', hkeys', hrequired', -⟩ :=
      object?_of_add resolved hr hkind flag direct succeeded
    refine ⟨r', hr', hkind' ▸ hkind, ?_, ?_⟩
    · rw [hkeys', hkeys, List.map_append]
      exact (firsts_append _ name).symm
    · rw [hrequired', hrequired]
      cases required
      · simp
      · simp [firsts_append]

/-- The last call of a history with a name. -/
def latest? (puts : List Put) (name : Value) : Option Put :=
  puts.reverse.find? fun p => p.name == name

/-- Under a name stands the rule of the last call with it, if every path has one name. -/
theorem History.get? (h : History call id puts w) (hshort : ∀ p ∈ puts, p.rest = []) :
    ∃ r, w.store.object? id = some r ∧
      ∀ name, r.properties.get? name = (latest? puts name).map fun p => .node p.node := by
  induction h with
  | start hc made =>
    obtain ⟨r, hr, -, hproperties, -⟩ := object?_of_construct hc made
    exact ⟨r, hr, fun name => by rw [hproperties]; rfl⟩
  | aside _ same ih =>
    obtain ⟨r, hr, h⟩ := ih hshort
    exact ⟨r, by rw [Store.object?, same, ← Store.object?, hr], h⟩
  | additional resolved _ succeeded ih =>
    obtain ⟨r, hr, h⟩ := ih hshort
    exact ⟨_, object?_of_add_nil resolved hr succeeded, h⟩
  | @put puts _ w₁ _ _ _ name rest node required resolved before flag direct succeeded ih =>
    obtain ⟨r, hr, h⟩ := ih fun p hp => hshort p (List.mem_append_left _ hp)
    obtain ⟨found, hfound, hkind, -, -⟩ := before.names
    cases hfound.symm.trans hr
    obtain ⟨r', hr', -, -, -, hset⟩ := object?_of_add resolved hr hkind flag direct succeeded
    refine ⟨r', hr', fun other => ?_⟩
    rw [hset (hshort _ (List.mem_append_right _ (List.mem_singleton.mpr rfl))), latest?,
      List.reverse_append, List.reverse_singleton, List.singleton_append, List.find?_cons]
    cases hother : name == other with
    | true => rw [Entries.get?_congr (BEq.symm hother), Entries.get?_set_self]; rfl
    | false => rw [Entries.get?_set_ne _ _ hother]; exact h other

/-- A builder without rules has come about by being made. -/
theorem course_alone : Course Build.call [] alone :=
  have made : Construction.construct Build.call .schema [] {} = .ok 0 { alone with vars := [] } :=
    rfl
  .aside (.construct (w := {}) (c := .schema) rfl (.start rfl) made) rfl

theorem history_alone : History Build.call 0 [] alone :=
  have made : Construction.construct Build.call .schema [] {} = .ok 0 { alone with vars := [] } :=
    rfl
  .aside (.start (.inl rfl) made) rfl

/-- In the course of a session the required names of every object rule are distinct, and those of
every builder and of every object that a call has made are among its properties. A builder that is
changed by its own calls alone has the first names of their paths as properties, in the order in
which they first occurred, and requires those of the calls with a required rule, in that order. -/
theorem required_names {made : List NodeId} (h : Course call made w) :
    (∀ x r, w.store.object? x = some r → Distinct r.required ∧
      (r.kind ≠ .plain ∨ x ∈ made →
        ∀ name ∈ r.required, Entries.has r.properties.keys name = true)) ∧
    (∀ id puts, History call id puts w → ∃ r, w.store.object? id = some r ∧
      r.properties.keys = firsts (puts.map Put.name) ∧
      r.required = firsts ((puts.filter Put.required).map Put.name)) := by
  have hlisted := h.listed
  refine ⟨fun x r hr => ⟨hlisted.distinct x r hr, hlisted.covered x r hr⟩, fun id puts hputs => ?_⟩
  obtain ⟨r, hr, -, hkeys, hrequired⟩ := hputs.names
  exact ⟨r, hr, hkeys, hrequired⟩

/-- A first call with a path of two names. The object that it makes on the way is the third rule. -/
theorem required_names_nested :
    ∃ w r r', add Build.call 0 (.list 0 [.text "a", .text "b"]) (.int 1) alone = .ok () w ∧
      w.store.object? 2 = some r ∧ Distinct r.required ∧
      (∀ name ∈ r.required, Entries.has r.properties.keys name = true) ∧
      w.store.object? 0 = some r' ∧ r'.properties.keys = firsts [.text "a"] ∧
      r'.required = firsts [.text "a"] := by
  obtain ⟨w, r, hadd, hsize, hr⟩ : ∃ w r,
      add Build.call 0 (.list 0 [.text "a", .text "b"]) (.int 1) alone = .ok () w ∧
        w.store.size = 3 ∧ w.store.object? 2 = some r := ⟨_, _, rfl, rfl, rfl⟩
  obtain ⟨w₁, hres, hsize₁, hflag, hbuilder, hacyclic⟩ : ∃ w₁,
      resolve Build.call (.list 0 [.text "a", .text "b"]) (.int 1) alone
        = .ok ([.text "a", .text "b"], 1) w₁ ∧ w₁.store.size = 2 ∧
        (w₁.store.requirement 1).truth = .ok true ∧ isBuilder w₁.store 0 = true ∧
        w₁.store.Acyclic 0 :=
    ⟨_, rfl, rfl, rfl, rfl, Store.acyclic_of_rank (fun _ => 0) (by decide) 0⟩
  have hcourse := Course.add hres (course_alone.resolve rfl rfl hres) hbuilder
  rw [after_of_ok hadd] at hcourse
  have hhistory := History.put hres (history_alone.resolve rfl rfl hres (by decide)) hflag
    (.inr hacyclic) hadd
  obtain ⟨hrules, hbuilders⟩ := required_names hcourse
  obtain ⟨r', hr', hkeys, hrequired⟩ := hbuilders 0 _ hhistory
  obtain ⟨hdistinct, hcovered⟩ := hrules 2 r hr
  refine ⟨w, r, r', hadd, hr, hdistinct, hcovered (.inr ?_), hr', hkeys, hrequired⟩
  rw [Store.added, hsize, hsize₁]
  decide

/-- A selector may itself list a name as required that no property has. A rule whose text is too
long for the log is put by a call that fails. A builder that is put below itself is changed on its
first level by what happens further down. -/
theorem required_names_fail :
    (∃ w r, add Build.call 0
        (.function 0 (.or
          (.call (.attr (.const (.ref "b")) "add_required") [.const (.text "z")])
          (.attr .arg "x")))
        (.bool true) alone = .ok () w ∧ w.store.object? 0 = some r ∧
      r.required = [.text "z", .text "x"] ∧ r.properties.keys = [.text "x"]) ∧
    ((failed? (add Build.call 0 (.list 0 [.text "a"]) (.int (Nat.pow 10 4300))) alone).bind
      fun w => w.store.child? 0 (.text "a")).isSome = true ∧
    (∃ w w' r, add Build.call 0 (.list 0 [.text "x"]) (.node 0) alone = .ok () w ∧
      add Build.call 0 (.list 0 [.text "x", .text "y"]) (.int 1) w = .ok () w' ∧
      w'.store.object? 0 = some r ∧ r.required = [.text "x", .text "y"]) :=
  ⟨⟨_, _, rfl, rfl, rfl, rfl⟩, by decide +kernel, _, _, _, rfl, rfl, rfl, rfl⟩

/-- The last call with a name is a call with this name. -/
theorem mem_of_latest? {p : Put} (h : latest? puts name = some p) :
    p ∈ puts ∧ (p.name == name) = true :=
  ⟨List.mem_reverse.mp (List.mem_of_find?_eq_some h),
    List.find?_some (p := fun p : Put => p.name == name) h⟩

/-- A builder without rules, and a truth value that is not required. -/
def withOptional : Workspace :=
  { store := ⟨alone.store.nodes ++ [⟨.boolean none, .bool false⟩]⟩ }

theorem history_withOptional : History Build.call 0 [] withOptional := .aside history_alone rfl

end Builder

end DraftSchema
