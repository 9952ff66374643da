import DraftSchema.Proofs.Change

/-!
# How a store grows along a path

`Store.put` goes along a path twice: it first finds what holds each name, making the empty objects
that are missing, and then puts the value and lists the names. `Store.grow` does all of it on one
way down. `put_eq_ok_iff` says when the two passes succeed and that they come to the same store.
-/

namespace DraftSchema.Store

/-! ## The two passes -/

theorem unhashable?_eq_none {s : Store} {name : Value} :
    s.unhashable? name = none ↔ name.isHashable = true := by
  simp [unhashable?, Value.isHashable]

theorem holder_eq_ok {s : Store} {v : Value} {part : String} {id : NodeId} :
    s.holder v part = .ok id ↔ v = .node id ∧ ∃ r, s.object? id = some r := by
  unfold holder
  split
  · rename_i x
    cases h : s.object? x with
    | none =>
      simp only [Option.isSome_none, Bool.false_eq_true, if_false, reduceCtorEq, false_iff]
      rintro ⟨hx, r, hr⟩
      cases hx
      rw [h] at hr
      cases hr
    | some r =>
      simp only [Option.isSome_some, if_true, Except.ok.injEq, Value.node.injEq]
      exact ⟨fun hx => ⟨hx, r, hx ▸ h⟩, fun hx => hx.1⟩
  · rename_i hv
    simp only [reduceCtorEq, false_iff, not_and]
    exact fun h => absurd h (hv id)

/-- What holds the names of a path is found level by level. -/
theorem levels_eq_ok {s s' : Store} {v name : Value} {rest vs : List Value} (hrest : rest ≠ []) :
    s.levels v (name :: rest) = (s', .ok vs) ↔
      ∃ id r s₁ child tail, v = .node id ∧ s.object? id = some r ∧ name.isHashable = true ∧
        s.enter id name = (s₁, child) ∧ s₁.levels child rest = (s', .ok tail) ∧ vs = v :: tail := by
  rw [levels.eq_3 s v name rest (fun h => hrest h)]
  constructor
  · intro h
    split at h
    · cases h
    · cases h
    · rename_i id hid hname
      obtain ⟨rfl, r, hr⟩ := holder_eq_ok.mp hid
      dsimp only at h
      cases htail : (s.enter id name).1.levels (s.enter id name).2 rest with
      | mk s₂ tail =>
        rw [htail] at h
        cases tail with
        | error => cases h
        | ok tail =>
          cases h
          exact ⟨id, r, _, _, tail, rfl, hr, unhashable?_eq_none.mp hname, rfl, htail, rfl⟩
  · rintro ⟨id, r, s₁, child, tail, rfl, hr, hname, henter, htail, rfl⟩
    rw [holder_eq_ok.mpr ⟨rfl, r, hr⟩, unhashable?_eq_none.mpr hname]
    simp only [henter, htail]
    rfl

theorem enter_mark {s s₁ : Store} {x : NodeId} {other child : Value} (flag : Bool) {id : NodeId}
    (name : Value) (hid : id < s.size) (h : s.enter x other = (s₁, child)) :
    (s.mark flag id name).enter x other = (s₁.mark flag id name, child) := by
  cases hchild : s.child? x other with
  | some v =>
    rw [enter_of_child hchild] at h
    cases h
    exact enter_of_child (by rw [child?_mark, hchild])
  | none =>
    rw [enter_of_missing hchild] at h
    cases h
    rw [enter_of_missing (by rw [child?_mark, hchild]), size_mark]
    refine Prod.ext ?_ rfl
    show Store.modifyObject _ x _ = _
    rw [size_mark, mark, alloc_modifyObject s _ _ hid]
    exact modifyObject_comm _ id x fun r => r.mark_setProperty flag name other _

theorem size_enter_le {s s₁ : Store} {id : NodeId} {name child : Value}
    (h : s.enter id name = (s₁, child)) : s.size ≤ s₁.size := by
  cases hchild : s.child? id name with
  | some v =>
    rw [enter_of_child hchild] at h
    cases h
    exact Nat.le_refl _
  | none =>
    rw [enter_of_missing hchild] at h
    cases h
    rw [size_fill]
    exact Nat.le_succ _

/-- Looking for what holds the names of a path does not see which names are listed. -/
theorem levels_mark {s s' : Store} (flag : Bool) {id : NodeId} (name : Value) {v : Value}
    {path vs : List Value} (hid : id < s.size) (h : s.levels v path = (s', .ok vs)) :
    (s.mark flag id name).levels v path = (s'.mark flag id name, .ok vs) := by
  induction path generalizing s v vs with
  | nil =>
    cases h
    rfl
  | cons other rest ih =>
    by_cases hrest : rest = []
    · subst hrest
      cases h
      rfl
    obtain ⟨x, r, s₁, child, tail, rfl, hr, hother, henter, htail, rfl⟩ :=
      (levels_eq_ok hrest).mp h
    -- what is gone through is still an object once the name is listed on it
    have hr' : ∃ r', (s.mark flag id name).object? x = some r' := by
      rw [object?_mark]
      split
      · subst x
        exact ⟨_, by rw [hr]; rfl⟩
      · exact ⟨r, hr⟩
    obtain ⟨r', hr'⟩ := hr'
    exact (levels_eq_ok hrest).mpr ⟨x, r', _, child, tail, rfl, hr', hother,
      enter_mark flag name hid henter, ih (hid.trans_le (size_enter_le henter)) htail, rfl⟩

/-- No operand keeps the names of a path from being looked for among the required ones. -/
def listable (s : Store) (id : NodeId) : List Value → Bool
  | [] => true
  | [name] => (s.object? id).all (·.searchable name)
  | name :: rest =>
    (s.object? id).all (·.searchable name) &&
      match s.child? id name with
      | some (.node c) => s.listable c rest
      | _ => true

/-- A path can be gone along: where it leads on, it leads through objects or to nothing. -/
inductive Passes (s : Store) : NodeId → List Value → Prop
  | last (id : NodeId) (name : Value) : Passes s id [name]
  | missing {id : NodeId} {name : Value} {rest : List Value} (more : rest ≠ [])
      (hashable : name.isHashable = true) (child : s.child? id name = none) :
      Passes s id (name :: rest)
  | through {id c : NodeId} {r : ObjectRule} {name : Value} {rest : List Value} (more : rest ≠ [])
      (hashable : name.isHashable = true) (child : s.child? id name = some (.node c))
      (object : s.object? c = some r) (accepts : r.kind.acceptsProperties = true)
      (next : Passes s c rest) : Passes s id (name :: rest)

theorem passable?_eq_some {s : Store} {v : Value} {c : NodeId} :
    s.passable? v = some c ↔
      v = .node c ∧ ∃ r, s.object? c = some r ∧ r.kind.acceptsProperties = true := by
  unfold passable?
  constructor
  · intro h
    split at h
    · split at h
      · rename_i r hr
        split at h
        · rename_i hacc
          cases h
          exact ⟨rfl, r, hr, hacc⟩
        · cases h
      · cases h
    · cases h
  · rintro ⟨rfl, r, hr, hacc⟩
    simp [hr, hacc]

/-- A path is in no conflict exactly when it can be gone along. -/
theorem conflict?_eq_none_iff {s : Store} {id : NodeId} {seen path : List Value} (hp : path ≠ []) :
    s.conflict? id seen path = none ↔ s.Passes id path := by
  induction path generalizing id seen with
  | nil => exact absurd rfl hp
  | cons name rest ih =>
    by_cases hrest : rest = []
    · subst hrest
      exact ⟨fun _ => .last id name, fun _ => rfl⟩
    rw [conflict?.eq_3 s id seen name rest (fun h => hrest h)]
    -- the name cannot be a key, nothing is there, an object is there, or something else is
    constructor
    · intro h
      split at h
      · cases h
      · rename_i hname
        have hname := unhashable?_eq_none.mp hname
        split at h
        · exact .missing hrest hname ‹_›
        · rename_i v hv
          split at h
          · rename_i c hc
            obtain ⟨rfl, r, hr, hacc⟩ := passable?_eq_some.mp hc
            exact .through hrest hname hv hr hacc ((ih hrest).mp h)
          · cases h
    · intro h
      cases h with
      | last => exact absurd rfl hrest
      | missing _ hname hchild => rw [unhashable?_eq_none.mpr hname, hchild]
      | through _ hname hchild hr hacc hnext =>
        rw [unhashable?_eq_none.mpr hname, hchild]
        simp only [passable?_eq_some.mpr ⟨rfl, _, hr, hacc⟩]
        exact (ih hrest).mpr hnext

/-! ## The way down -/

/-- Puts a value under a path on one way down: on every level the next object is entered, and its
name is listed as required if the flag says so. -/
def grow (s : Store) (flag : Bool) (v : Value) (id : NodeId) : List Value → Store
  | [] => s
  | [name] => s.modifyObject id fun r => (r.setProperty name v).mark flag name
  | name :: rest =>
    match s.enter id name with
    | (s, .node c) => (s.mark flag id name).grow flag v c rest
    | (s, _) => s

theorem grow_of_enter {s s₁ : Store} {id c : NodeId} {name : Value} {rest : List Value}
    (flag : Bool) (v : Value) (hrest : rest ≠ []) (h : s.enter id name = (s₁, .node c)) :
    s.grow flag v id (name :: rest) = (s₁.mark flag id name).grow flag v c rest := by
  rw [grow.eq_3 s flag v id name rest (fun hr => hrest hr), h]

theorem Passes.mark {s : Store} {id : NodeId} {path : List Value} (h : s.Passes id path)
    (flag : Bool) (x : NodeId) (name : Value) : (s.mark flag x name).Passes id path := by
  induction h with
  | last id other => exact .last id other
  | missing hmore hname hchild => exact .missing hmore hname (by rw [child?_mark, hchild])
  | through hmore hname hchild hobj hacc _ ih =>
    refine .through hmore hname (by rw [child?_mark, hchild])
      (object?_mark_of_some flag x name hobj) ?_ ih
    split
    · rw [ObjectRule.mark_kind, hacc]
    · exact hacc

/-- Nothing is in the way below an empty object. -/
theorem passes_empty {s : Store} {id : NodeId} {path : List Value} (h : s.object? id = some .empty)
    (hp : path ≠ []) (hn : ∀ name ∈ path, name.isHashable = true) : s.Passes id path := by
  obtain ⟨name, rest, rfl⟩ := List.exists_cons_of_ne_nil hp
  by_cases hrest : rest = []
  · subst hrest
    exact .last id name
  · exact .missing hrest (hn name (by simp)) (child?_empty h name)

/-- What a path enters on one level, and what has become of the store. -/
inductive Entered (s : Store) (id : NodeId) (name : Value) : Store → NodeId → Prop
  /-- The object that is there already. -/
  | there {c : NodeId} {r : ObjectRule} (child : s.child? id name = some (.node c))
      (object : s.object? c = some r) (accepts : r.kind.acceptsProperties = true) :
      Entered s id name s c
  /-- An empty object that is put there. -/
  | made (child : s.child? id name = none) : Entered s id name (s.fill id name) s.size

theorem Entered.enter {s s₁ : Store} {id c : NodeId} {name : Value} (h : s.Entered id name s₁ c) :
    s.enter id name = (s₁, .node c) := by
  cases h with
  | there child => exact enter_of_child child
  | made child => exact enter_of_missing child

/-- A path that can be gone along enters an object, from which it can be gone along. -/
theorem Passes.entered {s : Store} {id : NodeId} {r : ObjectRule} {name : Value}
    {rest : List Value} (h : s.Passes id (name :: rest)) (hrest : rest ≠ [])
    (hn : ∀ n ∈ rest, n.isHashable = true) (hr : s.object? id = some r) :
    ∃ s₁ c r', s.Entered id name s₁ c ∧ s₁.object? c = some r' ∧ s₁.Passes c rest := by
  cases h with
  | last => exact absurd rfl hrest
  | missing _ _ hchild =>
    have hnew := object?_fill_new name hr
    exact ⟨_, _, _, .made hchild, hnew, passes_empty hnew hrest hn⟩
  | through _ _ hchild hobj hacc hnext => exact ⟨_, _, _, .there hchild hobj hacc, hobj, hnext⟩

/-! ## The two passes and the way down -/

theorem isOperand_of_isHashable {v : Value} (h : v.isHashable = true) : v.isOperand = false := by
  cases v <;> first | rfl | simp [Value.isHashable, Value.unhashable?] at h

/-- A listed name is in nobody's way. -/
theorem searchable_mark (r : ObjectRule) (flag : Bool) {name : Value} (other : Value)
    (h : name.isOperand = false) : (r.mark flag name).searchable other = r.searchable other := by
  simp only [ObjectRule.searchable, ObjectRule.mark_required]
  split
  · congr 1
    generalize r.required = names
    induction names with
    | nil => cases hb : name == other <;> simp [hb, h]
    | cons x xs ih => cases hb : x == other <;> simp_all
  · rfl

theorem listable_mark (s : Store) (flag : Bool) (x : NodeId) {name : Value} (id : NodeId)
    (path : List Value) (h : name.isOperand = false) :
    (s.mark flag x name).listable id path = s.listable id path := by
  have here : ∀ id (other : Value), ((s.mark flag x name).object? id).all (·.searchable other)
      = (s.object? id).all (·.searchable other) := by
    intro id other
    rw [object?_mark]
    by_cases hx : id = x
    · subst hx
      cases s.object? id <;> simp [searchable_mark _ _ _ h]
    · rw [if_neg hx]
  induction path generalizing id with
  | nil => rfl
  | cons other rest ih =>
    by_cases hrest : rest = []
    · subst hrest
      exact here id other
    · rw [listable.eq_3 _ id other rest (fun hr => hrest hr),
        listable.eq_3 _ id other rest (fun hr => hrest hr), here, child?_mark]
      simp only [ih]

theorem listable_empty {s : Store} {id : NodeId} (h : s.object? id = some .empty)
    (path : List Value) : s.listable id path = true := by
  cases path with
  | nil => rfl
  | cons name rest => cases rest <;> simp [listable, h, child?_empty h, ObjectRule.searchable,
      ObjectRule.empty]

/-- Along a path names can be listed if they can on this level and below the object entered. -/
theorem listable_entered {s s₁ : Store} {id c : NodeId} {r : ObjectRule} {name : Value}
    {rest : List Value} (h : s.Entered id name s₁ c) (hrest : rest ≠ []) (hr : s.object? id = some r) :
    s.listable id (name :: rest) = (r.searchable name && s₁.listable c rest) := by
  rw [listable.eq_3 s id name rest (fun h => hrest h), hr]
  cases h with
  | there hchild => rw [hchild]; rfl
  | made hchild =>
    have hnew := object?_fill_new name hr
    rw [hchild, listable_empty hnew]
    rfl

theorem listRequired_eq_ok {s s' : Store} {id : NodeId} {r : ObjectRule} {flag name : Value}
    (hr : s.object? id = some r) : s.listRequired flag (.node id) name = .ok s' ↔
      ∃ b, flag.truth = .ok b ∧ (b = true → r.searchable name = true) ∧ s' = s.mark b id name := by
  unfold listRequired
  cases hflag : flag.truth with
  | error => simp
  | ok b =>
    cases b with
    | false =>
      constructor
      · intro h
        exact ⟨false, rfl, nofun, by rw [mark_false, Except.ok.inj h]⟩
      · rintro ⟨b, hb, -, rfl⟩
        cases hb
        rw [mark_false]
    | true =>
      have hheld : s.holder (.node id) "add_required" = .ok id := holder_eq_ok.mpr ⟨rfl, r, hr⟩
      simp only [hheld, bind, Except.bind, hr, Option.all_some]
      cases hsearch : r.searchable name with
      | false => simp [throw, throwThe, MonadExceptOf.throw]
      | true => simp [pure, Except.pure, mark, ObjectRule.mark, eq_comm]

theorem putProperty_eq {s : Store} {id : NodeId} {r : ObjectRule} {name : Value} (v : Value)
    (hr : s.object? id = some r) (hname : name.isHashable = true) :
    s.putProperty (.node id) name v = .ok (s.modifyObject id fun r => r.setProperty name v) := by
  have hheld : s.holder (.node id) "properties" = .ok id := holder_eq_ok.mpr ⟨rfl, r, hr⟩
  simp only [putProperty, hheld, unhashable?_eq_none.mpr hname]
  rfl

/-- Looking for what holds the names of a path lists none of them. -/
theorem object?_levels {s s' : Store} {v : Value} {path vs : List Value} {x : NodeId}
    {r : ObjectRule} (h : s.levels v path = (s', .ok vs)) (hr : s.object? x = some r) :
    ∃ r', s'.object? x = some r' ∧ r'.required = r.required := by
  induction path generalizing s v vs r with
  | nil =>
    cases h
    exact ⟨r, hr, rfl⟩
  | cons name rest ih =>
    by_cases hrest : rest = []
    · subst hrest
      cases h
      exact ⟨r, hr, rfl⟩
    obtain ⟨id, _, s₁, child, tail, -, hid, -, henter, htail, -⟩ := (levels_eq_ok hrest).mp h
    -- making an object changes the properties of the one it is made in, but no required names
    have hentered : ∃ r', s₁.object? x = some r' ∧ r'.required = r.required := by
      cases hchild : s.child? id name with
      | some v =>
        rw [enter_of_child hchild] at henter
        cases henter
        exact ⟨r, hr, rfl⟩
      | none =>
        rw [enter_of_missing hchild] at henter
        cases henter
        rw [object?_fill name hid]
        by_cases hx : x = id
        · subst hx
          rw [hr] at hid
          cases hid
          exact ⟨_, if_pos rfl, rfl⟩
        · rw [if_neg hx, if_neg (Nat.ne_of_lt (lt_size_of_object? hr)), hr]
          exact ⟨r, rfl, rfl⟩
    obtain ⟨r₁, hr₁, hreq⟩ := hentered
    obtain ⟨r', hr', hreq'⟩ := ih htail hr₁
    exact ⟨r', hr', hreq'.trans hreq⟩

/-- What holds the names of a path is found if the path can be gone along. -/
theorem levels_of_passes {s : Store} {id : NodeId} {r : ObjectRule} {path : List Value}
    (h : s.Passes id path) (hn : ∀ name ∈ path, name.isHashable = true)
    (hr : s.object? id = some r) :
    ∃ s' tail, s.levels (.node id) path = (s', .ok (.node id :: tail)) := by
  induction path generalizing s id r with
  | nil => cases h
  | cons name rest ih =>
    by_cases hrest : rest = []
    · subst hrest
      exact ⟨s, [], rfl⟩
    have hrn : ∀ n ∈ rest, n.isHashable = true := fun n hm => hn n (by simp [hm])
    obtain ⟨s₁, c, r', hentered, hc, hnext⟩ := h.entered hrest hrn hr
    obtain ⟨s', tail, htail⟩ := ih hnext hrn hc
    exact ⟨s', _, (levels_eq_ok hrest).mpr ⟨id, r, s₁, _, _, rfl, hr, hn name (by simp),
      hentered.enter, htail, rfl⟩⟩

theorem put_of_levels {s s' : Store} {id : NodeId} {path : List Value} {vs : List Value}
    (flag v : Value) (h : s.levels (.node id) path = (s', .ok vs)) :
    s.put id path flag v = s'.place flag v vs path := by
  rw [put, h]

/-- Placing goes on below once the first name of a path is listed. -/
theorem place_cons_eq_ok {s s' : Store} {id : NodeId} {r : ObjectRule} {flag v name : Value}
    {rest tail : List Value} (hrest : rest ≠ []) (hr : s.object? id = some r) :
    s.place flag v (.node id :: tail) (name :: rest) = (s', .ok ()) ↔
      ∃ b, flag.truth = .ok b ∧ (b = true → r.searchable name = true) ∧
        (s.mark b id name).place flag v tail rest = (s', .ok ()) := by
  have hempty : ¬ rest.isEmpty = true := by simpa using hrest
  rw [place, if_neg hempty]
  dsimp only
  constructor
  · intro h
    split at h
    · cases h
    · rename_i s₁ hlist
      obtain ⟨b, hb, hsearch, rfl⟩ := (listRequired_eq_ok hr).mp hlist
      exact ⟨b, hb, hsearch, h⟩
  · rintro ⟨b, hb, hsearch, h⟩
    rw [(listRequired_eq_ok hr).mpr ⟨b, hb, hsearch, rfl⟩]
    exact h

/-- On the last level the value is put and its name listed. -/
theorem put_last_eq_ok {s s' : Store} {id : NodeId} {r : ObjectRule} {flag v name : Value}
    (hname : name.isHashable = true) (hr : s.object? id = some r) :
    s.put id [name] flag v = (s', .ok ()) ↔
      ∃ b, flag.truth = .ok b ∧ (b = true → r.searchable name = true) ∧
        s' = s.grow b v id [name] := by
  have hset := object?_modifyObject_of_some (fun r => r.setProperty name v) hr
  have hlevels : s.levels (.node id) [name] = (s, .ok [.node id]) := rfl
  have hgrow : ∀ b, (s.modifyObject id fun r => r.setProperty name v).mark b id name
      = s.grow b v id [name] := fun b => modifyObject_modifyObject s id _ _
  rw [put_of_levels flag v hlevels, place, if_pos (by rfl), putProperty_eq v hr hname]
  dsimp only
  constructor
  · intro h
    split at h
    · cases h
    · rename_i s₁ hlist
      obtain ⟨b, hb, hsearch, rfl⟩ := (listRequired_eq_ok hset).mp hlist
      cases h
      exact ⟨b, hb, hsearch, hgrow b⟩
  · rintro ⟨b, hb, hsearch, rfl⟩
    rw [(listRequired_eq_ok hset).mpr ⟨b, hb, hsearch, rfl⟩, hgrow]
    rfl

/-- Putting a value under a path that can be gone along succeeds exactly when its flag can be asked
and, if it is set, the names can be listed; the store then has grown along the path. -/
theorem put_eq_ok_iff {s s' : Store} {id : NodeId} {r : ObjectRule} {path : List Value}
    {flag v : Value} (h : s.Passes id path) (hn : ∀ name ∈ path, name.isHashable = true)
    (hr : s.object? id = some r) :
    s.put id path flag v = (s', .ok ()) ↔
      ∃ b, flag.truth = .ok b ∧ (b = true → s.listable id path = true) ∧
        s' = s.grow b v id path := by
  induction path generalizing s id r with
  | nil => cases h
  | cons name rest ih =>
    have hname := hn name (by simp)
    by_cases hrest : rest = []
    · subst hrest
      rw [put_last_eq_ok hname hr]
      simp [listable, hr]
    have hrn : ∀ n ∈ rest, n.isHashable = true := fun n hm => hn n (by simp [hm])
    obtain ⟨s₁, c, r₁, hentered, hc, hnext⟩ := h.entered hrest hrn hr
    obtain ⟨s₂, tail, htail⟩ := levels_of_passes hnext hrn hc
    have hlevels : s.levels (.node id) (name :: rest) = (s₂, .ok (.node id :: .node c :: tail)) :=
      (levels_eq_ok hrest).mpr ⟨id, r, s₁, _, _, rfl, hr, hname, hentered.enter, htail, rfl⟩
    have hid₁ : id < s₁.size := (lt_size_of_object? hr).trans_le (size_enter_le hentered.enter)
    obtain ⟨r₂, hr₂, hreq⟩ := object?_levels hlevels hr
    have hsearch : r₂.searchable name = r.searchable name := by
      rw [ObjectRule.searchable, hreq, ObjectRule.searchable]
    -- listing the name first and then going down is the same as listing it afterwards
    have hbelow : ∀ b, (s₂.mark b id name).place flag v (.node c :: tail) rest
        = (s₁.mark b id name).put c rest flag v := fun b =>
      (put_of_levels flag v (levels_mark b name hid₁ htail)).symm
    have hput : ∀ b, (s₁.mark b id name).put c rest flag v = (s', .ok ()) ↔
        ∃ b', flag.truth = .ok b' ∧ (b' = true → s₁.listable c rest = true) ∧
          s' = (s₁.mark b id name).grow b' v c rest := fun b => by
      rw [ih (hnext.mark b id name) hrn (object?_mark_of_some b id name hc),
        listable_mark s₁ b id c rest (isOperand_of_isHashable hname)]
    rw [put_of_levels flag v hlevels, place_cons_eq_ok hrest hr₂, hsearch]
    constructor
    · rintro ⟨b, hb, hfirst, hplace⟩
      rw [hbelow] at hplace
      obtain ⟨b', hb', hnames, rfl⟩ := (hput b).mp hplace
      cases Except.ok.inj (hb.symm.trans hb')
      refine ⟨b, hb, fun hbt => ?_, (grow_of_enter b v hrest hentered.enter).symm⟩
      rw [listable_entered hentered hrest hr, hfirst hbt, hnames hbt, Bool.true_and]
    · rintro ⟨b, hb, hlist, rfl⟩
      have hboth : b = true → r.searchable name = true ∧ s₁.listable c rest = true := fun hbt => by
        simpa [listable_entered hentered hrest hr] using hlist hbt
      refine ⟨b, hb, fun hbt => (hboth hbt).1, ?_⟩
      rw [hbelow]
      exact (hput b).mpr ⟨b, hb, fun hbt => (hboth hbt).2, grow_of_enter b v hrest hentered.enter⟩

/-! ## Growth step by step -/

/-- A store grows into another one along a path: on the last level the value is put, on the others an
object is entered, and on each the name is listed if the flag says so. -/
inductive Grows (flag : Bool) (v : Value) : Store → NodeId → List Value → Store → Prop
  | last {s : Store} {id : NodeId} {r : ObjectRule} {name : Value}
      (object : s.object? id = some r) :
      Grows flag v s id [name] (s.modifyObject id fun r => (r.setProperty name v).mark flag name)
  | more {s s₁ s' : Store} {id c : NodeId} {r : ObjectRule} {name : Value} {rest : List Value}
      (object : s.object? id = some r) (entered : s.Entered id name s₁ c) (more : rest ≠ [])
      (next : Grows flag v (s₁.mark flag id name) c rest s') :
      Grows flag v s id (name :: rest) s'

/-- The way down is one of growth. -/
theorem grows_grow {s : Store} {id : NodeId} {r : ObjectRule} {path : List Value} (flag : Bool)
    (v : Value) (h : s.Passes id path) (hn : ∀ name ∈ path, name.isHashable = true)
    (hr : s.object? id = some r) : Grows flag v s id path (s.grow flag v id path) := by
  induction path generalizing s id r with
  | nil => cases h
  | cons name rest ih =>
    by_cases hrest : rest = []
    · subst hrest
      exact .last hr
    have hrn : ∀ n ∈ rest, n.isHashable = true := fun n hm => hn n (by simp [hm])
    obtain ⟨s₁, c, r₁, hentered, hc, hnext⟩ := h.entered hrest hrn hr
    rw [grow_of_enter flag v hrest hentered.enter]
    exact .more hr hentered hrest
      (ih (hnext.mark flag id name) hrn (object?_mark_of_some flag id name hc))

/-- What growth comes to is determined by where it starts. -/
theorem Grows.eq_grow {flag : Bool} {v : Value} {s s' : Store} {id : NodeId}
    {path : List Value} (h : Grows flag v s id path s') : s' = s.grow flag v id path := by
  induction h with
  | last => rfl
  | more _ entered hmore _ ih => rw [grow_of_enter _ _ hmore entered.enter, ih]

theorem isHashable_of_putProperty {s s' : Store} {level name v : Value}
    (h : s.putProperty level name v = .ok s') : name.isHashable = true := by
  unfold putProperty at h
  cases hheld : s.holder level "properties" with
  | error f =>
    rw [hheld] at h
    cases h
  | ok id =>
    cases hname : s.unhashable? name with
    | none => exact unhashable?_eq_none.mp hname
    | some f =>
      rw [hheld, hname] at h
      cases h

/-- Names that something was put under can be keys. -/
theorem isHashable_of_place {s₀ s₁ s s' : Store} {flag v w : Value} {path vs : List Value}
    (hlevels : s₀.levels w path = (s₁, .ok vs)) (hplace : s.place flag v vs path = (s', .ok ())) :
    ∀ name ∈ path, name.isHashable = true := by
  induction path generalizing s₀ s w vs with
  | nil => exact fun _ h => nomatch h
  | cons name rest ih =>
    by_cases hrest : rest = []
    · subst hrest
      cases hlevels
      rw [place, if_pos (by rfl)] at hplace
      intro n hn
      cases List.mem_singleton.mp hn
      cases hput : s.putProperty w name v with
      | error f =>
        rw [hput] at hplace
        cases hplace
      | ok s₂ => exact isHashable_of_putProperty hput
    -- the names before the last one were keys when the levels were looked for
    · obtain ⟨id, r, s₂, child, tail, rfl, hr, hname, henter, htail, rfl⟩ :=
        (levels_eq_ok hrest).mp hlevels
      have hempty : ¬ rest.isEmpty = true := by simpa using hrest
      rw [place, if_neg hempty] at hplace
      intro n hn
      rcases List.mem_cons.mp hn with rfl | hn
      · exact hname
      · dsimp only at hplace
        split at hplace
        · cases hplace
        · exact ih htail hplace n hn

theorem isHashable_of_put {s s' : Store} {id : NodeId} {path : List Value} {flag v : Value}
    (hput : s.put id path flag v = (s', .ok ())) : ∀ name ∈ path, name.isHashable = true := by
  unfold put at hput
  split at hput
  · cases hput
  · exact isHashable_of_place ‹_› hput

/-- Putting a value under a free path makes the store grow along it, if it succeeds. -/
theorem grows_of_put {s s' : Store} {id : NodeId} {r : ObjectRule} {path : List Value}
    {flag v : Value} (hp : path ≠ []) (hclear : s.conflict? id [] path = none)
    (hr : s.object? id = some r) (hput : s.put id path flag v = (s', .ok ())) :
    ∃ b, flag.truth = .ok b ∧ Grows b v s id path s' := by
  have hpasses := (conflict?_eq_none_iff hp).mp hclear
  have hn := isHashable_of_put hput
  obtain ⟨b, hb, -, rfl⟩ := (put_eq_ok_iff hpasses hn hr).mp hput
  exact ⟨b, hb, grows_grow b v hpasses hn hr⟩

/-! ## What one level does -/

section Entered

variable {s s₁ : Store} {id c : NodeId} {r : ObjectRule} {name : Value}

theorem Entered.size_le (h : s.Entered id name s₁ c) : s.size ≤ s₁.size :=
  size_enter_le h.enter

theorem Entered.size_mark_le (h : s.Entered id name s₁ c) (flag : Bool) :
    s.size ≤ (s₁.mark flag id name).size := by
  rw [size_mark]
  exact h.size_le

/-- Entering an object changes nothing but where it is entered from. -/
theorem Entered.get?_of_ne (h : s.Entered id name s₁ c) {x : NodeId} (hx : x < s.size)
    (hne : x ≠ id) : s₁.get? x = s.get? x := by
  cases h with
  | there => rfl
  | made => exact get?_fill_lt s name hx hne

/-- What the object that is entered from has become. -/
theorem Entered.object?_self (h : s.Entered id name s₁ c) (hr : s.object? id = some r) :
    s₁.object? id = some r ∧ s.child? id name = some (.node c) ∨
      s₁.object? id = some (r.setProperty name (.node c)) ∧ s.child? id name = none := by
  cases h with
  | there child => exact .inl ⟨hr, child⟩
  | made child => exact .inr ⟨by rw [object?_fill name hr, if_pos rfl], child⟩

theorem Entered.object?_entered (h : s.Entered id name s₁ c) (hr : s.object? id = some r) :
    ∃ r₁, s₁.object? c = some r₁ ∧ r₁.kind.acceptsProperties = true := by
  cases h with
  | there _ object accepts => exact ⟨_, object, accepts⟩
  | made =>
    exact ⟨.empty, object?_fill_new name hr, rfl⟩

/-- What was entered is found under the name. -/
theorem Entered.child? (h : s.Entered id name s₁ c) (hr : s.object? id = some r) :
    s₁.child? id name = some (.node c) := by
  rcases h.object?_self hr with ⟨hobj, hchild⟩ | ⟨hobj, -⟩
  · rw [child?_of_object? hobj, ← child?_of_object? hr, hchild]
  · rw [child?_of_object? hobj, ObjectRule.setProperty_properties, Entries.get?_set_self]
    rfl

end Entered

theorem child?_of_get? {s : Store} {id c : NodeId} {r : ObjectRule} {name : Value}
    (hr : s.object? id = some r) (h : r.properties.get? name = some (.node c)) :
    s.child? id name = some (.node c) := by
  rw [child?_of_object? hr, h]
  rfl

theorem get?_of_child? {s : Store} {id c : NodeId} {r : ObjectRule} {name : Value}
    (hr : s.object? id = some r) (h : s.child? id name = some (.node c)) :
    r.properties.get? name = some (.node c) := by
  rw [child?_of_object? hr] at h
  obtain ⟨v, hv, hpresent⟩ := Option.bind_eq_some_iff.mp h
  cases v <;> simp_all [Value.present]

theorem mem_of_get? {es : Entries Value Value} {name v : Value} (h : es.get? name = some v) :
    ∃ k, (k == name) = true ∧ (k, v) ∈ es := by
  induction es with
  | nil => cases h
  | cons e es ih =>
    obtain ⟨k, w⟩ := e
    rw [Entries.get?_cons] at h
    by_cases hk : (k == name) = true
    · rw [if_pos hk] at h
      cases h
      exact ⟨k, hk, by simp⟩
    · rw [if_neg hk] at h
      obtain ⟨k', hk', hmem⟩ := ih h
      exact ⟨k', hk', by simp [hmem]⟩

/-- An object rule refers to the rules that its properties hold. -/
theorem mem_references_of_child? {s : Store} {id c : NodeId} {name : Value}
    (h : s.child? id name = some (.node c)) : c ∈ s.references id := by
  unfold child? at h
  split at h
  · rename_i r hr
    obtain ⟨v, hv, hpresent⟩ := Option.bind_eq_some_iff.mp h
    obtain ⟨k, -, hmem⟩ := mem_of_get? hv
    have hc : c ∈ v.nodes := by
      cases v <;> simp_all [Value.present, Value.nodes]
    obtain ⟨required, hget⟩ := object?_eq_some.mp hr
    rw [references_of_get? hget]
    refine List.mem_append_right _ (List.mem_append_left _ ?_)
    exact Value.mem_nodesUnder.mpr ⟨_, hmem, .inr hc⟩
  · cases h

/-- Listing a name changes nothing below a rule that does not lead to where it is listed. -/
theorem agree_mark {s : Store} {id c : NodeId} (flag : Bool) (name : Value)
    (h : ¬ s.Reaches c id) : s.Agree (s.mark flag id name) c := by
  intro x hx
  have hne : x ≠ id := by
    rintro rfl
    exact h hx
  exact (get?_mark_ne s flag name hne).symm

/-- From an object that is entered below an acyclic one there is no way back. -/
theorem Entered.acyclic {s s₁ : Store} {id c : NodeId} {r : ObjectRule} {name : Value}
    (h : s.Entered id name s₁ c) (hr : s.object? id = some r) (ha : s.Acyclic id) (flag : Bool) :
    (s₁.mark flag id name).Acyclic c ∧ ¬ (s₁.mark flag id name).Reaches c id := by
  cases h with
  | there hchild =>
    have hmem := mem_references_of_child? hchild
    have hback := ha.not_reaches hmem
    have hagree := agree_mark flag name hback
    exact ⟨hagree.acyclic (ha.child hmem), fun hx => hback (hagree.symm.reaches hx)⟩
  | made =>
    have hrefs := references_empty (object?_mark_fill_new flag name hr)
    refine ⟨⟨1, fun x hx => ?_⟩, fun hx => ?_⟩
    · rw [hrefs] at hx
      cases hx
    · cases hx with
      | refl => exact Nat.lt_irrefl _ (lt_size_of_object? hr)
      | step hc =>
        rw [hrefs] at hc
        cases hc

/-- What is not a property or a required name of an object rule is as in another one. -/
structure SameFrame (r r' : ObjectRule) : Prop where
  kind : r'.kind = r.kind
  model : r'.model = r.model
  additional : r'.additional = r.additional

/-- Growth keeps what an object rule is apart from its properties and required names. -/
theorem Grows.object? {flag : Bool} {v : Value} {s s' : Store} {id x : NodeId} {r : ObjectRule}
    {path : List Value} (h : Grows flag v s id path s') (hr : s.object? x = some r) :
    ∃ r', s'.object? x = some r' ∧ SameFrame r r' := by
  induction h generalizing r with
  | @last s id _ name _ =>
    rw [object?_modifyObject]
    by_cases hx : x = id
    · subst hx
      rw [if_pos rfl, hr]
      exact ⟨_, rfl, by simp, by simp, by simp⟩
    · rw [if_neg hx]
      exact ⟨r, hr, rfl, rfl, rfl⟩
  | @more s s₁ s' id c ro name rest hro hentered _ _ ih =>
    -- entering sets at most a property
    have hmid : ∃ r₁, s₁.object? x = some r₁ ∧ SameFrame r r₁ := by
      by_cases hx : x = id
      · subst hx
        rcases hentered.object?_self hr with ⟨hobj, -⟩ | ⟨hobj, -⟩
        · exact ⟨r, hobj, rfl, rfl, rfl⟩
        · exact ⟨_, hobj, rfl, rfl, rfl⟩
      · refine ⟨r, ?_, rfl, rfl, rfl⟩
        rw [Store.object?, hentered.get?_of_ne (lt_size_of_object? hr) hx, ← Store.object?, hr]
    obtain ⟨r₁, hr₁, hframe⟩ := hmid
    obtain ⟨r', hr', hframe'⟩ := ih (object?_mark_of_some flag id name hr₁)
    refine ⟨r', hr', ?_⟩
    split at hframe'
    · exact ⟨by rw [hframe'.kind, ObjectRule.mark_kind, hframe.kind],
        by rw [hframe'.model, ObjectRule.mark_model, hframe.model],
        by rw [hframe'.additional, ObjectRule.mark_additional, hframe.additional]⟩
    · exact ⟨hframe'.kind.trans hframe.kind, hframe'.model.trans hframe.model,
        hframe'.additional.trans hframe.additional⟩

/-! ## Where growth takes place -/

/-- The object rules that there are on the way along a path, from the first one on. -/
def walk (s : Store) (id : NodeId) : List Value → List NodeId
  | [] => []
  | [_] => [id]
  | name :: rest =>
    id :: match s.child? id name with
      | some (.node c) => s.walk c rest
      | _ => []

theorem walk_of_more (s : Store) (id : NodeId) (name : Value) {rest : List Value}
    (hrest : rest ≠ []) :
    s.walk id (name :: rest) = id :: match s.child? id name with
      | some (.node c) => s.walk c rest
      | _ => [] := by
  rw [walk.eq_3 s id name rest fun h => hrest h]

@[simp] theorem walk_mark (s : Store) (flag : Bool) (x : NodeId) (name : Value) (id : NodeId)
    (path : List Value) : (s.mark flag x name).walk id path = s.walk id path := by
  induction path generalizing id with
  | nil => rfl
  | cons other rest ih =>
    by_cases hrest : rest = []
    · subst hrest
      rfl
    · rw [walk_of_more _ id other hrest, walk_of_more s id other hrest, child?_mark]
      simp only [ih]

/-- The objects on the way along a path are below the first one. -/
theorem reaches_of_mem_walk {s : Store} {id x : NodeId} {path : List Value}
    (h : x ∈ s.walk id path) : s.Reaches id x := by
  induction path generalizing id with
  | nil => cases h
  | cons name rest ih =>
    by_cases hrest : rest = []
    · subst hrest
      cases List.mem_singleton.mp h
      exact .refl _
    rw [walk_of_more s id name hrest] at h
    rcases List.mem_cons.mp h with rfl | h
    · exact .refl _
    · split at h
      · exact .step (mem_references_of_child? ‹_›) (ih h)
      · cases h

/-- Growth changes no rule that is not on the way. -/
theorem Grows.get?_of_not_mem_walk {flag : Bool} {v : Value} {s s' : Store} {id x : NodeId}
    {path : List Value} (h : Grows flag v s id path s') (hx : x < s.size)
    (hw : x ∉ s.walk id path) : s'.get? x = s.get? x := by
  induction h with
  | last => exact get?_modifyObject_ne _ _ fun hid => hw (by simp [walk, hid])
  | @more s s₁ s' id c r name rest hr hentered hrest _ ih =>
    rw [walk_of_more s id name hrest, List.mem_cons, not_or] at hw
    have hlt := hx.trans_le (hentered.size_mark_le flag)
    -- the way from an object just made is that object alone
    have hbelow : x ∉ (s₁.mark flag id name).walk c rest := by
      rw [walk_mark]
      cases hentered with
      | there hchild =>
        rw [hchild] at hw
        exact hw.2
      | made =>
        intro hmem
        have hobj := object?_fill_new name hr
        have hself : (s.fill id name).walk s.size rest = [s.size] := by
          obtain ⟨next, rest, rfl⟩ := List.exists_cons_of_ne_nil hrest
          by_cases hmore : rest = []
          · subst hmore
            rfl
          · rw [walk_of_more _ _ next hmore, child?_empty hobj]
        rw [hself, List.mem_singleton] at hmem
        exact Nat.ne_of_lt hx hmem
    rw [ih hlt hbelow, get?_mark_ne s₁ flag name hw.1, hentered.get?_of_ne hx hw.1]

/-- Growth below an object that is entered leaves the one it is entered from alone. -/
theorem Grows.get?_of_entered {flag : Bool} {v : Value} {s s₁ s' : Store} {id c : NodeId}
    {r : ObjectRule} {name : Value} {rest : List Value}
    (h : Grows flag v (s₁.mark flag id name) c rest s') (hentered : s.Entered id name s₁ c)
    (hr : s.object? id = some r) (ha : s.Acyclic id) :
    s'.get? id = (s₁.mark flag id name).get? id := by
  have hlt := (lt_size_of_object? hr).trans_le (hentered.size_mark_le flag)
  exact h.get?_of_not_mem_walk hlt fun hmem =>
    (hentered.acyclic hr ha flag).2 (reaches_of_mem_walk hmem)

/-- What was entered is found under the name when the growth below it is over. -/
theorem Grows.child?_of_entered {flag : Bool} {v : Value} {s s₁ s' : Store} {id c : NodeId}
    {r : ObjectRule} {name : Value} {rest : List Value}
    (h : Grows flag v (s₁.mark flag id name) c rest s') (hentered : s.Entered id name s₁ c)
    (hr : s.object? id = some r) (ha : s.Acyclic id) : s'.child? id name = some (.node c) := by
  have hself : s'.object? id = (s₁.mark flag id name).object? id := by
    rw [Store.object?, h.get?_of_entered hentered hr ha, ← Store.object?]
  rw [child?_congr hself, child?_mark]
  exact hentered.child? hr

/-- What has become of the object that is entered from when the growth below it is over. -/
theorem Grows.object?_of_entered {flag : Bool} {v : Value} {s s₁ s' : Store} {id c : NodeId}
    {r : ObjectRule} {name : Value} {rest : List Value}
    (h : Grows flag v (s₁.mark flag id name) c rest s') (hentered : s.Entered id name s₁ c)
    (hr : s.object? id = some r) (ha : s.Acyclic id) :
    s'.object? id = some (r.mark flag name) ∧ s.child? id name = some (.node c) ∨
      s'.object? id = some ((r.setProperty name (.node c)).mark flag name) ∧
        s.child? id name = none := by
  have hself : s'.object? id = (s₁.mark flag id name).object? id := by
    rw [Store.object?, h.get?_of_entered hentered hr ha, ← Store.object?]
  rw [hself, object?_mark, if_pos rfl]
  rcases hentered.object?_self hr with ⟨hobj, hchild⟩ | ⟨hobj, hchild⟩
  · exact .inl ⟨by rw [hobj, Option.map_some], hchild⟩
  · exact .inr ⟨by rw [hobj, Option.map_some], hchild⟩

end DraftSchema.Store
