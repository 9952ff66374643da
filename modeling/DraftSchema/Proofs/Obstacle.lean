import DraftSchema.Proofs.Frame

/-!
# What is in the way of a path

Something is in the way of a path if some of its first names, but not all of them, lead to a value
that is no object which accepts properties. A path is in conflict exactly with what it meets first of
this kind. Where nothing is in the way, what holds its names is found on every level: the objects that
were there, and new ones from the first missing one on.
-/

namespace DraftSchema.Store

variable {s s' t : Store} {id c : NodeId} {r : ObjectRule} {name v : Value}
  {path before rest seen vs : List Value}

/-- The names `before`, with which a path starts and does not end, lead to a value that is no object
which accepts properties. -/
structure Obstacle (s : Store) (id : NodeId) (path before : List Value) (v : Value) : Prop where
  nonempty : before ≠ []
  inside : ∃ after, after ≠ [] ∧ path = before ++ after
  found : s.follow? (.node id) before = some v
  blocks : ∀ x r, v = .node x → s.object? x = some r → r.kind.acceptsProperties = false

/-- The obstacle that a path meets first. -/
structure FirstObstacle (s : Store) (id : NodeId) (path before : List Value) (v : Value) : Prop
    extends Obstacle s id path before v where
  first : ∀ other u, s.Obstacle id path other u → before.length ≤ other.length

/-! ## Conflicts -/

theorem passable?_eq_none : s.passable? v = none ↔
    ∀ x r, v = .node x → s.object? x = some r → r.kind.acceptsProperties = false := by
  constructor
  · rintro h x r rfl hr
    by_contra haccepts
    have hpass := passable?_eq_some.mpr ⟨rfl, r, hr, by simpa using haccepts⟩
    rw [h] at hpass
    cases hpass
  · intro h
    cases hpass : s.passable? v with
    | none => rfl
    | some c =>
      obtain ⟨rfl, r, hr, haccepts⟩ := passable?_eq_some.mp hpass
      rw [h c r rfl hr] at haccepts
      cases haccepts

theorem follow?_cons (hchild : s.child? id name = some v) (q : List Value) :
    s.follow? (.node id) (name :: q) = s.follow? v q := by
  rw [follow?, hchild, Option.bind_some]

theorem follow?_missing (hchild : s.child? id name = none) (q : List Value) :
    s.follow? (.node id) (name :: q) = none := by
  rw [follow?, hchild, Option.bind_none]

/-- An obstacle is what stands under the first name, or it is one below that. -/
theorem Obstacle.under (h : s.Obstacle id (name :: rest) before v) :
    rest ≠ [] ∧ ∃ u tail, before = name :: tail ∧ s.child? id name = some u ∧
      (tail = [] ∧ u = v ∨ ∃ c, u = .node c ∧ s.Obstacle c rest tail v) := by
  obtain ⟨hne, ⟨after, hafter, hpath⟩, hfound, hblocks⟩ := h
  obtain ⟨first, tail, rfl⟩ := List.exists_cons_of_ne_nil hne
  obtain ⟨rfl, rfl⟩ := List.cons.inj hpath
  refine ⟨by simp [hafter], ?_⟩
  cases hchild : s.child? id name with
  | none =>
    rw [follow?_missing hchild] at hfound
    cases hfound
  | some u =>
    rw [follow?_cons hchild] at hfound
    refine ⟨u, tail, rfl, rfl, ?_⟩
    by_cases htail : tail = []
    · subst htail
      cases hfound
      exact .inl ⟨rfl, rfl⟩
    · right
      cases u with
      | node c => exact ⟨c, rfl, htail, ⟨after, hafter, rfl⟩, hfound, hblocks⟩
      | _ =>
        obtain ⟨second, tail, rfl⟩ := List.exists_cons_of_ne_nil htail
        cases hfound

/-- What stands under the first name is the first obstacle if it is one. -/
theorem firstObstacle_head (hrest : rest ≠ []) (hchild : s.child? id name = some v)
    (hblocks : s.passable? v = none) : s.FirstObstacle id (name :: rest) [name] v where
  nonempty := by simp
  inside := ⟨rest, hrest, rfl⟩
  found := by rw [follow?_cons hchild, follow?]
  blocks := passable?_eq_none.mp hblocks
  first other u hother := List.length_pos_iff.mpr hother.nonempty

/-- Below an object that accepts properties the first obstacle is the first one from there. -/
theorem FirstObstacle.cons (h : s.FirstObstacle c rest before v)
    (hchild : s.child? id name = some (.node c)) (hpass : s.passable? (.node c) = some c) :
    s.FirstObstacle id (name :: rest) (name :: before) v where
  nonempty := by simp
  inside := by
    obtain ⟨after, hafter, rfl⟩ := h.inside
    exact ⟨after, hafter, rfl⟩
  found := by rw [follow?_cons hchild, h.found]
  blocks := h.blocks
  first other u hother := by
    obtain ⟨-, u', tail, rfl, hu', hcases⟩ := hother.under
    cases hchild.symm.trans hu'
    rcases hcases with ⟨-, rfl⟩ | ⟨c', hc', hbelow⟩
    · -- the object itself is in nobody's way
      rw [passable?_eq_none.mpr hother.blocks] at hpass
      cases hpass
    · cases hc'
      exact Nat.succ_le_succ (h.first tail u hbelow)

theorem FirstObstacle.unique {other : List Value} {u : Value} (h : s.FirstObstacle id path before v)
    (h' : s.FirstObstacle id path other u) : other = before ∧ u = v := by
  obtain ⟨after, -, hpath⟩ := h.inside
  obtain ⟨after', -, hpath'⟩ := h'.inside
  have hlength : other.length = before.length :=
    Nat.le_antisymm (h'.first _ _ h.toObstacle) (h.first _ _ h'.toObstacle)
  obtain ⟨rfl, -⟩ := List.append_inj (hpath'.symm.trans hpath) hlength
  exact ⟨rfl, Option.some.inj (h'.found.symm.trans h.found)⟩

/-- A path of names that can be keys is in conflict with the first obstacle. -/
theorem conflict?_eq_some {f : Fault} (hn : ∀ name ∈ path, name.isHashable = true)
    (h : s.conflict? id seen path = some f) :
    ∃ before v, s.FirstObstacle id path before v ∧ f = s.blocked v (seen ++ before) := by
  induction path generalizing id seen with
  | nil => cases h
  | cons name rest ih =>
    by_cases hrest : rest = []
    · subst hrest
      cases h
    rw [conflict?.eq_3 s id seen name rest (fun h => hrest h),
      unhashable?_eq_none.mpr (hn name (by simp))] at h
    dsimp only at h
    cases hchild : s.child? id name with
    | none =>
      rw [hchild] at h
      cases h
    | some v =>
      rw [hchild] at h
      dsimp only at h
      cases hpass : s.passable? v with
      | none =>
        rw [hpass] at h
        cases h
        exact ⟨[name], v, firstObstacle_head hrest hchild hpass, rfl⟩
      | some c =>
        rw [hpass] at h
        obtain ⟨rfl, -⟩ := passable?_eq_some.mp hpass
        obtain ⟨before, u, hfirst, hf⟩ := ih (fun name hname => hn name (by simp [hname])) h
        exact ⟨name :: before, u, hfirst.cons hchild hpass, by rw [hf, List.append_assoc]; rfl⟩

/-- Nothing is in the way of a path that can be gone along. -/
theorem Passes.not_obstacle (h : s.Passes id path) : ¬ s.Obstacle id path before v := by
  induction h generalizing before with
  | last id name =>
    intro hobstacle
    exact hobstacle.under.1 rfl
  | missing _ _ hchild =>
    intro hobstacle
    obtain ⟨-, u, tail, -, hu, -⟩ := hobstacle.under
    cases hchild.symm.trans hu
  | through _ _ hchild hr haccepts _ ih =>
    intro hobstacle
    obtain ⟨-, u, tail, -, hu, ⟨-, rfl⟩ | ⟨c, rfl, hbelow⟩⟩ := hobstacle.under
    · cases hchild.symm.trans hu
      rw [hobstacle.blocks _ _ rfl hr] at haccepts
      cases haccepts
    · cases hchild.symm.trans hu
      exact ih hbelow

/-- A path of names that can be keys is in conflict exactly if there is an obstacle. -/
theorem conflict?_isSome_iff (seen : List Value) (hp : path ≠ [])
    (hn : ∀ name ∈ path, name.isHashable = true) :
    (∃ f, s.conflict? id seen path = some f) ↔ ∃ before v, s.Obstacle id path before v := by
  constructor
  · rintro ⟨f, hf⟩
    obtain ⟨before, v, hfirst, -⟩ := conflict?_eq_some hn hf
    exact ⟨before, v, hfirst.toObstacle⟩
  · rintro ⟨before, v, hobstacle⟩
    cases hconflict : s.conflict? id seen path with
    | none => exact absurd hobstacle ((conflict?_eq_none_iff hp).mp hconflict).not_obstacle
    | some f => exact ⟨f, rfl⟩

/-- A path of names that can be keys can be gone along if nothing is in its way. -/
theorem passes_of_clear (hp : path ≠ []) (hn : ∀ name ∈ path, name.isHashable = true)
    (hclear : ¬ ∃ before v, s.Obstacle id path before v) : s.Passes id path := by
  cases hconflict : s.conflict? id [] path with
  | none => exact (conflict?_eq_none_iff hp).mp hconflict
  | some f => exact absurd ((conflict?_isSome_iff [] hp hn).mp ⟨f, hconflict⟩) hclear

theorem FirstObstacle.conflict? (h : s.FirstObstacle id path before v)
    (hn : ∀ name ∈ path, name.isHashable = true) :
    s.conflict? id [] path = some (s.blocked v before) := by
  have hp : path ≠ [] := by
    obtain ⟨after, hafter, rfl⟩ := h.inside
    simp [hafter]
  obtain ⟨f, hf⟩ := (conflict?_isSome_iff [] hp hn).mpr ⟨before, v, h.toObstacle⟩
  obtain ⟨other, u, hother, rfl⟩ := conflict?_eq_some hn hf
  obtain ⟨rfl, rfl⟩ := h.unique hother
  exact hf

/-- Obstacles are the same where the rules of an object are the same. -/
theorem Obstacle.congr (h : s.Obstacle id path before v) (hsame : s.Agree t id) :
    t.Obstacle id path before v where
  nonempty := h.nonempty
  inside := h.inside
  found := by rw [follow?_congr hsame, h.found]
  blocks := by
    rintro x r rfl hr
    have hget : s.get? x = t.get? x := hsame x (reaches_of_follow? h.found)
    refine h.blocks x r rfl ?_
    rw [object?, hget]
    exact hr

/-! ## Levels -/

/-- A store has got more properties: what stood under a name still does, and objects are of the kind
they were of. -/
structure Filled (s t : Store) : Prop where
  child : ∀ x name v, s.child? x name = some v → t.child? x name = some v
  object : ∀ x r, s.object? x = some r → ∃ r', t.object? x = some r' ∧ r'.kind = r.kind

theorem Filled.refl (s : Store) : s.Filled s where
  child _ _ _ h := h
  object _ r h := ⟨r, h, rfl⟩

theorem Filled.trans {u : Store} (h : s.Filled t) (h' : t.Filled u) : s.Filled u where
  child x name v hv := h'.child x name v (h.child x name v hv)
  object x r hr := by
    obtain ⟨r', hr', hkind⟩ := h.object x r hr
    obtain ⟨r'', hr'', hkind'⟩ := h'.object x r' hr'
    exact ⟨r'', hr'', hkind'.trans hkind⟩

/-- An object that is put under a missing name replaces nothing. -/
theorem filled_fill (hr : s.object? id = some r) (hchild : s.child? id name = none) :
    s.Filled (s.fill id name) := by
  have hself : (s.fill id name).object? id = some (r.setProperty name (.node s.size)) := by
    rw [object?_fill name hr, if_pos rfl]
  have hother : ∀ x rx, s.object? x = some rx → x ≠ id → (s.fill id name).object? x = some rx := by
    intro x rx hx hne
    rw [object?_fill name hr, if_neg hne, if_neg (Nat.ne_of_lt (lt_size_of_object? hx)), hx]
  constructor
  · intro x other v hv
    cases hx : s.object? x with
    | none =>
      rw [child?, hx] at hv
      cases hv
    | some rx =>
      by_cases hid : x = id
      · subst x
        have hne : (name == other) = false := by
          by_contra hb
          rw [child?_beq (by simpa using hb), hv] at hchild
          cases hchild
        rw [child?_of_object? hself, ObjectRule.setProperty_properties,
          Entries.get?_set_ne _ _ hne, ← child?_of_object? hr, hv]
      · rw [child?_congr ((hother x rx hx hid).trans hx.symm), hv]
  · intro x rx hx
    by_cases hid : x = id
    · subst x
      cases hr.symm.trans hx
      exact ⟨_, hself, rfl⟩
    · exact ⟨rx, hother x rx hx hid, rfl⟩

theorem filled_enter (hr : s.object? id = some r) (h : s.enter id name = (t, v)) :
    s.Filled t ∧ t.child? id name = some v := by
  cases hchild : s.child? id name with
  | some u =>
    rw [enter_of_child hchild] at h
    cases h
    exact ⟨.refl s, hchild⟩
  | none =>
    rw [enter_of_missing hchild] at h
    cases h
    exact ⟨filled_fill hr hchild, (Entered.made hchild).child? hr⟩

/-- Looking for what holds the names of a path fills the store. -/
theorem filled_levels {u : Value} (h : s.levels u path = (t, .ok vs)) : s.Filled t := by
  induction path generalizing s u vs with
  | nil =>
    cases h
    exact .refl _
  | cons name rest ih =>
    by_cases hrest : rest = []
    · subst hrest
      cases h
      exact .refl _
    obtain ⟨x, r, s₁, child, tail, -, hr, -, henter, htail, -⟩ := (levels_eq_ok hrest).mp h
    exact (filled_enter hr henter).1.trans (ih htail)

/-- There is one level for each name, and it is what the names before lead to. -/
theorem levels_found {u : Value} (h : s.levels u path = (t, .ok vs)) :
    vs.length = path.length ∧ ∀ i < path.length, vs[i]? = t.follow? u (path.take i) := by
  induction path generalizing s u vs with
  | nil =>
    cases h
    exact ⟨rfl, fun i hi => absurd hi (Nat.not_lt_zero i)⟩
  | cons name rest ih =>
    by_cases hrest : rest = []
    · subst hrest
      cases h
      refine ⟨rfl, fun i hi => ?_⟩
      obtain rfl : i = 0 := Nat.lt_one_iff.mp hi
      rfl
    obtain ⟨x, r, s₁, child, tail, rfl, hr, -, henter, htail, rfl⟩ := (levels_eq_ok hrest).mp h
    obtain ⟨hlength, hfound⟩ := ih htail
    have hchild : t.child? x name = some child :=
      (filled_levels htail).child x name child (filled_enter hr henter).2
    refine ⟨by rw [List.length_cons, List.length_cons, hlength], fun i hi => ?_⟩
    cases i with
    | zero => rfl
    | succ i =>
      rw [List.getElem?_cons_succ, List.take_succ_cons, follow?_cons hchild]
      exact hfound i (Nat.lt_of_succ_lt_succ hi)

/-- A level after the first is an object that accepts properties: the one that was there, or a new one
where there was nothing. -/
structure Level (s t : Store) (id : NodeId) (before : List Value) (x : NodeId) : Prop where
  object : ∃ r, t.object? x = some r ∧ r.kind.acceptsProperties = true
  origin : s.follow? (.node id) before = some (.node x) ∨
    s.follow? (.node id) before = none ∧ s.size ≤ x

theorem follow?_empty (h : s.object? c = some .empty) (hp : path ≠ []) :
    s.follow? (.node c) path = none := by
  obtain ⟨name, rest, rfl⟩ := List.exists_cons_of_ne_nil hp
  exact follow?_missing (child?_empty h name) rest

/-- Entering an object is the first level, and levels below it are levels. -/
theorem Entered.level (h : s.Entered id name t c) (hr : s.object? id = some r) {u : Store}
    (hfilled : t.Filled u) : s.Level u id [name] c := by
  obtain ⟨rc, hrc, haccepts⟩ := h.object?_entered hr
  obtain ⟨rc', hrc', hkind⟩ := hfilled.object c rc hrc
  refine ⟨⟨rc', hrc', by rw [hkind, haccepts]⟩, ?_⟩
  cases h with
  | there hchild => exact .inl (follow?_cons hchild [])
  | made hchild => exact .inr ⟨follow?_missing hchild [], Nat.le_refl _⟩

theorem Level.below {u : Store} {x : NodeId} (h : t.Level u c before x)
    (hentered : s.Entered id name t c) (hr : s.object? id = some r) (hne : before ≠ []) :
    s.Level u id (name :: before) x := by
  refine ⟨h.object, ?_⟩
  cases hentered with
  | there hchild =>
    rw [follow?_cons hchild]
    exact h.origin
  | made hchild =>
    -- there is nothing below a new object
    have hnone : (s.fill id name).follow? (.node s.size) before = none :=
      follow?_empty (object?_fill_new name hr) hne
    have horigin := h.origin
    rw [hnone, size_fill] at horigin
    right
    refine ⟨follow?_missing hchild before, ?_⟩
    rcases horigin with hfound | ⟨-, hsize⟩
    · cases hfound
    · omega

/-- The levels of a path that can be gone along. -/
theorem Passes.levels (h : s.Passes id path) (hn : ∀ name ∈ path, name.isHashable = true)
    (hr : s.object? id = some r) (hlevels : s.levels (.node id) path = (t, .ok vs)) {i : Nat}
    (hpos : 0 < i) (hi : i < path.length) :
    ∃ x, vs[i]? = some (.node x) ∧ s.Level t id (path.take i) x := by
  induction path generalizing s id r vs i with
  | nil => cases h
  | cons name rest ih =>
    obtain ⟨i, rfl⟩ := Nat.exists_eq_succ_of_ne_zero hpos.ne'
    have hrest : rest ≠ [] := by
      rintro rfl
      exact absurd (Nat.lt_of_succ_lt_succ hi) (Nat.not_lt_zero i)
    have hrn : ∀ n ∈ rest, n.isHashable = true := fun n hm => hn n (by simp [hm])
    obtain ⟨s₁, c, r', hentered, hc, hnext⟩ := h.entered hrest hrn hr
    obtain ⟨x, rx, s₁', child, tail, hx, -, -, henter, htail, rfl⟩ := (levels_eq_ok hrest).mp hlevels
    cases hx
    cases hentered.enter.symm.trans henter
    rw [List.getElem?_cons_succ, List.take_succ_cons]
    cases i with
    | zero =>
      have hfirst := (levels_found htail).2 0 (List.length_pos_iff.mpr hrest)
      exact ⟨c, hfirst, hentered.level hr (filled_levels htail)⟩
    | succ i =>
      obtain ⟨x, hx, hlevel⟩ :=
        ih hnext hrn hc htail (Nat.succ_pos i) (Nat.lt_of_succ_lt_succ hi)
      have hne : rest.take (i + 1) ≠ [] := by simp [hrest]
      exact ⟨x, hx, hlevel.below hentered hr hne⟩

/-- Where nothing is in the way of a path, there is one level for each name: the object that the path
starts from, and then what the names before lead to. -/
theorem levels_of_clear (hp : path ≠ []) (hn : ∀ name ∈ path, name.isHashable = true)
    (hr : s.object? id = some r) (hclear : ¬ ∃ before v, s.Obstacle id path before v) :
    ∃ t levels, s.levels (.node id) path = (t, .ok levels) ∧ levels.length = path.length ∧
      levels[0]? = some (.node id) ∧
      ∀ i, 0 < i → i < path.length → ∃ x, levels[i]? = some (.node x) ∧
        t.follow? (.node id) (path.take i) = some (.node x) ∧ s.Level t id (path.take i) x := by
  have hpasses := passes_of_clear hp hn hclear
  obtain ⟨t, tail, hlevels⟩ := levels_of_passes hpasses hn hr
  obtain ⟨hlength, hfound⟩ := levels_found hlevels
  refine ⟨t, _, hlevels, hlength, rfl, fun i hpos hi => ?_⟩
  obtain ⟨x, hx, hlevel⟩ := hpasses.levels hn hr hlevels hpos hi
  exact ⟨x, hx, (hfound i hi).symm.trans hx, hlevel⟩

end DraftSchema.Store
