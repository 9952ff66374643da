import DraftSchema.Proofs.Commutation
import DraftSchema.Proofs.Listing
import DraftSchema.Proofs.Output
import DraftSchema.Proofs.Spine
import DraftSchema.Proofs.VisibleRules

/-!
# Nested builders

A builder that is put under a path into another one gives the document that the other one gives when
the calls are made on it directly, each with the path in front of its own. The two runs of calls go
abreast: the first builder is the twin of an object that the second run makes at the end of the
path, and what a call does to one of them it does to the other.
-/

namespace DraftSchema

namespace ObjectRule

/-! ## Builders made of texts -/

variable {r : ObjectRule}

/-- An object without a model that paths may lead through, the names of which are texts, and which
says nothing of further keys. -/
structure Worded (r : ObjectRule) : Prop where
  accepts : r.kind.acceptsProperties = true
  model : r.model = .null
  additional : r.additional = none
  names : ∀ k ∈ r.properties.keys, ∃ name, k = .text name
  required : ∀ k ∈ r.required, ∃ name, k = .text name

theorem Worded.setProperty (h : r.Worded) (name : String) (v : Value) :
    (r.setProperty (.text name) v).Worded where
  accepts := h.accepts
  model := h.model
  additional := h.additional
  names k hk := by
    rw [setProperty_properties, Entries.keys_set] at hk
    split at hk
    · exact h.names k hk
    · rcases List.mem_append.mp hk with hk | hk
      · exact h.names k hk
      · exact ⟨name, List.mem_singleton.mp hk⟩
  required := h.required

theorem Worded.mark (h : r.Worded) (flag : Bool) (name : String) :
    (r.mark flag (.text name)).Worded where
  accepts := by rw [mark_kind, h.accepts]
  model := by rw [mark_model, h.model]
  additional := by rw [mark_additional, h.additional]
  names := by
    rw [mark_properties]
    exact h.names
  required k hk := by
    rw [mark_required] at hk
    split at hk
    · rcases List.mem_append.mp hk with hk | hk
      · exact h.required k hk
      · exact ⟨name, List.mem_singleton.mp hk⟩
    · exact h.required k hk

end ObjectRule

namespace Store

/-- An object whose names are texts can be shown. -/
theorem nodeText_of_worded {s : Store} {id : NodeId} {r : ObjectRule} (hr : s.object? id = some r)
    (h : r.Worded) : ∃ text, s.nodeText id = .ok text := by
  obtain ⟨required, hget⟩ := object?_eq_some.mp hr
  have showable : ∀ {k : Value}, (∃ name, k = .text name) → k.Showable := by
    rintro k ⟨name, rfl⟩
    exact Value.showable_text name
  rw [nodeText, shownWithin, hget]
  refine (shownOf_object_iff (fun k hk => showable (h.names k hk))
    (fun k hk => showable (h.required k hk)) fun v hv => ?_).mpr fun e he => ?_
  · rw [h.additional] at hv
    cases hv
  · rw [ObjectRule.visible, h.additional] at he
    cases he

/-- Growth along texts leaves the names of an object texts. -/
theorem Grows.worded {flag : Bool} {m id x : NodeId} {path : List String} {s s' : Store}
    {r : ObjectRule} {required : Value} (h : Grows flag (.node m) s id (path.map .text) s')
    (hx : s.get? x = some ⟨.object r, required⟩) (hr : r.Worded) :
    ∃ r', s'.get? x = some ⟨.object r', required⟩ ∧ r'.Worded := by
  obtain ⟨node, hget, r', rfl, hworded⟩ : ∃ node, s'.get? x = some node ∧
      ∃ r', node = ⟨.object r', required⟩ ∧ r'.Worded := by
    refine h.keeps ?_ ?_ hx ⟨r, rfl, hr⟩
    · rintro name hn c r required ⟨r', heq, hr'⟩
      obtain ⟨text, -, rfl⟩ := List.mem_map.mp hn
      cases heq
      exact ⟨_, rfl, hr'.setProperty text _⟩
    · rintro name hn r required ⟨r', heq, hr'⟩
      obtain ⟨text, -, rfl⟩ := List.mem_map.mp hn
      cases heq
      exact ⟨_, rfl, hr'.mark flag text⟩
  exact ⟨r', hget, hworded⟩

end Store

namespace Builder

open Build Store

variable {call : Caller} {w w₁ w' u u' : Workspace} {id m root : NodeId} {value : Value}
  {path above : List String} {r : ObjectRule}

/-! ## One call with an explicit path -/

/-- An explicit path as a selector. -/
def selectorOf (path : List String) : Value := .list 0 (path.map .text)

theorem path_selectorOf (path : List String) (w : Workspace) :
    Selector.path call (selectorOf path) w = .ok (path.map .text) w := by
  show Selector.names (path.map .text) w = _
  induction path with
  | nil => rfl
  | cons name path ih =>
    rw [List.map_cons, Selector.names]
    exact bind_of_ok ih

theorem names_of_texts (path : List String) : ∀ name ∈ path.map Value.text,
    name.isHashable = true ∧ name.nodes = [] := by
  intro name h
  obtain ⟨text, -, rfl⟩ := List.mem_map.mp h
  exact ⟨rfl, rfl⟩

/-- A call without a model succeeds exactly when its path can be gone along, its rule can be asked
whether it is required and, if so, the names can be listed, and the rule can be shown once it is
put. -/
theorem add_eq_ok_iff (hcompile : Construction.compile call .pattern value w = .ok m w₁)
    (hr : w₁.store.object? id = some r) (hmodel : r.model = .null) (hp : path ≠ []) :
    add call id (selectorOf path) value w = .ok () w' ↔ ∃ b text,
      (w₁.store.requirement m).truth = .ok b ∧ w₁.store.Passes id (path.map .text) ∧
      (b = true → w₁.store.listable id (path.map .text) = true) ∧
      (w₁.store.grow b (.node m) id (path.map .text)).nodeText m = .ok text ∧
      w' = { w₁ with
        store := w₁.store.grow b (.node m) id (path.map .text)
        log := w₁.log ++ [report text (Pointer.encode path)] } := by
  have hne : path.map Value.text ≠ [] := by simpa using hp
  have hn : ∀ name ∈ path.map Value.text, name.isHashable = true := fun name h =>
    (names_of_texts path name h).1
  have hres : resolve call (selectorOf path) value w = .ok (path.map .text, m) w₁ :=
    (bind_of_ok (path_selectorOf path w)).trans (bind_of_ok hcompile)
  have hcheck : checkModel call id (path.map .text) w₁ = .ok () w₁ := by
    simp [checkModel, modelOf, hr, hmodel, Value.present]
  rw [add_path_eq_ok hres hne]
  constructor
  · rintro ⟨s, text, pointer, -, hclear, hput, htext, hpoint, rfl⟩
    have hpasses := (conflict?_eq_none_iff hne).mp hclear
    obtain ⟨b, hb, hlist, rfl⟩ := (put_eq_ok_iff hpasses hn hr).mp hput
    rw [pointer_texts] at hpoint
    cases hpoint
    exact ⟨b, _, hb, hpasses, hlist, htext, rfl⟩
  · rintro ⟨b, text, hb, hpasses, hlist, htext, rfl⟩
    exact ⟨_, text, _, hcheck, (conflict?_eq_none_iff hne).mpr hpasses,
      (put_eq_ok_iff hpasses hn hr).mpr ⟨b, hb, hlist, rfl⟩, htext, pointer_texts _ path, rfl⟩

/-- A call that succeeds has found out what its value stands for. -/
theorem compile_of_add (h : add call id (selectorOf path) value w = .ok () w') :
    ∃ m w₁, Construction.compile call .pattern value w = .ok m w₁ := by
  obtain ⟨found, w₂, hres, -⟩ := bind_eq_ok.mp h
  obtain ⟨names, w₃, hpath, hres⟩ := bind_eq_ok.mp hres
  cases (path_selectorOf path w).symm.trans hpath
  obtain ⟨m, w₁, hcompile, -⟩ := bind_eq_ok.mp hres
  exact ⟨m, w₁, hcompile⟩

/-! ## Two runs abreast -/

/-- A call with an explicit path. -/
structure Entry where
  path : List String
  value : Value

/-- Calls on a builder one after the other, each with a path in front of its own. -/
def putAll (call : Caller) (id : NodeId) (above : List String) : List Entry → Build Unit
  | [] => pure ()
  | e :: es => do
    add call id (selectorOf (above ++ e.path)) e.value
    putAll call id above es

/-- A value stands for the same rule in two workspaces: for a rule that is given, or for one that is
made in both. The functions among the values leave the rules alone that are there. -/
inductive Same (call : Caller) (v : Value) (w t : Workspace) : Prop
  | given {m : NodeId} (node : v = .node m)
  | made {rule : Rule} {w₁ t₁ : Workspace}
      (here : Construction.ruleOf call .pattern v w = .ok rule w₁)
      (kept : w₁.store.Extends w.store)
      (there : Construction.ruleOf call .pattern v t = .ok rule t₁)
      (kept' : t₁.store.Extends t.store)

/-- In two runs of calls, one of them with a path in front, every value stands for the same rule
when it is its turn. -/
def Steady (call : Caller) (id : NodeId) (above : List String) :
    List Entry → Workspace → Workspace → Prop
  | [], _, _ => True
  | e :: es, w, t => Same call e.value w t ∧
    ∀ w' t', add call id (selectorOf e.path) e.value w = .ok () w' →
      add call id (selectorOf (above ++ e.path)) e.value t = .ok () t' →
        Steady call id above es w' t'

/-- Whether the rule that a value stands for is required: a rule says so itself, and one that is
made is. -/
def flagOf (s : Store) : Value → Value
  | .node m => s.requirement m
  | _ => .bool true

/-- The object that goes abreast of a builder: none yet, or the one at the end of a spine. -/
inductive Begun (E : Pairing) (root : NodeId) (above : List String) (s t : Store) : Bool → Prop
  | notYet {r : ObjectRule} (inner : s.get? root = some ⟨.object r, .bool true⟩)
      (outer : t.get? root = some ⟨.object r, .bool true⟩) (fresh : r.Fresh)
      (alone : ∀ b, ¬ E root b) (apart : ∀ a, ¬ E a root) : Begun E root above s t false
  | begun {listed : Bool} {m : NodeId} {ids : List NodeId}
      (spine : t.Spine listed m root ids above) (pair : E root m) (distinct : ids.Nodup)
      (apart : ∀ x ∈ ids, ∀ a, ¬ E a x) : Begun E root above s t listed

/-- Two runs of calls on the builder at `root` that started from the rules of one store go abreast:
the second one has made the first one's builder once more at the end of the path in front, the names
of which are listed as soon as the rule of a call was required. -/
structure Abreast (ws : Store) (root : NodeId) (above : List String) (listed : Bool) (E : Pairing)
    (s t : Store) : Prop where
  twin : Twin E root s t
  first : ws.size = root
  old : ∀ x < root, E x x
  /-- What is shown of the rules that were there is made of no more rules. -/
  fewer : ∀ x < root, ∀ c ∈ s.bare.references x, c ∈ ws.bare.references x
  flags : ∀ x < root, s.requirement x = ws.requirement x
  inner : ∃ r, s.get? root = some ⟨.object r, .bool true⟩ ∧ r.Worded
  outer : ∃ r, t.object? root = some r ∧ r.model = .null
  begun : Begun E root above s t listed

section Begun

variable {E : Pairing} {root : NodeId} {above : List String} {s t : Store} {listed : Bool}
  {q : List Value}

/-- The way down along the path in front leads to the object that goes abreast of the builder. -/
theorem Begun.descends (h : Begun E root above s t listed) (htwin : Twin E root s t)
    (hinner : ∃ r, s.object? root = some r ∧ r.kind.acceptsProperties = true) (habove : above ≠ [])
    (flag : Bool) (hq : q ≠ []) (hpass : s.Passes root q)
    (hlist : flag = true → s.listable root q = true) :
    t.Passes root (above.map .text ++ q) ∧
      (flag = true → t.listable root (above.map .text ++ q) = true) ∧
      ∃ t₁ E₁ m ids, Descends flag t root (above.map .text) t₁ m ∧ Twin E₁ root s t₁ ∧ E₁ root m ∧
        (∀ a b, E a b → E₁ a b) ∧ t₁.Spine (listed || flag) m root ids above ∧ ids.Nodup ∧
        ∀ x ∈ ids, ∀ a, ¬ E₁ a x := by
  cases h with
  | @notYet r inner outer fresh alone apart =>
    -- the objects along the path are made, and the last of them is paired with the builder
    have hobj : t.object? root = some r := object?_eq_some.mpr ⟨_, outer⟩
    refine ⟨?_, fun _ => listable_fresh hobj fresh _, ?_⟩
    · obtain ⟨name, rest, hnames⟩ := List.exists_cons_of_ne_nil habove
      rw [hnames, List.map_cons, List.cons_append]
      exact passes_fresh hobj fresh rfl
    · obtain ⟨t₁, m, ids, r', hdescends, hspine, hm, hr', hnodup, hend, hids, hm', hle, hsame⟩ :=
        descends_fresh above flag outer fresh
      have hm' : t.size ≤ m := hm'.resolve_left fun h => habove h.2
      have hkept : Twin E root s t₁ := htwin.congr (fun _ _ _ => rfl) (fun a b hab =>
        hsame b (htwin.lt_size hab).2 fun heq => apart a (heq ▸ hab)) (Nat.le_refl _)
      have hnew : ∀ a, ¬ E a m := fun a ha => absurd (htwin.lt_size ha).2 (Nat.not_lt.mpr hm')
      refine ⟨t₁, E.add root m, m, ids, hdescends, ?_, .inr ⟨rfl, rfl⟩, fun _ _ => .inl, ?_, hnodup,
        ?_⟩
      · exact hkept.add inner hm rfl (.object (fresh.moved hr')) (fun hne => absurd rfl hne) alone
          hnew fun hself => Nat.ne_of_lt ((lt_size_of_object? hobj).trans_le hm') hself.2
      · rwa [Bool.false_or]
      · rintro x hx a (ha | ⟨-, rfl⟩)
        · rcases hids x hx with rfl | hsize
          · exact apart a ha
          · exact absurd (htwin.lt_size ha).2 (Nat.not_lt.mpr hsize)
        · exact hend hx
  | @begun _ m ids spine pair distinct apart =>
    -- the objects along the path are there, and no pair is changed when their names are listed
    obtain ⟨r, hr, haccepts⟩ := hinner
    obtain ⟨rm, hrm, hmoved⟩ := htwin.pairs.object? pair hr
    have haccepts' : rm.kind.acceptsProperties = true := hmoved.accepts ▸ haccepts
    have hend : m ∉ ids := fun hmem => apart m hmem root pair
    obtain ⟨t₁, hdescends, hspine, hsize, hsame⟩ := spine.descends flag hrm haccepts' distinct hend
    refine ⟨spine.passes hrm haccepts' hq (htwin.pairs.passes pair hpass), fun hflag => ?_, t₁, E,
      m, ids, hdescends, ?_, pair, fun _ _ h => h, hspine, distinct, apart⟩
    · exact spine.listable hq (htwin.pairs.listable pair q ▸ hlist hflag)
    · exact htwin.congr (fun _ _ _ => rfl) (fun a b hab => hsame b fun hmem => apart b hmem a hab)
        (Nat.le_refl _)

end Begun

section Abreast

variable {E : Pairing} {ws s t : Store} {listed flag : Bool} {m' : NodeId}

theorem Abreast.inner_object? (h : Abreast ws root above listed E s t) :
    ∃ r, s.object? root = some r ∧ r.Worded := by
  obtain ⟨r, hr, hworded⟩ := h.inner
  exact ⟨r, object?_eq_some.mpr ⟨_, hr⟩, hworded⟩

/-- Growth from a builder along a path is followed by growth along the path with the one in front.
-/
theorem Abreast.grow (h : Abreast ws root above listed E s t) (habove : above ≠ [])
    (hp : path ≠ []) (hm : E m m') (hpass : s.Passes root (path.map .text))
    (hlist : flag = true → s.listable root (path.map .text) = true) :
    t.Passes root ((above ++ path).map .text) ∧
      (flag = true → t.listable root ((above ++ path).map .text) = true) ∧
      ∃ E', E' m m' ∧ Abreast ws root above (listed || flag) E'
        (s.grow flag (.node m) root (path.map .text))
        (t.grow flag (.node m') root ((above ++ path).map .text)) := by
  have hnames : ∀ name ∈ path.map Value.text, name.nodes = [] := fun name hn =>
    (names_of_texts path name hn).2
  have hne : path.map Value.text ≠ [] := by simpa using hp
  obtain ⟨r, hr, hworded⟩ := h.inner_object?
  have hgrows := grows_grow flag (.node m) hpass (fun n hn => (names_of_texts path n hn).1) hr
  obtain ⟨hpass', hlist', t₁, E₁, c, ids, hdescends, htwin, hpair, hkept, hspine, hdistinct,
      hapart⟩ :=
    h.begun.descends h.twin ⟨r, hr, hworded.accepts⟩ habove flag hne hpass hlist
  obtain ⟨t', E', hgrows', htwin', hout⟩ := htwin.grows hpair (hkept m m' hm) hnames hgrows
  have houter := hdescends.grows hne hgrows'
  rw [List.map_append, ← houter.eq_grow]
  have hlt : root < s.size := h.twin.there
  refine ⟨hpass', hlist', E', hout.kept m m' (hkept m m' hm), ?_⟩
  exact
    { twin := htwin'
      first := h.first
      old := fun x hx => hout.kept x x (hkept x x (h.old x hx))
      fewer := fun x hx c hc =>
        h.fewer x hx c (hgrows.references_bare hnames (hx.trans hlt) hc)
      flags := fun x hx => (hgrows.requirement (hx.trans hlt)).trans (h.flags x hx)
      inner := by
        obtain ⟨r, hget, hworded⟩ := h.inner
        exact hgrows.worded hget hworded
      outer := by
        obtain ⟨r, hr, hmodel⟩ := h.outer
        obtain ⟨r', hr', hframe⟩ := houter.object? hr
        exact ⟨r', hr', hframe.model.trans hmodel⟩
      begun := by
        refine .begun (hspine.congr fun x hx => hout.apart x (hspine.lt_size hx) (hapart x hx))
          (hout.kept _ _ hpair) hdistinct fun x hx a ha => ?_
        rcases hout.new a x ha with ha | hsize
        · exact hapart x hx a ha
        · exact absurd (hspine.lt_size hx) (Nat.not_lt.mpr hsize) }

/-- Two runs are still abreast when there are more rules, which nothing refers to. -/
theorem Abreast.of_extends (h : Abreast ws root above listed E s t) {s' t' : Store}
    (hs : s'.Extends s) (ht : t'.Extends t) : Abreast ws root above listed E s' t' where
  twin := h.twin.of_extends hs ht
  first := h.first
  old := h.old
  fewer x hx c hc := by
    rw [references_congr (t := s.bare) (by
      rw [get?_bare, get?_bare, hs.same x (hx.trans h.twin.there)])] at hc
    exact h.fewer x hx c hc
  flags x hx := by
    rw [← h.flags x hx, Store.requirement, Store.requirement, hs.same x (hx.trans h.twin.there)]
  inner := by
    obtain ⟨r, hr, hworded⟩ := h.inner
    exact ⟨r, (hs.same root h.twin.there).trans hr, hworded⟩
  outer := by
    obtain ⟨r, hr, hmodel⟩ := h.outer
    refine ⟨r, ?_, hmodel⟩
    rw [Store.object?, ht.same root (lt_size_of_object? hr), ← Store.object?, hr]
  begun := by
    cases h.begun with
    | notYet inner outer fresh alone apart =>
      exact .notYet ((hs.same root (lt_size_of_get? inner)).trans inner)
        ((ht.same root (lt_size_of_get? outer)).trans outer) fresh alone apart
    | begun spine pair distinct apart =>
      exact .begun (spine.congr fun x hx => ht.same x (spine.lt_size hx)) pair distinct apart

/-- A rule that refers to no other is made in both runs. -/
theorem Abreast.alloc (h : Abreast ws root above listed E s t) {rule : Rule}
    (hobject : ∀ r, rule ≠ .object r) (hrefs : rule.references = []) (required : Value) :
    Abreast ws root above listed (E.add s.size t.size) (s.alloc ⟨rule, required⟩).1
      (t.alloc ⟨rule, required⟩).1 :=
  have hmore := h.of_extends (extends_alloc s ⟨rule, required⟩) (extends_alloc t ⟨rule, required⟩)
  have hmoved : rule.Moved E rule := .other hobject fun c hc => by
    rw [hrefs] at hc
    cases hc
  { twin := h.twin.alloc rfl hmoved rfl
    first := h.first
    old := fun x hx => .inl (h.old x hx)
    fewer := hmore.fewer
    flags := hmore.flags
    inner := hmore.inner
    outer := hmore.outer
    begun := by
      have hroot : root ≠ s.size := Nat.ne_of_lt h.twin.there
      obtain ⟨r, hr, -⟩ := h.outer
      have hroot' : root ≠ t.size := Nat.ne_of_lt (lt_size_of_object? hr)
      have houtside : ∀ {x}, x ≠ t.size → (∀ a, ¬ E a x) → ∀ a, ¬ E.add s.size t.size a x := by
        rintro x hx hapart a (ha | ⟨-, heq⟩)
        · exact hapart a ha
        · exact hx heq
      cases h.begun with
      | notYet inner outer fresh alone apart =>
        refine .notYet ((extends_alloc s _).same root (lt_size_of_get? inner) |>.trans inner)
          ((extends_alloc t _).same root (lt_size_of_get? outer) |>.trans outer) fresh ?_
          (houtside hroot' apart)
        rintro b (hb | ⟨heq, -⟩)
        · exact alone b hb
        · exact hroot heq
      | begun spine pair distinct apart =>
        exact .begun (spine.congr fun x hx => (extends_alloc t _).same x (spine.lt_size hx))
          (.inl pair) distinct fun x hx =>
            houtside (Nat.ne_of_lt (spine.lt_size hx)) (apart x hx) }

/-- A rule can be shown without going round through what is shown of it: it was there and is such a
rule, or nothing else is shown of it. -/
def Showable (ws : Store) (root : NodeId) (s : Store) (m : NodeId) : Prop :=
  m ≠ root ∧ m < s.size ∧ (m < root ∧ ws.bare.Acyclic m ∨ s.bare.references m = [])

/-- What is shown of the rules that were there does not go round while two runs are abreast. -/
theorem Abreast.acyclic (h : Abreast ws root above listed E s t) (hclosed : ws.Closed) {x : NodeId}
    (hx : x < root) (ha : ws.bare.Acyclic x) : s.bare.Acyclic x := by
  obtain ⟨n, hn⟩ := ha
  refine ⟨n, ?_⟩
  induction n generalizing x with
  | zero => exact hn
  | succ n ih =>
    intro c hc
    have hc' := h.fewer x hx c hc
    refine ih ?_ (hn c hc')
    have hlt : x < ws.size := h.first ▸ hx
    obtain ⟨node, hnode⟩ : ∃ node, ws.get? x = some node := ⟨_, List.getElem?_eq_getElem hlt⟩
    rw [references_bare_of_get? hnode] at hc'
    rw [← h.first]
    refine hclosed x hlt c ?_
    rw [references_of_get? hnode]
    exact Rule.references_bare_sub hc'

/-- A value stands for paired rules when it is its turn in both runs. -/
theorem Abreast.compile (h : Abreast ws root above listed E w.store u.store) {v : Value}
    (hsame : Same call v w u) (hv : ∀ m, v = .node m → m < root ∧ ws.bare.Acyclic m)
    (hcompile : Construction.compile call .pattern v w = .ok m w₁) :
    ∃ m' u₁ E₁, Construction.compile call .pattern v u = .ok m' u₁ ∧
      Abreast ws root above listed E₁ w₁.store u₁.store ∧ E₁ m m' ∧
      Showable ws root w₁.store m ∧ w₁.store.requirement m = flagOf ws v := by
  cases hsame with
  | @given given node =>
    subst node
    cases hcompile
    obtain ⟨hlt, hacyclic⟩ := hv _ rfl
    exact ⟨_, u, E, rfl, h, h.old _ hlt,
      ⟨Nat.ne_of_lt hlt, hlt.trans h.twin.there, .inl ⟨hlt, hacyclic⟩⟩, h.flags _ hlt⟩
  | @made rule w₂ t₂ here kept there kept' =>
    cases (Construction.compile_of_ruleOf here).symm.trans hcompile
    have hobject : ∀ r, rule ≠ .object r := by
      rintro r rfl
      exact Construction.ruleOf_ne_object here
    have hrefs := Construction.references_of_ruleOf here
    have hget : (w₂.store.alloc ⟨rule, .bool true⟩).1.get? w₂.store.size
        = some ⟨rule, .bool true⟩ := get?_alloc_self ..
    refine ⟨_, _, _, Construction.compile_of_ruleOf there,
      (h.of_extends kept kept').alloc hobject hrefs (.bool true), .inr ⟨rfl, rfl⟩,
      ⟨?_, ?_, .inr ?_⟩, ?_⟩
    · exact Nat.ne_of_gt (h.twin.there.trans_le kept.size)
    · rw [size_alloc]
      exact Nat.lt_succ_self _
    · rw [references_bare_of_get? hget]
      refine List.eq_nil_iff_forall_not_mem.mpr fun c hc => ?_
      have hmem := Rule.references_bare_sub hc
      rw [hrefs] at hmem
      cases hmem
    · have hflag : flagOf ws v = .bool true := by
        unfold flagOf
        split
        · exact absurd here (Construction.ruleOf_node _)
        · rfl
      show (w₂.store.alloc ⟨rule, .bool true⟩).1.requirement w₂.store.size = flagOf ws v
      rw [hflag, Store.requirement, hget]

/-- Once a call has succeeded in one run, it succeeds in the other, and the runs are abreast again.
-/
theorem Abreast.add (h : Abreast ws root above listed E w.store u.store) (hclosed : ws.Closed)
    (habove : above ≠ []) (hp : path ≠ []) (hsame : Same call value w u)
    (hv : ∀ m, value = .node m → m < root ∧ ws.bare.Acyclic m)
    (hadd : add call root (selectorOf path) value w = .ok () w') :
    ∃ u' E' flag, add call root (selectorOf (above ++ path)) value u = .ok () u' ∧
      Abreast ws root above (listed || flag) E' w'.store u'.store ∧
      (flagOf ws value).truth = .ok flag := by
  obtain ⟨m, w₁, hcompile⟩ := compile_of_add hadd
  obtain ⟨m', u₁, E₁, hcompile', h₁, hpair, ⟨hne, hlt, hshown⟩, hflag⟩ :=
    h.compile hsame hv hcompile
  obtain ⟨r, hr, hworded⟩ := h₁.inner_object?
  obtain ⟨r', hr', hmodel'⟩ := h₁.outer
  obtain ⟨flag, text, htruth, hpass, hlist, htext, rfl⟩ :=
    (add_eq_ok_iff hcompile hr hworded.model hp).mp hadd
  obtain ⟨hpass', hlist', E', hpair', h'⟩ := h₁.grow habove hp hpair hpass hlist
  have hgrows := grows_grow flag (.node m) hpass (fun n hn => (names_of_texts path n hn).1) hr
  -- the rule is shown in both runs as it was in the first
  have hacyclic : (w₁.store.grow flag (.node m) root (path.map .text)).bare.Acyclic m := by
    rcases hshown with ⟨hm, ha⟩ | hnone
    · exact h'.acyclic hclosed hm ha
    · refine .of_children fun c hc => ?_
      have hmem := hgrows.references_bare (fun n hn => (names_of_texts path n hn).2) hlt hc
      rw [hnone] at hmem
      cases hmem
  rw [h'.twin.nodeText hpair' hne hacyclic] at htext
  rw [h₁.twin.pairs.requirement hpair] at htruth
  refine ⟨_, E', flag, (add_eq_ok_iff hcompile' hr' hmodel' (by simp [hp])).mpr
    ⟨flag, text, htruth, hpass', hlist', htext, rfl⟩, h', ?_⟩
  rw [← hflag, h₁.twin.pairs.requirement hpair, htruth]

/-- Once a run of calls has succeeded, the run with a path in front succeeds, and the two are still
abreast; the names of the path are listed if the rule of one of the calls is required. -/
theorem Abreast.putAll (hclosed : ws.Closed) (habove : above ≠ []) {es : List Entry}
    (h : Abreast ws root above listed E w.store u.store)
    (hpaths : ∀ e ∈ es, e.path ≠ [])
    (hvalues : ∀ e ∈ es, ∀ m, e.value = .node m → m < root ∧ ws.bare.Acyclic m)
    (hsteady : Steady call root above es w u)
    (hrun : putAll call root [] es w = .ok () w') :
    ∃ u' E' listed', Builder.putAll call root above es u = .ok () u' ∧
      Abreast ws root above listed' E' w'.store u'.store ∧
      (listed = true ∨ (∃ e ∈ es, (flagOf ws e.value).truth = .ok true) → listed' = true) := by
  induction es generalizing w u E listed with
  | nil =>
    cases hrun
    exact ⟨u, E, listed, rfl, h, fun hor => hor.resolve_right fun ⟨_, he, _⟩ => nomatch he⟩
  | cons e es ih =>
    obtain ⟨⟨⟩, w₁, hadd, hrest⟩ := bind_eq_ok.mp hrun
    obtain ⟨hsame, hnext⟩ := hsteady
    obtain ⟨u₁, E₁, flag, hadd', h₁, hflag⟩ :=
      h.add hclosed habove (hpaths e (by simp)) hsame (hvalues e (by simp)) hadd
    obtain ⟨u', E', listed', hrun', h', hlisted⟩ := ih h₁ (fun e he => hpaths e (by simp [he]))
      (fun e he => hvalues e (by simp [he])) (hnext w₁ u₁ hadd hadd') hrest
    refine ⟨u', E', listed', bind_eq_ok.mpr ⟨(), u₁, hadd', hrun'⟩, h', fun hor => hlisted ?_⟩
    rcases hor with hl | ⟨e', he', ht⟩
    · exact .inl (by rw [hl, Bool.true_or])
    · rcases List.mem_cons.mp he' with rfl | he'
      · cases hflag.symm.trans ht
        exact .inl (Bool.or_true _)
      · exact .inr ⟨e', he', ht⟩

end Abreast

/-! ## Values that stand for the same everywhere -/

theorem same_of_uniform {v : Value} (hv : (Construction.ruleOf call .pattern v).Uniform)
    (h : Construction.compile call .pattern v w = .ok m w₁) : Same call v w u := by
  by_cases hnode : ∃ given, v = .node given
  · obtain ⟨given, rfl⟩ := hnode
    exact .given rfl
  · unfold Construction.compile at h
    split at h
    · exact absurd ⟨_, rfl⟩ hnode
    · obtain ⟨rule, w₂, hrule, -⟩ := bind_eq_ok.mp h
      obtain ⟨next, hhere⟩ := hv _ _ _ hrule w
      obtain ⟨next', hthere⟩ := hv _ _ _ hrule u
      exact .made hhere (.refl _) hthere (.refl _)

/-- Values that stand for the same everywhere do so whenever it is their turn. -/
theorem steady_of_uniform {es : List Entry}
    (hes : ∀ e ∈ es, (Construction.ruleOf call .pattern e.value).Uniform)
    (hrun : putAll call root [] es w = .ok () w') : Steady call root above es w u := by
  induction es generalizing w u with
  | nil => trivial
  | cons e es ih =>
    obtain ⟨⟨⟩, w₁, hadd, hrest⟩ := bind_eq_ok.mp hrun
    obtain ⟨m, w₂, hcompile⟩ := compile_of_add hadd
    refine ⟨same_of_uniform (hes e (by simp)) hcompile, fun w₃ u₃ hadd' _ => ?_⟩
    cases hadd.symm.trans hadd'
    exact ih (fun e he => hes e (by simp [he])) hrest

/-! ## Nesting -/

theorem fresh_builderRule : (Construction.builderRule .schema []).Fresh := ⟨rfl, rfl, rfl, rfl⟩

theorem worded_builderRule : (Construction.builderRule .schema []).Worded where
  accepts := rfl
  model := rfl
  additional := rfl
  names _ hk := nomatch hk
  required _ hk := nomatch hk

theorem construct_schema (call : Caller) (w : Workspace) :
    Construction.construct call .schema [] w = .ok w.store.size
      { w with store := (w.store.alloc
          ⟨.object (Construction.builderRule .schema []), .bool true⟩).1 } := rfl

/-- Two runs that start from a builder just made are abreast. -/
theorem abreast_start {s t : Store} (hclosed : s.Closed)
    (ht : t = (s.alloc ⟨.object (Construction.builderRule .schema []), .bool true⟩).1) :
    Abreast s s.size above false (fun a b => a = b ∧ a < s.size) t t := by
  have hold : ∀ x < s.size, t.get? x = s.get? x := fun x hx => ht ▸ get?_alloc_lt s _ hx
  have hnew : t.get? s.size = some ⟨.object (Construction.builderRule .schema []), .bool true⟩ :=
    ht ▸ get?_alloc_self s _
  exact
    { twin :=
        { pairs := by
            rintro x _ ⟨rfl, hx⟩
            obtain ⟨node, hnode⟩ : ∃ node, s.get? x = some node := ⟨_, List.getElem?_eq_getElem hx⟩
            have hget := (hold x hx).trans hnode
            refine ⟨node, node, hget, hget, rfl, .refl fun c hc => ⟨rfl, hclosed x hx c ?_⟩⟩
            rwa [references_of_get? hnode]
          unique := by
            rintro x _ x' _ ⟨rfl, -⟩ ⟨rfl, -⟩
            exact Iff.rfl
          classes := by
            rintro x _ ⟨rfl, -⟩ -
            rfl
          moved := fun h => Nat.lt_irrefl _ h.2
          there := lt_size_of_get? hnew }
      first := rfl
      old := fun x hx => ⟨rfl, hx⟩
      fewer := fun x hx c hc => by
        rwa [references_congr (t := s.bare) (by rw [get?_bare, get?_bare, hold x hx])] at hc
      flags := fun x hx => by rw [Store.requirement, Store.requirement, hold x hx]
      inner := ⟨_, hnew, worded_builderRule⟩
      outer := ⟨_, object?_eq_some.mpr ⟨_, hnew⟩, rfl⟩
      begun := .notYet hnew hnew fresh_builderRule (fun _ h => Nat.lt_irrefl _ h.2)
        fun _ h => Nat.lt_irrefl _ (h.1 ▸ h.2) }

/-- A builder can be put under a path into a new one, where it ends a spine. -/
theorem put_into_new (call : Caller) (habove : above ≠ [])
    (hinner : w.store.get? root = some ⟨.object r, .bool true⟩) (hworded : r.Worded) :
    ∃ outer w₁ w₂ ids, Construction.construct call .schema [] w = .ok outer w₁ ∧
      add call outer (selectorOf above) (.node root) w₁ = .ok () w₂ ∧
      w₂.store.Spine true root outer ids above ∧ w.store.size ≤ w₂.store.size ∧
      ∀ x < w.store.size, w₂.store.get? x = w.store.get? x := by
  have hroot := lt_size_of_get? hinner
  generalize hs : (w.store.alloc ⟨.object (Construction.builderRule .schema []), .bool true⟩).1 = s
  have hnew : s.get? w.store.size
      = some ⟨.object (Construction.builderRule .schema []), .bool true⟩ :=
    hs ▸ get?_alloc_self w.store _
  have hold : ∀ x < w.store.size, s.get? x = w.store.get? x := fun x hx =>
    hs ▸ get?_alloc_lt w.store _ hx
  have hsize : s.size = w.store.size + 1 := hs ▸ size_alloc w.store _
  have hobj : s.object? w.store.size = some (Construction.builderRule .schema []) :=
    object?_eq_some.mpr ⟨_, hnew⟩
  obtain ⟨s', ids, hgrows, hspine, hle, hsame⟩ :=
    grows_fresh (c := root) true habove hnew fresh_builderRule
  have hmore : w.store.size ≤ s'.size := by omega
  have hkept : ∀ x < w.store.size, s'.get? x = w.store.get? x := by
    intro x hx
    rw [hsame x (hsize ▸ Nat.lt_succ_of_lt hx) (Nat.ne_of_lt hx), hold x hx]
  have hflag : (s.requirement root).truth = .ok true := by
    rw [Store.requirement, hold _ hroot, hinner]
    rfl
  have hpass : s.Passes w.store.size (above.map .text) := by
    obtain ⟨name, rest, rfl⟩ := List.exists_cons_of_ne_nil habove
    exact passes_fresh hobj fresh_builderRule rfl
  obtain ⟨text, htext⟩ : ∃ text, s'.nodeText root = .ok text :=
    nodeText_of_worded (object?_eq_some.mpr ⟨_, (hkept _ hroot).trans hinner⟩) hworded
  obtain rfl := hgrows.eq_grow
  have hlist : true = true → s.listable w.store.size (above.map .text) = true := fun _ =>
    listable_fresh hobj fresh_builderRule _
  refine ⟨w.store.size, { w with store := s }, _, ids, ?_, (add_eq_ok_iff rfl hobj rfl habove).mpr
    ⟨true, text, hflag, hpass, hlist, htext, rfl⟩, hspine, hmore, hkept⟩
  rw [construct_schema, hs]

/-- A builder that was filled by calls can be put under a path into a new one, and the new one then
has the document that it gets when the calls are made on it with this path in front of theirs, which
they can be: if the rule of one of them at least is required, and the values stand for the same in
both runs. -/
theorem document_nested {es : List Entry} {w₀ : Workspace} (hclosed : w.store.Closed)
    (hmade : Construction.construct call .schema [] w = .ok root w₀) (habove : above ≠ [])
    (hpaths : ∀ e ∈ es, e.path ≠ [])
    (hvalues : ∀ e ∈ es, ∀ m, e.value = .node m → m < w.store.size ∧ w.store.bare.Acyclic m)
    (hsteady : Steady call root above es w₀ w₀)
    (hrequired : ∃ e ∈ es, (flagOf w.store e.value).truth = .ok true)
    (hrun : putAll call root [] es w₀ = .ok () w₁) :
    ∃ u, putAll call root above es w₀ = .ok () u ∧ ∃ outer w₂ w₃,
      Construction.construct call .schema [] w₁ = .ok outer w₂ ∧
      add call outer (selectorOf above) (.node root) w₂ = .ok () w₃ ∧
      ∀ d, w₃.store.document outer = .ok d ↔ u.store.document root = .ok d := by
  cases (construct_schema call w).symm.trans hmade
  obtain ⟨u, E, listed, hrun', h, hlisted⟩ :=
    (abreast_start hclosed rfl).putAll hclosed habove hpaths hvalues hsteady hrun
  cases hlisted (.inr hrequired)
  obtain ⟨r, hinner, hworded⟩ := h.inner
  obtain ⟨outer, w₂, w₃, ids, hnew, hadd, hspine, hle, hkept⟩ :=
    put_into_new call habove hinner hworded
  refine ⟨u, hrun', outer, w₂, w₃, hnew, hadd, fun d => ?_⟩
  have htwin : Twin E w.store.size w₃.store u.store := h.twin.congr
    (fun x y hxy => hkept x (h.twin.lt_size hxy).1) (fun _ _ _ => rfl) hle
  -- both documents are nested around documents of twins
  cases h.begun with
  | begun spine pair =>
    rw [hspine.document, spine.document]
    exact exists_congr fun dm =>
      and_congr_left' ⟨htwin.pairs.document pair, htwin.pairs.symm.document pair⟩

theorem exists_of_toBool {α : Type} {x : Except Fault α} (h : x.toBool = true) :
    ∃ a, x = .ok a := by
  cases x with
  | ok d => exact ⟨d, rfl⟩
  | error f => cases h

/-- `x >= 10`. -/
def atLeastTen : Value := .function 0 (.compare .ge .arg (.const (.int 10)))

/-- A predicate, and a literal under a path of two names. There is a document. -/
theorem document_nested_twice :
    ∃ w₀ w₁ u, Construction.construct Build.call .schema [] {} = .ok 0 w₀ ∧
      putAll Build.call 0 [] [⟨["x"], atLeastTen⟩, ⟨["y", "z"], .bool true⟩] w₀ = .ok () w₁ ∧
      putAll Build.call 0 ["a", "b"] [⟨["x"], atLeastTen⟩, ⟨["y", "z"], .bool true⟩] w₀ = .ok () u ∧
      ∃ outer w₂ w₃, Construction.construct Build.call .schema [] w₁ = .ok outer w₂ ∧
        add Build.call outer (selectorOf ["a", "b"]) (.node 0) w₂ = .ok () w₃ ∧
        ∃ d, w₃.store.document outer = .ok d ∧ u.store.document 0 = .ok d := by
  have hmade : Construction.construct Build.call .schema [] {} = .ok 0 { alone with vars := [] } :=
    rfl
  obtain ⟨w₁, hrun⟩ : ∃ w₁, putAll Build.call 0 [] [⟨["x"], atLeastTen⟩, ⟨["y", "z"], .bool true⟩]
      { alone with vars := [] } = .ok () w₁ := ⟨_, ok_of_result (by decide +kernel)⟩
  have hsteady : Steady Build.call 0 ["a", "b"] [⟨["x"], atLeastTen⟩, ⟨["y", "z"], .bool true⟩]
      { alone with vars := [] } { alone with vars := [] } := by
    refine steady_of_uniform (fun e he => ?_) hrun
    simp only [List.mem_cons, List.not_mem_nil, or_false] at he
    rcases he with rfl | rfl
    · exact Construction.uniform_ruleOf_of_spelling rfl rfl List.mem_cons_self 0
    · exact Construction.uniform_ruleOf_of_not_callable rfl
  obtain ⟨u, hrun', outer, w₂, w₃, hnew, hadd, hsame⟩ := document_nested (w := {})
    (fun _ h => absurd h (Nat.not_lt_zero _)) hmade (by simp) (by simp) (by simp [atLeastTen])
    hsteady ⟨⟨["x"], atLeastTen⟩, by simp, rfl⟩ hrun
  obtain ⟨d, hd⟩ : ∃ d, u.store.document 0 = .ok d := by
    have hafter := hrun'.symm.trans (ok_of_result (a := ()) (by decide +kernel))
    obtain ⟨-, hu⟩ := EStateM.Result.ok.inj hafter
    rw [hu]
    exact exists_of_toBool (by decide +kernel)
  exact ⟨_, w₁, u, hmade, hrun, hrun', outer, w₂, w₃, hnew, hadd, d, (hsame d).mpr hd, hd⟩

/-- `x >= 1 if "x" in b.properties else x >= 0`, of the builder `b` in a variable. -/
def watching : Value :=
  .function 0 (.cond (.member (.const (.text "x")) (.attr (.const (.ref "b")) "properties"))
    (.compare .ge .arg (.const (.int 1))) (.compare .ge .arg (.const (.int 0))))

/-- A predicate may look at the builder that it is put into, where it finds the names that were put
before, but only the one in front of the paths if there is one. -/
theorem document_nested_fails :
    ∃ w₁ u outer w₂ w₃,
      putAll Build.call 0 [] [⟨["x"], .bool true⟩, ⟨["y"], watching⟩] alone = .ok () w₁ ∧
      putAll Build.call 0 ["p"] [⟨["x"], .bool true⟩, ⟨["y"], watching⟩] alone = .ok () u ∧
      Construction.construct Build.call .schema [] w₁ = .ok outer w₂ ∧
      add Build.call outer (selectorOf ["p"]) (.node 0) w₂ = .ok () w₃ ∧
      ∃ d d', w₃.store.document outer = .ok d ∧ u.store.document 0 = .ok d' ∧ d ≠ d' :=
  ⟨_, _, _, _, _, ok_of_result (by decide +kernel), ok_of_result (by decide +kernel),
    construct_schema _ _, ok_of_result (by decide +kernel), documents_differ (by decide +kernel)⟩

end Builder

end DraftSchema
