import DraftSchema.Proofs.Tree
import DraftSchema.Proofs.Twin

/-!
# Objects that hold one rule

A spine is a row of objects each of which holds the next one under a name and nothing else, and the
last of which holds some rule. The way down along a path makes a spine where there was nothing, and
leaves a spine along that path as it is, save that it may list the names. The document at its top is
that of the rule at its end with an object around it for each name.
-/

namespace DraftSchema

/-- A list in which no operand stands can be searched for any name. -/
theorem ObjectRule.searchable_of_plain {r : ObjectRule} (h : ∀ v ∈ r.required, v.isOperand = false)
    (name : Value) : r.searchable name = true := by
  rw [searchable, Bool.not_eq_true', List.any_eq_false]
  intro v hv hop
  rw [h v ((List.takeWhile_sublist _).subset hv)] at hop
  cases hop

/-- An object that says nothing, and that paths may lead through. -/
structure ObjectRule.Fresh (r : ObjectRule) : Prop where
  accepts : r.kind.acceptsProperties = true
  properties : r.properties = []
  required : r.required = []
  additional : r.additional = none

/-- An object that holds one rule under one name and says nothing else, and that paths may lead
through. -/
structure ObjectRule.Sole (r : ObjectRule) (listed : Bool) (name : String) (c : NodeId) : Prop where
  accepts : r.kind.acceptsProperties = true
  properties : r.properties = [(.text name, .node c)]
  required : r.required = if listed then [.text name] else []
  additional : r.additional = none

namespace ObjectRule

variable {r : ObjectRule} {listed flag : Bool} {name : String} {c : NodeId}

theorem fresh_empty : ObjectRule.empty.Fresh := ⟨rfl, rfl, rfl, rfl⟩

theorem Fresh.sole (h : r.Fresh) (flag : Bool) (name : String) (c : NodeId) :
    ((r.setProperty (.text name) (.node c)).mark flag (.text name)).Sole flag name c where
  accepts := by rw [mark_kind, setProperty_kind, h.accepts]
  properties := by rw [mark_properties, setProperty_properties, h.properties]; rfl
  required := by
    rw [mark_required, setProperty_required, requires, setProperty_required, h.required]
    cases flag <;> rfl
  additional := by rw [mark_additional, setProperty_additional, h.additional]

theorem Fresh.moved {E : Pairing} {r r' : ObjectRule} (h : r.Fresh) (h' : r'.Fresh) :
    r.Moved E r' where
  properties := by
    rw [h.properties, h'.properties]
    exact .nil
  required := h.required.trans h'.required.symm
  additional := h.additional.trans h'.additional.symm
  kind := .inr ⟨h.additional, h.accepts, h'.accepts⟩
  inside c hc := by
    rw [mem_references_bare, h.properties, h.required, h.additional] at hc
    rcases hc with hc | hc | hc <;> cases hc

theorem Sole.mark (h : r.Sole listed name c) (flag : Bool) :
    (r.mark flag (.text name)).Sole (listed || flag) name c where
  accepts := by rw [mark_kind, h.accepts]
  properties := by rw [mark_properties, h.properties]
  required := by
    rw [mark_required, requires, h.required]
    cases listed <;> cases flag <;> simp [Entries.has]
  additional := by rw [mark_additional, h.additional]

theorem Sole.searchable (h : r.Sole listed name c) (other : Value) : r.searchable other = true := by
  refine searchable_of_plain (fun v hv => ?_) other
  rw [h.required] at hv
  cases listed with
  | false => cases hv
  | true => rw [List.mem_singleton.mp hv]; rfl

end ObjectRule

namespace Store

variable {s s' t : Store} {listed flag : Bool} {id m c : NodeId} {ids : List NodeId}
  {path : List String} {q : List Value} {name : String} {r : ObjectRule} {v : Value}

/-- The objects that hold one another under the names of a path, each nothing else, down to a rule.
-/
inductive Spine (s : Store) (listed : Bool) (m : NodeId) : NodeId → List NodeId → List String → Prop
  | done : Spine s listed m m [] []
  | link {id c : NodeId} {ids : List NodeId} {name : String} {path : List String} {r : ObjectRule}
      (object : s.object? id = some r) (sole : r.Sole listed name c)
      (next : Spine s listed m c ids path) : Spine s listed m id (id :: ids) (name :: path)

theorem child?_of_sole (hr : s.object? id = some r) (h : r.Sole listed name c) :
    s.child? id (.text name) = some (.node c) :=
  child?_of_get? hr (by rw [h.properties, Entries.get?_cons, if_pos (BEq.refl _)])

namespace Spine

theorem congr (h : s.Spine listed m id ids path) (hsame : ∀ x ∈ ids, t.get? x = s.get? x) :
    t.Spine listed m id ids path := by
  induction h with
  | done => exact .done
  | @link id c ids name path r object sole _ ih =>
    refine .link ?_ sole (ih fun x hx => hsame x (by simp [hx]))
    rw [Store.object?, hsame id (by simp), ← Store.object?, object]

/-- At the top of a spine there is an object, if there is one at its end. -/
theorem lt_size (h : s.Spine listed m id ids path) {x : NodeId} (hx : x ∈ ids) : x < s.size := by
  induction h with
  | done => cases hx
  | link object _ _ ih =>
    rcases List.mem_cons.mp hx with rfl | hx
    · exact lt_size_of_object? object
    · exact ih hx

theorem object? (h : s.Spine listed m id ids path) {rm : ObjectRule} (hm : s.object? m = some rm)
    (haccepts : rm.kind.acceptsProperties = true) :
    ∃ r, s.object? id = some r ∧ r.kind.acceptsProperties = true := by
  cases h with
  | done => exact ⟨rm, hm, haccepts⟩
  | link object sole => exact ⟨_, object, sole.accepts⟩

/-- Along a spine a path leads on to where it leads from its end. -/
theorem passes (h : s.Spine listed m id ids path) {rm : ObjectRule} (hm : s.object? m = some rm)
    (haccepts : rm.kind.acceptsProperties = true) (hq : q ≠ []) (hp : s.Passes m q) :
    s.Passes id (path.map .text ++ q) := by
  induction h with
  | done => exact hp
  | link object sole next ih =>
    obtain ⟨rc, hrc, hacc⟩ := next.object? hm haccepts
    exact .through (by simp [hq]) rfl (child?_of_sole object sole) hrc hacc ih

theorem listable (h : s.Spine listed m id ids path) (hq : q ≠ []) (hl : s.listable m q = true) :
    s.listable id (path.map .text ++ q) = true := by
  induction h with
  | done => exact hl
  | @link id c ids name path r object sole _ ih =>
    rw [List.map_cons, List.cons_append, Store.listable.eq_3 _ id _ _ (by simp [hq]), object,
      child?_of_sole object sole, Option.all_some, sole.searchable, Bool.true_and]
    exact ih

/-- A spine with one more object at its end. -/
theorem snoc (h : s.Spine listed m id ids path) (hm : s.object? m = some r)
    (hr : r.Sole listed name c) : s.Spine listed c id (ids ++ [m]) (path ++ [name]) := by
  induction h with
  | done => exact .link hm hr .done
  | link object sole _ ih => exact .link object sole ih

end Spine

/-- Nothing is in the way below a fresh object. -/
theorem passes_fresh (hr : s.object? id = some r) (h : r.Fresh) {name : Value} {rest : List Value}
    (hname : name.isHashable = true) : s.Passes id (name :: rest) := by
  by_cases hrest : rest = []
  · subst hrest
    exact .last id name
  · refine .missing hrest hname ?_
    rw [child?_of_object? hr, h.properties]
    rfl

theorem listable_fresh (hr : s.object? id = some r) (h : r.Fresh) (path : List Value) :
    s.listable id path = true := by
  have hsearch : ∀ name, r.searchable name = true :=
    ObjectRule.searchable_of_plain (by simp [h.required])
  have hmissing : ∀ name, s.child? id name = none := by
    intro name
    rw [child?_of_object? hr, h.properties]
    rfl
  cases path with
  | nil => rfl
  | cons name rest => cases rest <;> simp [Store.listable, hr, hsearch, hmissing]

/-! ## The way down -/

/-- A path leads down to an object, entering one under every name and listing the names. -/
inductive Descends (flag : Bool) : Store → NodeId → List Value → Store → NodeId → Prop
  | done (s : Store) (id : NodeId) : Descends flag s id [] s id
  | more {s s₁ s' : Store} {id c m : NodeId} {r : ObjectRule} {name : Value} {rest : List Value}
      (object : s.object? id = some r) (entered : s.Entered id name s₁ c)
      (next : Descends flag (s₁.mark flag id name) c rest s' m) :
      Descends flag s id (name :: rest) s' m

/-- Growth from the object that a path leads down to is growth along both paths. -/
theorem Descends.grows {p : List Value} (h : Descends flag s id p t m) (hq : q ≠ [])
    (hg : Grows flag v t m q s') : Grows flag v s id (p ++ q) s' := by
  induction h with
  | done => exact hg
  | more object entered _ ih => exact .more object entered (by simp [hq]) (ih hg)

/-- The way down along a spine leads to its end and lists the names. -/
theorem Spine.descends (h : s.Spine listed m id ids path) (flag : Bool) {rm : ObjectRule}
    (hm : s.object? m = some rm) (haccepts : rm.kind.acceptsProperties = true)
    (hnodup : ids.Nodup) (hend : m ∉ ids) :
    ∃ s', Descends flag s id (path.map .text) s' m ∧ s'.Spine (listed || flag) m id ids path ∧
      s'.size = s.size ∧ ∀ x ∉ ids, s'.get? x = s.get? x := by
  induction path generalizing s id ids with
  | nil =>
    cases h
    exact ⟨s, .done s _, .done, rfl, fun _ _ => rfl⟩
  | cons name path ih =>
    cases h with
    | @link _ c ids _ _ r object sole next =>
      obtain ⟨hid, hnodup⟩ := List.nodup_cons.mp hnodup
      obtain ⟨hm', hend⟩ := not_or.mp (List.mem_cons.not.mp hend)
      -- the objects below are not the one on which the name is listed
      have hsame : ∀ x ≠ id, (s.mark flag id (.text name)).get? x = s.get? x := fun x hx =>
        get?_mark_ne s flag (.text name) hx
      have hnext := next.congr (t := s.mark flag id (.text name)) fun x hx =>
        hsame x fun heq => hid (heq ▸ hx)
      have hm₁ : (s.mark flag id (.text name)).object? m = some rm := by
        rw [Store.object?, hsame m hm', ← Store.object?, hm]
      obtain ⟨s', hdescends, hspine, hsize, hrest⟩ := ih hnext hm₁ hnodup hend
      obtain ⟨rc, hrc, hacc⟩ := next.object? hm haccepts
      refine ⟨s', .more object (.there (child?_of_sole object sole) hrc hacc) hdescends,
        .link ?_ (sole.mark flag) hspine, hsize.trans (size_mark ..), fun x hx => ?_⟩
      · rw [Store.object?, hrest id hid, ← Store.object?, object?_mark_of_some flag id _ object,
          if_pos rfl]
      · rw [List.mem_cons, not_or] at hx
        rw [hrest x hx.2, hsame x hx.1]

/-- What the way down along a path from a fresh object makes: a spine of new objects, and a fresh
object at its end. -/
theorem descends_fresh (path : List String) (flag : Bool)
    (hid : s.get? id = some ⟨.object r, .bool true⟩) (hr : r.Fresh) :
    ∃ s' m ids r', Descends flag s id (path.map .text) s' m ∧ s'.Spine flag m id ids path ∧
      s'.get? m = some ⟨.object r', .bool true⟩ ∧ r'.Fresh ∧ ids.Nodup ∧ m ∉ ids ∧
      (∀ x ∈ ids, x = id ∨ s.size ≤ x) ∧ (m = id ∧ path = [] ∨ s.size ≤ m) ∧
      s.size ≤ s'.size ∧ ∀ x < s.size, x ≠ id → s'.get? x = s.get? x := by
  induction path generalizing s id r with
  | nil => exact ⟨s, id, [], r, .done s id, .done, hid, hr, .nil, List.not_mem_nil,
      fun _ hx => absurd hx List.not_mem_nil, .inl ⟨rfl, rfl⟩, Nat.le_refl _, fun _ _ _ => rfl⟩
  | cons name path ih =>
    -- the object that is made under the first name is fresh, and the way goes on from there
    have hobj : s.object? id = some r := object?_eq_some.mpr ⟨_, hid⟩
    have hlt := lt_size_of_object? hobj
    have hmissing : s.child? id (.text name) = none := by
      rw [child?_of_object? hobj, hr.properties]
      rfl
    have hnew : ((s.fill id (.text name)).mark flag id (.text name)).get? s.size
        = some ⟨.object .empty, .bool true⟩ := by
      rw [get?_mark_ne _ _ _ (Nat.ne_of_gt hlt), fill,
        get?_modifyObject_ne _ _ (Nat.ne_of_lt hlt)]
      exact get?_alloc_self s _
    have htop : ((s.fill id (.text name)).mark flag id (.text name)).object? id
        = some ((r.setProperty (.text name) (.node s.size)).mark flag (.text name)) := by
      rw [object?_mark, if_pos rfl, object?_fill _ hobj, if_pos rfl, Option.map_some]
    have hsize : ((s.fill id (.text name)).mark flag id (.text name)).size = s.size + 1 := by
      rw [size_mark, size_fill]
    obtain ⟨s', m, ids, r', hdescends, hspine, hm, hr', hnodup, hend, hids, hm', hle, hsame⟩ :=
      ih hnew ObjectRule.fresh_empty
    rw [hsize] at hids hm' hle hsame
    have hids' : ∀ x ∈ ids, s.size ≤ x := by
      intro x hx
      rcases hids x hx with rfl | hx <;> omega
    have hmge : s.size ≤ m := by
      rcases hm' with ⟨rfl, -⟩ | hm' <;> omega
    refine ⟨s', m, id :: ids, r', .more hobj (.made hmissing) hdescends,
      .link ?_ (hr.sole flag name s.size) hspine, hm, hr', ?_, ?_, ?_, .inr hmge, by omega, ?_⟩
    · rw [Store.object?, hsame id (Nat.lt_succ_of_lt hlt) (Nat.ne_of_lt hlt), ← Store.object?, htop]
    · exact List.nodup_cons.mpr ⟨fun hmem => Nat.lt_irrefl _ (hlt.trans_le (hids' id hmem)), hnodup⟩
    · rw [List.mem_cons, not_or]
      exact ⟨fun heq => Nat.lt_irrefl _ (hlt.trans_le (heq ▸ hmge)), hend⟩
    · intro x hx
      exact (List.mem_cons.mp hx).imp_right (hids' x)
    · intro x hx hne
      rw [hsame x (by omega) (Nat.ne_of_lt hx), get?_mark_ne _ _ _ hne, get?_fill_lt s _ hx hne]

/-- Growth from a fresh object makes a spine that ends at the rule that is put. -/
theorem grows_fresh (flag : Bool) (hp : path ≠ [])
    (hid : s.get? id = some ⟨.object r, .bool true⟩) (hr : r.Fresh) :
    ∃ s' ids, Grows flag (.node c) s id (path.map .text) s' ∧ s'.Spine flag c id ids path ∧
      s.size ≤ s'.size ∧ ∀ x < s.size, x ≠ id → s'.get? x = s.get? x := by
  obtain ⟨init, name, rfl⟩ : ∃ init name, path = init ++ [name] :=
    ⟨_, _, (List.dropLast_append_getLast hp).symm⟩
  obtain ⟨s₁, m, ids, r', hdescends, hspine, hm, hr', -, hend, -, hm', hle, hsame⟩ :=
    descends_fresh init flag hid hr
  have hobj : s₁.object? m = some r' := object?_eq_some.mpr ⟨_, hm⟩
  have hput := object?_modifyObject_of_some
    (fun r => (r.setProperty (.text name) (.node c)).mark flag (.text name)) hobj
  have hkept := hspine.congr (t := s₁.modifyObject m fun r =>
      (r.setProperty (.text name) (.node c)).mark flag (.text name)) fun x hx =>
    get?_modifyObject_ne s₁ _ fun heq => hend (heq ▸ hx)
  refine ⟨_, ids ++ [m], ?_, hkept.snoc hput (hr'.sole flag name c), ?_, fun x hx hne => ?_⟩
  · rw [List.map_append]
    exact hdescends.grows (by simp) (.last hobj)
  · rw [size_modifyObject]
    exact hle
  · rw [get?_modifyObject_ne _ _ ?_, hsame x hx hne]
    rcases hm' with ⟨rfl, -⟩ | hm'
    · exact Ne.symm hne
    · exact Nat.ne_of_gt (hx.trans_le hm')

/-! ## Documents -/

/-- A document with an object around it for every name of a path. -/
def nest (listed : Bool) : List String → Value → Value
  | [], d => d
  | name :: path, d =>
    objectForm [(.text name, nest listed path d)] (if listed then [.text name] else []) none

theorem objectDocument_sole (h : r.Sole listed name c) (f : NodeId → Except Fault Value)
    {d : Value} :
    s.objectDocument f r = .ok d ↔ ∃ dc, f c = .ok dc ∧
      d = objectForm [(.text name, dc)] (if listed then [.text name] else []) none := by
  have hform : s.objectDocument f r = (f c).map fun dc =>
      objectForm [(.text name, dc)] (if listed then [.text name] else []) none := by
    unfold objectDocument
    rw [h.properties, h.additional, propertyDocuments, propertyDocuments, memberDocument,
      ObjectRule.requiredPart, h.required]
    cases f c <;> rfl
  rw [hform]
  constructor
  · intro hd
    obtain ⟨dc, hdc, rfl⟩ := except_map_eq_ok.mp hd
    exact ⟨dc, hdc, rfl⟩
  · rintro ⟨dc, hdc, rfl⟩
    exact except_map_eq_ok.mpr ⟨dc, hdc, rfl⟩

theorem document_sole (hr : s.object? id = some r) (h : r.Sole listed name c) {d : Value} :
    s.document id = .ok d ↔ ∃ dc, s.document c = .ok dc ∧
      d = objectForm [(.text name, dc)] (if listed then [.text name] else []) none := by
  obtain ⟨required, hget⟩ := object?_eq_some.mp hr
  have hstep : ∀ n, s.documentWithin (n + 1) id = s.objectDocument (s.documentWithin n) r := by
    intro n
    rw [documentWithin, hget]
    exact documentOf_object h.accepts h.additional
  constructor
  · intro hd
    rw [document, hstep] at hd
    obtain ⟨dc, hdc, hform⟩ := (objectDocument_sole h _).mp hd
    exact ⟨dc, document_of_documentWithin hdc, hform⟩
  · rintro ⟨dc, hdc, hform⟩
    refine document_of_documentWithin (m := s.size + 2) ?_
    rw [hstep]
    exact (objectDocument_sole h _).mpr ⟨dc, hdc, hform⟩

/-- The document at the top of a spine is that of the rule at its end, nested. -/
theorem Spine.document (h : s.Spine listed m id ids path) {d : Value} :
    s.document id = .ok d ↔ ∃ dm, s.document m = .ok dm ∧ d = nest listed path dm := by
  induction h generalizing d with
  | done => exact ⟨fun hd => ⟨d, hd, rfl⟩, fun ⟨_, hdm, heq⟩ => heq ▸ hdm⟩
  | link object sole _ ih =>
    rw [document_sole object sole]
    constructor
    · rintro ⟨dc, hdc, rfl⟩
      obtain ⟨dm, hdm, rfl⟩ := ih.mp hdc
      exact ⟨dm, hdm, rfl⟩
    · rintro ⟨dm, hdm, rfl⟩
      exact ⟨_, ih.mpr ⟨dm, hdm, rfl⟩, rfl⟩

end Store

end DraftSchema
