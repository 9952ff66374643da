import DraftSchema.Proofs.Tree
import DraftSchema.Proofs.UnsharedPath
import Mathlib.Data.List.Perm.Basic

/-!
# Documents up to order

Two documents are alike when they differ at most in the order of properties and of required names.
Trees that have grown along two paths that part have alike documents, whichever path came first, and
growth along one of them has no say in whether the other can be gone along.
-/

namespace DraftSchema

mutual

/-- Two documents differ at most in the order of properties and of required names. -/
inductive Alike : Value → Value → Prop
  | refl (d : Value) : Alike d d
  | record {ms ms' : Entries Value Value} (members : AlikeMembers ms ms') :
      Alike (.mapping ms) (.mapping ms')

/-- The keywords of two documents are the same, and their values are alike one by one. -/
inductive AlikeMembers : Entries Value Value → Entries Value Value → Prop
  | nil : AlikeMembers [] []
  | member {d d' : Value} {ms ms' : Entries Value Value} (keyword : Value) (document : Alike d d')
      (rest : AlikeMembers ms ms') : AlikeMembers ((keyword, d) :: ms) ((keyword, d') :: ms')
  | properties {ps qs ps' ms ms' : Entries Value Value} (documents : AlikeProperties ps qs)
      (reordered : qs.Perm ps') (rest : AlikeMembers ms ms') :
      AlikeMembers ((.text Keyword.properties.text, .mapping ps) :: ms)
        ((.text Keyword.properties.text, .mapping ps') :: ms')
  | required {names names' : List Value} {ms ms' : Entries Value Value}
      (reordered : names.Perm names') (rest : AlikeMembers ms ms') :
      AlikeMembers ((.text Keyword.required.text, .listing names) :: ms)
        ((.text Keyword.required.text, .listing names') :: ms')

/-- The names of two lists of properties are the same, and their documents are alike. -/
inductive AlikeProperties : Entries Value Value → Entries Value Value → Prop
  | nil : AlikeProperties [] []
  | cons {d d' : Value} {ps ps' : Entries Value Value} (name : Value) (document : Alike d d')
      (rest : AlikeProperties ps ps') : AlikeProperties ((name, d) :: ps) ((name, d') :: ps')

end

theorem AlikeMembers.refl (ms : Entries Value Value) : AlikeMembers ms ms := by
  induction ms with
  | nil => exact .nil
  | cons e ms ih => exact .member e.1 (.refl e.2) ih

theorem AlikeProperties.refl (ps : Entries Value Value) : AlikeProperties ps ps := by
  induction ps with
  | nil => exact .nil
  | cons e ps ih => exact .cons e.1 (.refl e.2) ih

/-- Objects with alike properties and the same required names, up to order, are alike. -/
theorem alike_objectForm {ps qs ps' : Entries Value Value} {names names' : List Value}
    (hps : AlikeProperties ps qs) (hqs : qs.Perm ps') (hnames : names.Perm names')
    (additional : Option Value) :
    Alike (objectForm ps names additional) (objectForm ps' names' additional) := by
  have hmore : AlikeMembers
      ((Keyword.additionalProperties.member additional).map fun e => (.text e.1, e.2))
      ((Keyword.additionalProperties.member additional).map fun e => (.text e.1, e.2)) := .refl _
  have hempty : names'.isEmpty = names.isEmpty := by
    rw [Bool.eq_iff_iff, List.isEmpty_iff, List.isEmpty_iff]
    exact ⟨fun h => (h ▸ hnames).eq_nil, fun h => (h ▸ hnames.symm).eq_nil⟩
  refine .record (.member _ (.refl _) (.properties hps hqs ?_))
  rw [hempty]
  cases names.isEmpty with
  | true => exact hmore
  | false => exact .required hnames hmore

/-! ## Entries and names in two orders -/

namespace Entries

variable {κ α : Type} [BEq κ]

/-- Setting a key twice is setting it to the last value. -/
theorem set_set [ReflBEq κ] (es : Entries κ α) (key : κ) (v w : α) :
    (es.set key v).set key w = es.set key w := by
  induction es with
  | nil => simp [set]
  | cons e es ih =>
    obtain ⟨k, u⟩ := e
    by_cases hk : (k == key) = true
    · simp [set, hk]
    · simp [set, hk, ih]

/-- Different keys may be set in either order, up to the order of the entries. -/
theorem set_perm [PartialEquivBEq κ] (es : Entries κ α) {a b : κ} (hab : (a == b) = false)
    (v w : α) : ((es.set a v).set b w).Perm ((es.set b w).set a v) := by
  have hba : (b == a) = false := by rw [BEq.comm, hab]
  induction es with
  | nil =>
    simp only [set, hab, hba, Bool.false_eq_true, if_false]
    exact .swap ..
  | cons e es ih =>
    obtain ⟨k, u⟩ := e
    by_cases ha : (k == a) = true
    · have hb : (k == b) = false := by
        cases hb : k == b with
        | false => rfl
        | true => rw [BEq.trans (BEq.symm ha) hb] at hab; cases hab
      simp [set, ha, hb]
    · by_cases hb : (k == b) = true
      · simp [set, ha, hb]
      · simp only [set, ha, hb, Bool.false_eq_true, if_false]
        exact ih.cons _

end Entries

namespace Tree

variable {f g : Bool} {M N t : Tree} {p q : List Value}

/-- Names may be listed in either order, up to the order of the list. -/
theorem listed_perm {a b : Value} (hsame : (a == b) = true → a = b) (names : List Value) :
    (listed g b (listed f a names)).Perm (listed f a (listed g b names)) := by
  by_cases hab : a = b
  · subst hab
    cases f <;> cases g <;> by_cases h : Entries.has names a = true <;>
      simp_all [listed, Entries.has]
  · have hab' : (a == b) = false := by
      cases h : a == b with
      | false => rfl
      | true => exact absurd (hsame h) hab
    have hba' : (b == a) = false := by rw [BEq.comm, hab']
    have ha : Entries.has (names ++ [b]) a = Entries.has names a := by
      simp [Entries.has, hba']
    have hb : Entries.has (names ++ [a]) b = Entries.has names b := by
      simp [Entries.has, hab']
    cases f <;> cases g <;> cases h : Entries.has names a <;> cases h' : Entries.has names b <;>
      simp [listed, ha, hb, h, h']
    exact (List.Perm.swap b a []).append_left names

/-! ## Growth and what is entered -/

theorem entered_ne_absent (o : Option Tree) : entered o ≠ absent := by
  unfold entered
  split
  · exact nofun
  · exact nofun
  · rename_i h
    exact fun habsent => h (by rw [habsent])

/-- What has grown is entered as it is. -/
theorem entered_grow (o : Option Tree) (hp : p ≠ []) :
    entered (some ((entered o).grow f M p)) = (entered o).grow f M p := by
  obtain ⟨name, rest, rfl⟩ := List.exists_cons_of_ne_nil hp
  cases h : entered o with
  | absent => exact absurd h (entered_ne_absent o)
  | leaf => rfl
  | object => rfl

theorem accepts_grow (hp : p ≠ []) : (t.grow f M p).accepts = t.accepts := by
  obtain ⟨name, rest, rfl⟩ := List.exists_cons_of_ne_nil hp
  cases t <;> rfl

/-- Growth has no say in whether a path can be gone along that parts from its own. -/
theorem passes_grow (h : Store.Part p q) : (t.grow f M p).passes q = t.passes q := by
  induction h generalizing t with
  | here hab =>
    cases t with
    | object => rw [grow, passes, passes, Entries.get?_set_ne _ _ hab]
    | _ => rfl
  | @later a b p q hab hrest ih =>
    have hp := hrest.ne_nil.1
    cases t with
    | object kind properties required further =>
      rw [grow, passes, passes, ← Entries.get?_congr hab, ← Entries.get?_congr hab,
        Entries.get?_set_self, entered_grow _ hp, accepts_grow hp, ih]
    | _ => rfl

theorem searchable_listed {names : List Value} {a b : Value} (ha : a.isOperand = false) :
    ObjectRule.searchable { ObjectRule.empty with required := listed f a names } b
      = ObjectRule.searchable { ObjectRule.empty with required := names } b := by
  have hmark := Store.searchable_mark { ObjectRule.empty with required := names } f b ha
  rwa [ObjectRule.searchable, ObjectRule.mark_required] at hmark

/-- Growth has no say in whether names can be listed along a path that parts from its own. -/
theorem listable_grow (h : Store.Part p q) (hp : ∀ name ∈ p, name.isOperand = false) :
    (t.grow f M p).listable q = t.listable q := by
  induction h generalizing t with
  | here hab =>
    cases t with
    | object =>
      rw [grow, listable, listable, Entries.get?_set_ne _ _ hab, searchable_listed (hp _ (by simp))]
    | _ => rfl
  | @later a b p q hab hrest ih =>
    have hmore := hrest.ne_nil.1
    cases t with
    | object kind properties required further =>
      rw [grow, listable, listable, ← Entries.get?_congr hab, ← Entries.get?_congr hab,
        Entries.get?_set_self, entered_grow _ hmore, searchable_listed (hp _ (by simp)),
        ih fun n hn => hp n (by simp [hn])]
    | _ => rfl

/-! ## Documents -/

theorem documents_eq_ok {ps : List (Value × Tree)} {ds : Entries Value Value} :
    documents ps = .ok ds ↔
      List.Forall₂ (fun e d => d.1 = e.1 ∧ e.2.document = .ok d.2) ps ds := by
  induction ps generalizing ds with
  | nil =>
    rw [List.forall₂_nil_left_iff]
    exact ⟨fun h => (Except.ok.inj h).symm, fun h => by rw [h, documents]⟩
  | cons e ps ih =>
    obtain ⟨name, t⟩ := e
    rw [documents, List.forall₂_cons_left_iff]
    constructor
    · intro h
      obtain ⟨d, hd, h⟩ := except_bind_eq_ok.mp h
      obtain ⟨rest, hrest, h⟩ := except_bind_eq_ok.mp h
      cases h
      exact ⟨(name, d), rest, ⟨rfl, hd⟩, ih.mp hrest, rfl⟩
    · rintro ⟨⟨_, d⟩, rest, ⟨rfl, hd⟩, hrest, rfl⟩
      exact except_bind_eq_ok.mpr ⟨d, hd, except_bind_eq_ok.mpr ⟨rest, ih.mpr hrest, rfl⟩⟩

/-- The documents of reordered properties are reordered as they are. -/
theorem documents_perm {ps ps' : List (Value × Tree)} (h : ps.Perm ps') {ds : Entries Value Value}
    (hd : documents ps = .ok ds) : ∃ ds', documents ps' = .ok ds' ∧ ds.Perm ds' := by
  obtain ⟨ds', hds', hperm⟩ := List.perm_comp_forall₂ h.symm (documents_eq_ok.mp hd)
  exact ⟨ds', documents_eq_ok.mpr hds', hperm.symm⟩

/-- Setting a property to trees with alike documents gives alike properties. -/
theorem documents_set {ps : List (Value × Tree)} {name : Value}
    (h : ∀ d, M.document = .ok d → ∃ d', N.document = .ok d' ∧ Alike d d')
    {ds : Entries Value Value} (hd : documents (Entries.set ps name M) = .ok ds) :
    ∃ ds', documents (Entries.set ps name N) = .ok ds' ∧ AlikeProperties ds ds' := by
  -- what is set stands at its place in the list, or at the end
  have first : ∀ {k rest ds}, documents ((k, M) :: rest) = .ok ds →
      ∃ ds', documents ((k, N) :: rest) = .ok ds' ∧ AlikeProperties ds ds' := by
    intro k rest ds hd
    obtain ⟨d, hM, hd⟩ := except_bind_eq_ok.mp hd
    obtain ⟨ds, hrest, hd⟩ := except_bind_eq_ok.mp hd
    cases hd
    obtain ⟨d', hN, halike⟩ := h d hM
    exact ⟨_, except_bind_eq_ok.mpr ⟨d', hN, except_bind_eq_ok.mpr ⟨ds, hrest, rfl⟩⟩,
      .cons k halike (.refl ds)⟩
  induction ps generalizing ds with
  | nil => exact first hd
  | cons e ps ih =>
    obtain ⟨k, u⟩ := e
    unfold Entries.set at hd ⊢
    split
    · rw [if_pos ‹_›] at hd
      exact first hd
    · rw [if_neg ‹_›] at hd
      obtain ⟨d, hu, hd⟩ := except_bind_eq_ok.mp hd
      obtain ⟨ds, hrest, hd⟩ := except_bind_eq_ok.mp hd
      cases hd
      obtain ⟨ds', hrest', halike⟩ := ih hrest
      exact ⟨_, except_bind_eq_ok.mpr ⟨d, hu, except_bind_eq_ok.mpr ⟨ds', hrest', rfl⟩⟩,
        .cons k (.refl d) halike⟩

/-- Objects of one kind have alike documents if their properties and their required names have. -/
theorem document_object {kind : ObjectKind} {ps ps' : List (Value × Tree)}
    {names names' : List Value} {further : Further} (hne : ps ≠ []) (hne' : ps' ≠ [])
    (hps : ∀ ds, documents ps = .ok ds →
      ∃ qs ds', documents ps' = .ok ds' ∧ AlikeProperties ds qs ∧ qs.Perm ds')
    (hnames : names.Perm names') {d : Value}
    (hd : (object kind ps names further).document = .ok d) :
    ∃ d', (object kind ps' names' further).document = .ok d' ∧ Alike d d' := by
  have hempty : ps.isEmpty = false := by simpa using hne
  have hempty' : ps'.isEmpty = false := by simpa using hne'
  rw [document, hempty] at hd
  rw [document, hempty']
  -- an object with properties is written property by property, whatever its kind
  have hform : ∀ {inner}, (do
        let properties ← documents ps
        let additional ← further.document
        return objectForm properties names additional) = Except.ok inner →
      ∃ inner', (do
        let properties ← documents ps'
        let additional ← further.document
        return objectForm properties names' additional) = Except.ok inner' ∧ Alike inner inner' := by
    intro inner h
    obtain ⟨ds, hds, h⟩ := except_bind_eq_ok.mp h
    obtain ⟨additional, hadditional, h⟩ := except_bind_eq_ok.mp h
    cases h
    obtain ⟨qs, ds', hds', halike, hperm⟩ := hps ds hds
    exact ⟨_, except_bind_eq_ok.mpr ⟨ds', hds', except_bind_eq_ok.mpr ⟨additional, hadditional, rfl⟩⟩,
      alike_objectForm halike hperm hnames additional⟩
  cases kind with
  | plain => exact hform hd
  | schema => exact hform hd
  | dictionary =>
    obtain ⟨inner, hinner, hd⟩ := except_bind_eq_ok.mp hd
    cases hd
    obtain ⟨inner', hinner', halike⟩ := hform hinner
    exact ⟨_, except_bind_eq_ok.mpr ⟨inner', hinner', rfl⟩,
      .record (.member _ (.refl _) (.member _ halike .nil))⟩

/-- Growth along two paths that part gives alike documents in either order. -/
theorem document_grow_comm (h : Store.Part p q)
    (hsame : ∀ a ∈ p, ∀ b ∈ q, (a == b) = true → a = b) {d : Value}
    (hd : ((t.grow f M p).grow g N q).document = .ok d) :
    ∃ d', ((t.grow g N q).grow f M p).document = .ok d' ∧ Alike d d' := by
  induction h generalizing t d with
  | @here a b p q hab =>
    cases t with
    | object kind properties required further =>
      have hba : (b == a) = false := by rw [BEq.comm, hab]
      rw [grow, grow, Entries.get?_set_ne _ _ hab] at hd
      rw [grow, grow, Entries.get?_set_ne _ _ hba]
      refine document_object (Entries.set_ne_nil _ _ _) (Entries.set_ne_nil _ _ _) ?_
        (listed_perm (hsame a (by simp) b (by simp)) required) hd
      intro ds hds
      obtain ⟨ds', hds', hperm⟩ := documents_perm (Entries.set_perm _ hab _ _) hds
      exact ⟨ds, ds', hds', .refl ds, hperm⟩
    | _ => exact ⟨d, hd, .refl d⟩
  | @later a b p q hab hrest ih =>
    have hp := hrest.ne_nil.1
    have hq := hrest.ne_nil.2
    obtain rfl := hsame a (by simp) b (by simp) hab
    cases t with
    | object kind properties required further =>
      rw [grow, grow, Entries.get?_set_self, entered_grow _ hp, Entries.set_set] at hd
      rw [grow, grow, Entries.get?_set_self, entered_grow _ hq, Entries.set_set]
      refine document_object (Entries.set_ne_nil _ _ _) (Entries.set_ne_nil _ _ _) ?_
        (listed_perm (fun _ => rfl) required) hd
      intro ds hds
      -- both orders set one property, to trees that are alike by the induction
      obtain ⟨ds', hds', halike⟩ := documents_set
        (fun d hd => ih (fun a ha b hb => hsame a (by simp [ha]) b (by simp [hb])) hd) hds
      exact ⟨ds', ds', hds', halike, .refl ds'⟩
    | _ => exact ⟨d, hd, .refl d⟩

end Tree

end DraftSchema
