import DraftSchema.Proofs.Mirrored

/-!
# Equality of rules

Rules are equal if their documents are, loosely. Documents are keyed, so that this is an equivalence,
and whether a rule is required is not in them. It is a congruence too: rules that are the same but for
equal rules inside have equal documents, of whatever classes the equal rules are.
-/

namespace DraftSchema

namespace Store

variable {s t : Store} {E : Pairing}

/-! ## An equivalence -/

/-- Rules are equal if their documents are, up to rules that are compared with less fuel. -/
theorem equalNodes_iff {n : Nat} {a b : NodeId} : s.equalNodes (n + 1) a b = .ok true ↔
    ∃ d e, s.document a = .ok d ∧ s.document b = .ok e ∧
      d.Loose (fun x y => s.equalNodes n x y = .ok true) e := by
  rw [equalNodes]
  constructor
  · intro h
    obtain ⟨d, hd, h⟩ := except_bind_eq_ok.mp h
    obtain ⟨e, he, h⟩ := except_bind_eq_ok.mp h
    exact ⟨d, e, hd, he, Value.loose_iff.mpr (.inr h)⟩
  · rintro ⟨d, e, hd, he, hloose⟩
    refine except_bind_eq_ok.mpr ⟨d, hd, except_bind_eq_ok.mpr ⟨e, he, ?_⟩⟩
    rcases Value.loose_iff.mp hloose with hself | h
    · obtain ⟨es, rfl⟩ := document_dict hd
      simp [Value.isSelf] at hself
    · exact h

theorem equalNodes_symm (hs : s.AllKeyed) {n : Nat} {a b : NodeId}
    (h : s.equalNodes n a b = .ok true) : s.equalNodes n b a = .ok true := by
  induction n generalizing a b with
  | zero => cases h
  | succ n ih =>
    obtain ⟨d, e, hd, he, hloose⟩ := equalNodes_iff.mp h
    exact equalNodes_iff.mpr ⟨e, d, he, hd,
      hloose.symm (fun _ _ => ih) (hs.document hd) (hs.document he)⟩

theorem equalNodes_trans {n : Nat} {a b c : NodeId} (h : s.equalNodes n a b = .ok true)
    (h' : s.equalNodes n b c = .ok true) : s.equalNodes n a c = .ok true := by
  induction n generalizing a b c with
  | zero => cases h
  | succ n ih =>
    obtain ⟨d, e, hd, he, hloose⟩ := equalNodes_iff.mp h
    obtain ⟨e', x, he', hx, hloose'⟩ := equalNodes_iff.mp h'
    cases he.symm.trans he'
    exact equalNodes_iff.mpr ⟨d, x, hd, hx, hloose.trans (fun _ _ _ => ih) hloose'⟩

theorem equal_node (s : Store) (a b : NodeId) :
    s.equal (.node a) (.node b) = s.equalNodes (s.size + 1) a b := by
  rw [equal, Value.equalWith]

theorem equal_refl (hs : s.AllKeyed) {a : NodeId} {d : Value} (hd : s.document a = .ok d) :
    s.equal (.node a) (.node a) = .ok true := by
  rw [equal_node]
  exact equalNodes_iff.mpr ⟨d, d, hd, hd, .refl (hs.document hd)⟩

/-- An assembled rule that is acyclic is equal to itself, if its names are keyed. -/
theorem equal_self_of_assembly {call : Caller} {names : Value → Prop} {w : Workspace}
    (h : Assembly call names w) (hnames : ∀ k, names k → k.Keyed) {a : NodeId}
    (ha : a < w.store.size) (hacyclic : w.store.Acyclic a) :
    w.store.equal (.node a) (.node a) = .ok true := by
  obtain ⟨d, hd, -⟩ := h.tidy.document ha hacyclic
  exact equal_refl (h.allKeyed hnames) hd

/-! ## Where equality answers -/

/-- What can be written as a text holds neither rules nor arguments of predicates. -/
theorem comparable_of_chars {f : Value → String} {layout : Json.Layout} {depth : Nat} {v : Value}
    {cs : List Char} (h : Json.chars f layout depth v = .ok cs) : v.Comparable := by
  induction hn : sizeOf v using Nat.strong_induction_on generalizing depth v cs with
  | _ n ih =>
    subst hn
    have hparts : ∀ {kind : Value.SequenceKind} {xs : List Value} {parts : List (List Char)},
        v.sequence? = some (kind, xs) →
        Json.elementChars f layout (depth + 1) xs = .ok parts → v.Comparable := by
      intro kind xs parts hxs hparts
      refine .sequence hxs fun x hx => ?_
      obtain ⟨cs, hcs⟩ := Json.chars_of_elementChars hparts hx
      exact ih _ (Value.sizeOf_lt_of_sequence? hxs hx) hcs rfl
    cases v with
    | list i xs =>
      rw [Json.chars] at h
      obtain ⟨parts, h, -⟩ := except_bind_eq_ok.mp h
      exact hparts rfl h
    | tuple xs =>
      rw [Json.chars] at h
      obtain ⟨parts, h, -⟩ := except_bind_eq_ok.mp h
      exact hparts rfl h
    | dict i es =>
      rw [Json.chars] at h
      obtain ⟨parts, h, -⟩ := except_bind_eq_ok.mp h
      refine .dict fun k x hx => ?_
      obtain ⟨cs, hcs⟩ := Json.chars_of_memberChars h hx
      exact ih _ (Value.sizeOf_lt_of_mem_entries hx) hcs rfl
    | null | bool | int | float | text => exact .whole rfl rfl
    | _ => cases h

/-- A rule has a document that can be written as a text. -/
def Serializes (s : Store) (a : NodeId) : Prop :=
  ∃ d text, s.document a = .ok d ∧ Json.write s.typeName .compact d = .ok text

/-- Equality tells of any two rules whose documents can be written as texts. -/
theorem equal_total {a b : NodeId} (ha : s.Serializes a) (hb : s.Serializes b) :
    ∃ answer, s.equal (.node a) (.node b) = .ok answer := by
  obtain ⟨d, _, hd, hwrite⟩ := ha
  obtain ⟨e, _, he, hwrite'⟩ := hb
  obtain ⟨cs, hcs, -⟩ := except_map_eq_ok.mp hwrite
  obtain ⟨cs', hcs', -⟩ := except_map_eq_ok.mp hwrite'
  obtain ⟨answer, hanswer⟩ : ∃ answer, d.equalWith (s.equalNodes s.size) e = .ok answer :=
    (comparable_of_chars hcs).equalWith_total (comparable_of_chars hcs')
  rw [equal_node, equalNodes]
  exact ⟨answer, except_bind_eq_ok.mpr ⟨d, hd, except_bind_eq_ok.mpr ⟨e, he, hanswer⟩⟩⟩

/-! ## Whether a rule is required -/

/-- Documents depend on what rules say, and not on whether they are required. -/
theorem document_of_rules (h : ∀ x node, s.get? x = some node →
      ∃ node', t.get? x = some node' ∧ node'.rule = node.rule)
    {a : NodeId} {d : Value} (hd : s.document a = .ok d) : t.document a = .ok d := by
  have within : ∀ n a d, s.documentWithin n a = .ok d → t.documentWithin n a = .ok d := by
    intro n
    induction n with
    | zero => exact fun a d hd => nomatch hd
    | succ n ih =>
      intro a d hd
      rw [documentWithin] at hd ⊢
      split at hd
      · cases hd
      rename_i node hnode
      obtain ⟨node', hnode', hrule⟩ := h a node hnode
      rw [hnode']
      simp only [hrule]
      refine documentOf_moved (.refl fun _ _ => rfl) ?_ hd
      rintro a _ rfl
      exact ih a
  exact document_of_documentWithin (within _ a d hd)

theorem equalNodes_of_rules (h : ∀ x node, s.get? x = some node →
      ∃ node', t.get? x = some node' ∧ node'.rule = node.rule)
    {n : Nat} {a b : NodeId} (hab : s.equalNodes n a b = .ok true) :
    t.equalNodes n a b = .ok true := by
  induction n generalizing a b with
  | zero => cases hab
  | succ n ih =>
    obtain ⟨d, e, hd, he, hloose⟩ := equalNodes_iff.mp hab
    exact equalNodes_iff.mpr
      ⟨d, e, document_of_rules h hd, document_of_rules h he, hloose.mono fun _ _ => ih⟩

theorem get?_setRequired (s : Store) (id : NodeId) (required : Value) (x : NodeId) :
    (s.setRequired id required).get? x =
      (s.get? x).map fun node => if x = id then { node with required } else node := by
  unfold setRequired
  split
  · rename_i node hnode
    rw [Store.get?, Store.set, List.getElem?_set]
    split
    · subst x
      obtain ⟨hlt, rfl⟩ := List.getElem?_eq_some_iff.mp hnode
      simp [hlt, Store.get?]
    · rename_i hne
      simp [Ne.symm hne, Store.get?]
  · rename_i hnone
    by_cases hx : x = id
    · subst hx
      rw [hnone, Option.map_none]
    · simp [hx]

theorem equal_setRequired (s : Store) (id : NodeId) (required : Value) (a b : NodeId) :
    (s.setRequired id required).equal (.node a) (.node b) = .ok true ↔
      s.equal (.node a) (.node b) = .ok true := by
  have hsize : (s.setRequired id required).size = s.size := by
    unfold setRequired
    split <;> simp
  rw [equal_node, equal_node, hsize]
  constructor <;> refine equalNodes_of_rules fun x node hx => ?_
  · rw [get?_setRequired] at hx
    obtain ⟨node', hnode', rfl⟩ := Option.map_eq_some_iff.mp hx
    refine ⟨node', hnode', ?_⟩
    split <;> rfl
  · rw [get?_setRequired, hx]
    refine ⟨_, rfl, ?_⟩
    split <;> rfl

/-! ## A congruence -/

/-- Paired rules are one and the same, or equal, or the same but for paired rules inside. -/
def Congruent (s : Store) (E : Pairing) : Prop := ∀ a b, E a b →
  a = b ∨ s.equal (.node a) (.node b) = .ok true ∨
    ∃ node node', s.get? a = some node ∧ s.get? b = some node' ∧ node.rule.Mirrors E node'.rule

theorem Congruent.equal (h : s.Congruent E) (hs : s.AllKeyed) {a b : NodeId} (hab : E a b)
    {d : Value} (hd : s.document a = .ok d) : s.equal (.node a) (.node b) = .ok true := by
  have hequal : ∀ a b, s.equal (.node a) (.node b) = .ok true → ∀ d, s.document a = .ok d →
      ∃ e, s.document b = .ok e ∧
        d.Equals (fun x y => s.equalNodes s.size x y = .ok true) e := by
    intro a b hequal d hd
    rw [equal_node] at hequal
    obtain ⟨d', e, hd', he, hloose⟩ := equalNodes_iff.mp hequal
    cases hd.symm.trans hd'
    exact ⟨e, he, hloose, hs.document hd, hs.document he⟩
  obtain ⟨e, he, hequals⟩ : ∃ e, s.document b = .ok e ∧
      d.Equals (fun x y => s.equalNodes s.size x y = .ok true) e := by
    refine document_mirrors hs (fun a b hab => ?_) hab hd
    rcases h a b hab with rfl | hone | hmirrors
    · exact .inl fun d hd => ⟨d, hd, (hs.document hd).equals⟩
    · exact .inl (hequal a b hone)
    · exact .inr hmirrors
  rw [equal_node]
  exact equalNodes_iff.mpr ⟨d, e, hd, he, hequals.loose⟩

/-- Equality of rules is that of their documents, and an equivalence, which answers where documents
hold neither rules nor arguments of predicates. Whether a rule is required does not count for it, and
it is a congruence: rules that are the same but for equal rules inside, at any depth, are equal. -/
theorem equal_congruence (hs : s.AllKeyed) :
    (∀ a b, s.equal (.node a) (.node b) = .ok true ↔
      ∃ d e, s.document a = .ok d ∧ s.document b = .ok e ∧
        d.Loose (fun x y => s.equalNodes s.size x y = .ok true) e) ∧
    (∀ a b, s.Serializes a → s.Serializes b →
      ∃ answer, s.equal (.node a) (.node b) = .ok answer) ∧
    (∀ a d, s.document a = .ok d → s.equal (.node a) (.node a) = .ok true) ∧
    (∀ a b, s.equal (.node a) (.node b) = .ok true → s.equal (.node b) (.node a) = .ok true) ∧
    (∀ a b c, s.equal (.node a) (.node b) = .ok true → s.equal (.node b) (.node c) = .ok true →
      s.equal (.node a) (.node c) = .ok true) ∧
    (∀ id required a b, (s.setRequired id required).equal (.node a) (.node b) = .ok true ↔
      s.equal (.node a) (.node b) = .ok true) ∧
    ∀ E, s.Congruent E → ∀ a b d, E a b → s.document a = .ok d →
      s.equal (.node a) (.node b) = .ok true := by
  refine ⟨fun a b => ?_, fun a b ha hb => equal_total ha hb, fun a d hd => equal_refl hs hd,
    fun a b h => ?_, fun a b c h h' => ?_, s.equal_setRequired,
    fun E hE a b d hab hd => hE.equal hs hab hd⟩
  · rw [equal_node, equalNodes_iff]
  · rw [equal_node] at h ⊢
    exact equalNodes_symm hs h
  · rw [equal_node] at h h' ⊢
    exact equalNodes_trans h h'

/-- Two trees with a number in one and, in the same place of the other, a builder that holds an equal
number for every key: in an array, in an object that is a mapping of such objects. -/
def twoTrees : Store where
  nodes :=
    let one := Binary64.finite false (Nat.pow 2 52) (-52) (by decide)
    let number (x : Value) := Rule.number { NumberRule.any with minimum := some x, maximum := some x }
    let array (c : NodeId) := Rule.array { ArrayRule.any with items := .every c }
    let object (kind : ObjectKind) (properties : Entries Value Value) (additional : Option Value) :=
      Rule.object { kind, model := .null, properties, required := [], additional }
    [⟨number (.int 1), .bool true⟩,
     ⟨number (.float one), .bool false⟩,
     ⟨object .schema [] (some (.node 1)), .bool true⟩,
     ⟨array 0, .bool true⟩,
     ⟨array 2, .bool true⟩,
     ⟨object .dictionary [(.text "a", .node 3)] (some (.bool false)), .bool true⟩,
     ⟨object .dictionary [(.text "a", .node 4)] (some (.bool false)), .bool true⟩]

theorem allKeyed_twoTrees : twoTrees.AllKeyed := by
  intro id node hnode
  have hnumber : ∀ v : Value, v.isWhole = true → (Rule.number { NumberRule.any with
      minimum := some v, maximum := some v }).Keyed := fun v hv =>
    ⟨by simpa [Rule.parts, NumberRule.any] using .whole hv, fun r h => by cases h⟩
  have harray : ∀ c, (Rule.array { ArrayRule.any with items := .every c }).Keyed := fun c =>
    ⟨by simp [Rule.parts, ArrayRule.any], fun r h => by cases h⟩
  have hobject : ∀ r : ObjectRule, r.Keyed → (Rule.object r).Keyed := fun r hr =>
    ⟨by simp [Rule.parts], fun r' h => by cases h; exact hr⟩
  have hmem := List.mem_of_getElem? hnode
  simp only [twoTrees, List.mem_cons, List.not_mem_nil, or_false] at hmem
  rcases hmem with rfl | rfl | rfl | rfl | rfl | rfl | rfl
  · exact hnumber _ rfl
  · exact hnumber _ rfl
  · refine hobject _ ⟨.nil, by simp, by simp [Value.Keyed.rule]⟩
  · exact harray 0
  · exact harray 2
  · refine hobject _ ⟨List.pairwise_singleton _ _, by simp, by simpa using .whole rfl⟩
  · refine hobject _ ⟨List.pairwise_singleton _ _, by simp, by simpa using .whole rfl⟩

/-- A rule for one number and a builder around a rule for an equal number. -/
theorem equal_twoTrees : twoTrees.equal (.node 0) (.node 2) = .ok true := by
  have hone : ∀ x : Binary64, Value.equalWhole (.int 1) (.float x) = .ok true →
      (Value.int 1).Equals (fun x y => twoTrees.equalNodes twoTrees.size x y = .ok true)
        (.float x) := fun x hx => ⟨.whole hx, .whole rfl, .whole rfl⟩
  rw [equal_node]
  refine equalNodes_iff.mpr ⟨_, _, rfl, rfl, Value.Equals.loose ?_⟩
  rw [numberKeywords_eq, numberKeywords_eq]
  exact equals_typed "number" (by simp) (.cons ⟨rfl, .none⟩ (.cons ⟨rfl, .some (hone _ (by decide))⟩
    (.cons ⟨rfl, .none⟩ (.cons ⟨rfl, .some (hone _ (by decide))⟩ (.cons ⟨rfl, .none⟩ .nil)))))

theorem equal_congruence_twoTrees : twoTrees.equal (.node 5) (.node 6) = .ok true := by
  obtain ⟨-, -, -, -, -, -, hcongr⟩ := equal_congruence allKeyed_twoTrees
  refine hcongr (fun a b => a = 0 ∧ b = 2 ∨ a = 3 ∧ b = 4 ∨ a = 5 ∧ b = 6) ?_ 5 6 _ (by simp) rfl
  rintro a b (⟨rfl, rfl⟩ | ⟨rfl, rfl⟩ | ⟨rfl, rfl⟩)
  · exact .inr (.inl equal_twoTrees)
  · exact .inr (.inr ⟨_, _, rfl, rfl, .array (.every (by simp))⟩)
  · exact .inr (.inr ⟨_, _, rfl, rfl, .object ⟨rfl, .cons ⟨rfl, .node (by simp)⟩ .nil, rfl,
      .some (.plain rfl)⟩⟩)

end Store

end DraftSchema
