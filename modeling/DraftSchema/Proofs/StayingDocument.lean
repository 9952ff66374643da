import DraftSchema.Proofs.Staying

/-!
# Documents within reach

The document of a rule holds what the rule holds, so it is within reach when the rule is. Rules are
equal by their documents; what else is compared meets a fault only at the argument of a predicate.
-/

namespace DraftSchema

variable {σ : Reach}

/-! ## Documents -/

theorem within_partValue {part : Option Value} :
    (partValue part).Within σ ↔ ∀ v ∈ part, v.Within σ := by
  cases part with
  | none => simp [partValue]
  | some v => simp [partValue]

theorem within_listValue {part : Option (List Value)} :
    (listValue part).Within σ ↔ ∀ xs ∈ part, ∀ x ∈ xs, x.Within σ := by
  cases part with
  | none => simp [listValue, partValue]
  | some xs => simp [listValue, partValue, Value.listing]

theorem within_record {entries : Entries String Value} (h : ∀ e ∈ entries, e.2.Within σ) :
    (Value.record entries).Within σ := by
  refine Value.within_dict.mpr fun e he => ?_
  obtain ⟨d, hd, rfl⟩ := List.mem_map.mp he
  exact ⟨trivial, h d hd⟩

theorem within_typedDocument {type : String} {members : Entries String Value}
    (h : ∀ e ∈ members, e.2.Within σ) : (typedDocument type members).Within σ :=
  within_record (List.forall_mem_cons.mpr ⟨trivial, h⟩)

theorem forall_mem_member {k : Keyword} {part : Option Value} :
    (∀ e ∈ k.member part, e.2.Within σ) ↔ ∀ v ∈ part, v.Within σ := by
  cases part <;> simp [Keyword.member]

theorem forall_mem_append {es ds : Entries String Value} :
    (∀ e ∈ es ++ ds, e.2.Within σ) ↔ (∀ e ∈ es, e.2.Within σ) ∧ ∀ e ∈ ds, e.2.Within σ :=
  List.forall_mem_append

theorem within_allowed {allowed : Option (List Value)} (h : ∀ xs ∈ allowed, ∀ x ∈ xs, x.Within σ) :
    ∀ v ∈ allowed.map Value.listing, v.Within σ := by
  intro v hv
  obtain ⟨xs, hxs, rfl⟩ := Option.map_eq_some_iff.mp hv
  exact Value.within_list.mpr (h xs hxs)

/-- What can be read off an object rule is what it is written with, and the model of a builder. -/
theorem ObjectRule.within_attributes {r : ObjectRule} : (∀ e ∈ r.attributes, e.2.Within σ) ↔
    (∀ e ∈ r.properties, e.1.Within σ ∧ e.2.Within σ) ∧ (∀ v ∈ r.required, v.Within σ) ∧
      (∀ v ∈ r.additional, v.Within σ) ∧ (r.kind ≠ .plain → r.model.Within σ) := by
  have hmodel : (∀ e ∈ if r.kind = .plain then [] else [("model", r.model)], e.2.Within σ) ↔
      (r.kind ≠ .plain → r.model.Within σ) := by
    by_cases hkind : r.kind = .plain <;> simp [hkind]
  unfold ObjectRule.attributes
  rw [forall_mem_append, hmodel]
  simp [Value.mapping, Value.listing, within_partValue, and_assoc]

namespace Store

variable {s : Store} {document : NodeId → Except Fault Value}

/-- What has no operation is a fault that stems from asking for it. -/
theorem isPlain_missing (s : Store) (v : Value) (name : String) :
    (s.missing v name).isPlain = true := by
  -- whether a fault is plain shows in its sort, and that of a missing operation is known
  have hplain : ∀ f : Fault, f.isPlain = match f.sort with
      | (_, some code, _) => decide (code = .invalidSelector)
      | (kind, none, _) => kind.isRecoverable || kind.isUncaught := fun f => by cases f <;> rfl
  rw [hplain, sort_missing]
  rfl

section

variable (hd : ∀ id, σ.Yields (·.Within σ) (document id))

include hd

theorem yields_memberDocument (v : Value) : σ.Yields (·.Within σ) (s.memberDocument document v) := by
  unfold memberDocument
  split
  · exact hd _
  · exact .plain rfl
  · exact .plain (isPlain_missing s _ _)

theorem yields_propertyDocuments {es : Entries Value Value}
    (hes : ∀ e ∈ es, e.1.Within σ ∧ e.2.Within σ) :
    σ.Yields (fun ds => ∀ e ∈ ds, e.1.Within σ ∧ e.2.Within σ)
      (s.propertyDocuments document es) := by
  induction es with
  | nil => exact fun e he => by cases he
  | cons e es ih =>
    obtain ⟨⟨hk, -⟩, hrest⟩ := List.forall_mem_cons.mp hes
    refine (yields_memberDocument hd e.2).bind fun d hd => (ih hrest).bind fun ds hds => ?_
    exact List.forall_mem_cons.mpr ⟨⟨hk, hd⟩, hds⟩

theorem yields_childDocuments (ids : List NodeId) :
    σ.Yields (fun ds => ∀ d ∈ ds, d.Within σ) (childDocuments document ids) := by
  induction ids with
  | nil => exact fun d hd => by cases hd
  | cons id ids ih =>
    refine (hd id).bind fun d hd => ih.bind fun ds hds => ?_
    exact List.forall_mem_cons.mpr ⟨hd, hds⟩

theorem yields_itemsDocument (items : Items) :
    σ.Yields (fun d => ∀ v ∈ d, v.Within σ) (itemsDocument document items) := by
  cases items with
  | free => exact fun v hv => by cases hv
  | every id => exact (hd id).map fun d hd v hv => Option.some.inj hv ▸ hd
  | each ids =>
    exact (yields_childDocuments hd ids).map fun ds hds v hv =>
      Option.some.inj hv ▸ Value.within_list.mpr hds

theorem yields_additionalDocument {additional : Option Value}
    (h : ∀ v ∈ additional, v.Within σ) :
    σ.Yields (fun d => ∀ v ∈ d, v.Within σ) (additionalDocument document additional) := by
  unfold additionalDocument
  split
  · exact (hd _).map fun d hd v hv => Option.some.inj hv ▸ hd
  · exact h

theorem yields_objectDocument {r : ObjectRule} (h : ∀ e ∈ r.attributes, e.2.Within σ) :
    σ.Yields (·.Within σ) (s.objectDocument document r) := by
  obtain ⟨hproperties, hrequired, hadditional, -⟩ := ObjectRule.within_attributes.mp h
  refine (yields_propertyDocuments hd hproperties).bind fun ds hds =>
    (yields_additionalDocument hd hadditional).bind fun d hd => within_typedDocument ?_
  rw [forall_mem_append, forall_mem_append, forall_mem_member, forall_mem_member, forall_mem_member]
  refine ⟨⟨fun v hv => Option.some.inj hv ▸ Value.within_dict.mpr hds, fun v hv => ?_⟩, hd⟩
  unfold ObjectRule.requiredPart at hv
  split at hv
  · cases hv
  · exact Option.some.inj hv ▸ Value.within_list.mpr hrequired

theorem yields_schemaDocument {r : ObjectRule} (h : ∀ e ∈ r.attributes, e.2.Within σ) :
    σ.Yields (·.Within σ) (s.schemaDocument document r) := by
  unfold schemaDocument
  split
  · exact hd _
  · exact yields_objectDocument hd h

/-- The document of a rule within reach is within reach, if those of the rules inside are. -/
theorem yields_documentOf {rule : Rule} (h : ∀ e ∈ rule.attributes, e.2.Within σ) :
    σ.Yields (·.Within σ) (s.documentOf document rule) := by
  cases rule with
  | string r =>
    simp only [Rule.attributes, StringRule.attributes, List.forall_mem_cons, within_partValue,
      within_listValue] at h
    obtain ⟨hformat, hpattern, hleast, hmost, hallowed, -⟩ := h
    refine within_typedDocument ?_
    simp only [StringRule.keywords, forall_mem_append, forall_mem_member]
    refine ⟨⟨⟨⟨hformat, hpattern⟩, hleast⟩, hmost⟩, ?_⟩
    exact within_allowed hallowed
  | number r =>
    simp only [Rule.attributes, NumberRule.attributes, List.forall_mem_cons, within_partValue] at h
    obtain ⟨hmultiple, hmin, hmax, hminExclusive, hmaxExclusive, -⟩ := h
    refine within_typedDocument ?_
    rw [NumberRule.keywords, forall_mem_append, forall_mem_append, forall_mem_member]
    refine ⟨⟨hmultiple, ?_⟩, ?_⟩ <;> split
    · exact forall_mem_append.mpr ⟨forall_mem_member.mpr hmin, forall_mem_member.mpr hminExclusive⟩
    · exact fun e he => by cases he
    · exact forall_mem_append.mpr ⟨forall_mem_member.mpr hmax, forall_mem_member.mpr hmaxExclusive⟩
    · exact fun e he => by cases he
  | boolean allowed =>
    simp only [Rule.attributes, List.forall_mem_cons, within_listValue] at h
    exact within_typedDocument (forall_mem_member.mpr (within_allowed h.1))
  | array r =>
    simp only [Rule.attributes, ArrayRule.attributes, List.forall_mem_cons, within_partValue] at h
    obtain ⟨hleast, hmost, hunique, -, hadditional, -⟩ := h
    refine (yields_itemsDocument hd r.items).bind fun d hitems => within_typedDocument ?_
    simp only [forall_mem_append, forall_mem_member]
    exact ⟨⟨⟨⟨hleast, hmost⟩, hunique⟩, hitems⟩, hadditional⟩
  | object r =>
    simp only [documentOf]
    split
    · exact yields_objectDocument hd h
    · exact yields_schemaDocument hd h
    · refine (yields_schemaDocument hd h).bind fun d hinner => within_typedDocument ?_
      exact forall_mem_member.mpr fun v hv => Option.some.inj hv ▸ hinner
  | combinator kind children =>
    refine (yields_childDocuments hd children).bind fun ds hds => within_record ?_
    exact List.forall_mem_singleton.mpr (Value.within_list.mpr hds)
  | negation child =>
    exact (hd child).bind fun d hd => within_record (List.forall_mem_singleton.mpr hd)

end

theorem yields_documentWithin (hrules : σ.rules) (hs : σ.rules → s.Within σ) (n : Nat)
    (id : NodeId) : σ.Yields (·.Within σ) (s.documentWithin n id) := by
  -- on the depth: the documents of the rules below are made with less of it
  induction n generalizing id with
  | zero => exact .plain rfl
  | succ n ih =>
    unfold documentWithin
    split
    · exact .plain rfl
    · rename_i node hnode
      exact yields_documentOf ih (hs hrules node (List.mem_of_getElem? hnode)).2

/-- The document of a rule within reach. -/
theorem yields_document (hrules : σ.rules) (hs : σ.rules → s.Within σ) (id : NodeId) :
    σ.Yields (·.Within σ) (s.document id) :=
  yields_documentWithin hrules hs _ id

end Store

/-! ## Equality -/

namespace Value

theorem yields_equalWhole {a b : Value} (ha : a.Within σ) (hb : b.Within σ) :
    σ.Yields (fun _ => True) (equalWhole a b) := by
  unfold equalWhole
  split
  · rename_i h
    refine .refused ?_ _
    rcases Bool.or_eq_true_iff.mp h with h | h
    · cases a <;> first | exact ha | cases h
    · cases b <;> first | exact hb | cases h
  · split <;> trivial

theorem yields_andAlso {x y : Except Fault Bool} (hx : σ.Yields (fun _ => True) x)
    (hy : σ.Yields (fun _ => True) y) : σ.Yields (fun _ => True) (andAlso x y) := by
  unfold andAlso
  split
  · exact hy
  · exact hx

theorem yields_unlessSelf {a b : Value} {x : Except Fault Bool} (hx : σ.Yields (fun _ => True) x) :
    σ.Yields (fun _ => True) (if a.isSelf b then .ok true else x) := by
  split
  · trivial
  · exact hx

variable {nodes : NodeId → NodeId → Except Fault Bool}

mutual

theorem yields_equalWith (hn : σ.rules → ∀ a b, σ.Yields (fun _ => True) (nodes a b)) :
    (a b : Value) → a.Within σ → b.Within σ → σ.Yields (fun _ => True) (a.equalWith nodes b)
  | .list _ as, b, ha, hb => by
    cases b with
    | list _ bs =>
      rw [equalWith]
      split
      · exact yields_equalAll hn as bs ha hb
      · trivial
    | _ => simpa [equalWith] using yields_equalWhole ha hb
  | .tuple as, b, ha, hb => by
    cases b with
    | tuple bs =>
      rw [equalWith]
      split
      · exact yields_equalAll hn as bs ha hb
      · trivial
    | _ => simpa [equalWith] using yields_equalWhole ha hb
  | .dict _ as, b, ha, hb => by
    cases b with
    | dict _ bs =>
      rw [equalWith]
      split
      · exact yields_equalEntries hn as bs ha (entriesWithin_iff.mp hb)
      · trivial
    | _ => simpa [equalWith] using yields_equalWhole ha hb
  | .range as, b, ha, hb => by
    cases b with
    | range bs =>
      rw [equalWith]
      exact yields_equalBounds hn as bs ha hb
    | _ => simpa [equalWith] using yields_equalWhole ha hb
  | .node _, b, ha, hb => by
    cases b with
    | node _ =>
      rw [equalWith]
      exact hn ha _ _
    | _ => simpa [equalWith] using yields_equalWhole ha hb
  | .null, b, ha, hb | .bool _, b, ha, hb | .int _, b, ha, hb | .float _, b, ha, hb
  | .text _, b, ha, hb | .bytes _, b, ha, hb | .regex _, b, ha, hb | .function .., b, ha, hb
  | .type _, b, ha, hb | .nodeClass _, b, ha, hb | .builtin _, b, ha, hb | .foreign .., b, ha, hb
  | .sized _, b, ha, hb | .recorder .., b, ha, hb | .operand .., b, ha, hb
  | .comparison .., b, ha, hb | .method .., b, ha, hb | .classMethod .., b, ha, hb => by
    simpa [equalWith] using yields_equalWhole ha hb

theorem yields_equalAll (hn : σ.rules → ∀ a b, σ.Yields (fun _ => True) (nodes a b)) :
    (as bs : List Value) → AllWithin σ as → AllWithin σ bs →
      σ.Yields (fun _ => True) (equalAll nodes as bs)
  | a :: as, b :: bs, ha, hb => by
    rw [equalAll]
    exact yields_andAlso (yields_unlessSelf (yields_equalWith hn a b ha.1 hb.1))
      (yields_equalAll hn as bs ha.2 hb.2)
  | [], _, _, _ | _ :: _, [], _, _ => by simp [equalAll, Reach.Yields]

theorem yields_equalEntries (hn : σ.rules → ∀ a b, σ.Yields (fun _ => True) (nodes a b)) :
    (as bs : List (Value × Value)) → EntriesWithin σ as →
      (∀ e ∈ bs, e.1.Within σ ∧ e.2.Within σ) →
      σ.Yields (fun _ => True) (equalEntries nodes as bs)
  | (k, a) :: as, bs, ha, hb => by
    rw [equalEntries]
    split
    · rename_i b hget
      have hfound := within_of_get? (fun e he => (hb e he).2) hget
      exact yields_andAlso (yields_unlessSelf (yields_equalWith hn a b ha.1.2 hfound))
        (yields_equalEntries hn as bs ha.2 hb)
    · trivial
  | [], _, _, _ => by simp [equalEntries, Reach.Yields]

theorem yields_equalBounds (hn : σ.rules → ∀ a b, σ.Yields (fun _ => True) (nodes a b)) :
    (a b : Bounds Value) → BoundsWithin σ a → BoundsWithin σ b →
      σ.Yields (fun _ => True) (equalBounds nodes a b)
  | ⟨a, b, c, d, e⟩, ⟨a', b', c', d', e'⟩, ⟨ha, hb, hc, hd, he⟩, ⟨ha', hb', hc', hd', he'⟩ => by
    rw [equalBounds]
    exact yields_andAlso (yields_unlessSelf (yields_equalWith hn a a' ha ha')) <|
      yields_andAlso (yields_unlessSelf (yields_equalWith hn b b' hb hb')) <|
      yields_andAlso (yields_unlessSelf (yields_equalWith hn c c' hc hc')) <|
      yields_andAlso (yields_unlessSelf (yields_equalWith hn d d' hd hd')) <|
      yields_andAlso (yields_unlessSelf (yields_equalWith hn e e' he he')) (y := .ok true) trivial

end

end Value

namespace Store

variable {s : Store}

theorem yields_equalNodes (hrules : σ.rules) (hs : σ.rules → s.Within σ) (n : Nat)
    (a b : NodeId) : σ.Yields (fun _ => True) (s.equalNodes n a b) := by
  -- on the depth: rules are equal by their documents, in which rules may be left
  induction n generalizing a b with
  | zero => exact .plain rfl
  | succ n ih =>
    exact (yields_document hrules hs a).bind fun x hx =>
      (yields_document hrules hs b).bind fun y hy =>
        Value.yields_equalWith (fun _ => ih) x y hx hy

theorem yields_equal (hs : σ.rules → s.Within σ) {a b : Value} (ha : a.Within σ)
    (hb : b.Within σ) : σ.Yields (fun _ => True) (s.equal a b) :=
  Value.yields_equalWith (fun hrules => yields_equalNodes hrules hs _) a b ha hb

end Store

end DraftSchema
