import DraftSchema.Construction
import DraftSchema.Proofs.StayingMethod

/-!
# Making rules within reach

What reads functions calls them, so it stays within reach if calls do. A function that is only read
ends in a refusal of what was read, unless there is no room or no end for it. A rule that is made from
values within reach is within reach.
-/

namespace DraftSchema

variable {σ : Reach} {call : Caller}

/-- Calls stay within reach, whatever that is. -/
def Caller.Stays (call : Caller) : Prop :=
  ∀ (σ : Reach) (v : Value) (args : List Value), v.Within σ → (∀ x ∈ args, x.Within σ) →
    (call v args).Stays σ (·.Within σ)

/-! ## Functions that are only read -/

namespace Build

theorem stays_reading {α : Type} {Q : α → Prop} {replaced : Fault → Fault} {b : Build α}
    (h : ∀ f, σ.Allows (replaced f)) (hb : b.Stays σ Q) : (reading replaced b).Stays σ Q := by
  refine hb.attempt.bind fun r hr => ?_
  split
  · exact stays_pure hr
  · exact stays_ite (fun _ => stays_fail (h _)) fun _ => stays_fail hr

end Build

open Build

namespace Selector

variable {v : Value} {vs : List Value}

theorem isPlain_worded (f : Fault) : (worded f).isPlain = true := by
  unfold worded
  split <;> rfl

theorem stays_names (vs : List Value) : (names vs).Stays σ fun path => ∀ x ∈ path, x.Within σ := by
  induction vs with
  | nil => exact stays_pure (by simp)
  | cons v vs ih =>
    unfold names
    split
    · exact stays_pure (by simp)
    · rename_i hparts
      obtain ⟨rfl, rfl⟩ := List.cons.inj hparts
      exact ih.bind fun path hpath => stays_pure (List.forall_mem_cons.mpr ⟨trivial, hpath⟩)
    · exact (stays_typeName _).then fun _ => stays_refuse_selector rfl

theorem stays_recorded (hcall : call.Stays) (hv : v.Within σ) :
    (recorded call v).Stays σ fun path => ∀ x ∈ path, x.Within σ := by
  refine (stays_recorder (by simp)).bind fun start hstart => ?_
  have hread := stays_reading (fun f => .plain (isPlain_worded f))
    (hcall σ v [start] hv (List.forall_mem_singleton.mpr hstart))
  refine hread.bind fun result hresult => ?_
  split
  · exact stays_pure (Value.within_recorder.mp hresult)
  · exact stays_refuse_selector rfl

theorem stays_path (hcall : call.Stays) (hv : v.Within σ) :
    (path call v).Stays σ fun path => ∀ x ∈ path, x.Within σ := by
  unfold path
  split
  · exact stays_names _
  · exact stays_names _
  · refine stays_ite (fun _ => stays_recorded hcall hv) fun _ => ?_
    exact (stays_typeName _).then fun _ => stays_refuse_selector rfl

end Selector

namespace Predicate

variable {v : Value}

theorem within_ofResult {b : Bounds Value} (hv : v.Within σ) (h : ofResult? v = some b) :
    (Value.range b).Within σ := by
  unfold ofResult? at h
  split at h
  · rename_i op bound
    have hbound := (Value.within_comparison.mp hv).2
    split at h
    · cases op <;> cases h <;> simp [hbound]
    · cases h
  · cases h

theorem stays_bounds (hcall : call.Stays) (hrefuses : σ.Refuses) (hv : v.Within σ) :
    (bounds call v).Stays σ fun b => (Value.range b).Within σ := by
  unfold bounds
  dsimp only
  split
  · exact stays_fail (.refused hrefuses _)
  · refine (stays_operand hrefuses false).bind fun x hx => ?_
    refine (stays_reading (fun _ => .refused hrefuses _)
      (hcall σ v [x] hv (List.forall_mem_singleton.mpr hx))).bind fun result hresult => ?_
    split
    · exact stays_pure (within_ofResult hresult ‹_›)
    · exact stays_refuse hrefuses

theorem stays_range (hcall : call.Stays) (hrefuses : σ.Refuses) (hv : v.Within σ) :
    (range call v).Stays σ fun b => (Value.range b).Within σ := by
  unfold range
  split
  · exact stays_pure hv
  · exact stays_bounds hcall hrefuses hv

end Predicate

namespace Length

variable {kindName : Value → String}

theorem yields_exact (v : Value) : σ.Yields (fun _ => True) (exact kindName v) := by
  unfold exact
  split
  · trivial
  · exact .plain rfl
  · exact .plain rfl
  · exact .plain rfl

theorem yields_least (v : Value) (exclusive : Bool) :
    σ.Yields (fun _ => True) (least kindName v exclusive) := by
  unfold least
  split
  · trivial
  · exact (yields_exact _).bind fun _ _ => trivial

theorem yields_most (hrefuses : σ.Refuses) (v : Value) (exclusive : Bool) :
    σ.Yields (fun _ => True) (most kindName v exclusive) := by
  unfold most
  split
  · trivial
  · refine (yields_exact _).bind fun q _ => ?_
    dsimp only
    split
    · exact ((Reach.Yields.of_spellable (spellable_whole False _)).bind
        (P := fun _ => True) fun _ _ => .refused hrefuses _)
    · trivial

theorem stays_bounds (hcall : call.Stays) (hrefuses : σ.Refuses) {v : Value} (hv : v.Within σ) :
    (bounds call v).Stays σ fun _ => True :=
  (Predicate.stays_range hcall hrefuses hv).bind fun b _ => stays_fromStore fun _ _ =>
    (yields_least b.min _).bind fun _ _ => (yields_most hrefuses b.max _).bind fun _ _ => trivial

end Length

/-! ## Arguments -/

theorem Value.within_none : ∀ v ∈ (none : Option Value), v.Within σ := by
  simp

theorem Value.within_present {v : Value} (h : v.Within σ) : ∀ u ∈ v.present, u.Within σ := by
  unfold Value.present
  split
  · simp
  · simpa using h

/-- What is given for the parameters of a rule is within reach. -/
def Arguments.Within (σ : Reach) (args : Arguments) : Prop := ∀ a ∈ args, a.2.Within σ

namespace Arguments

variable {args : Arguments}

theorem within_get? (h : args.Within σ) (p : Parameter) : ∀ v ∈ args.get? p, v.Within σ := by
  intro v hv
  obtain ⟨a, ha, rfl⟩ := Option.map_eq_some_iff.mp hv
  exact h a (List.mem_of_find?_eq_some ha)

theorem within_present (h : args.Within σ) (p : Parameter) : ∀ v ∈ args.present p, v.Within σ := by
  intro v hv
  obtain ⟨u, hu, hpresent⟩ := Option.bind_eq_some_iff.mp hv
  exact Value.within_present (within_get? h p u hu) v hpresent

theorem within_getD {o : Option Value} (h : ∀ v ∈ o, v.Within σ) {d : Value} (hd : d.Within σ) :
    (o.getD d).Within σ := by
  cases o with
  | none => exact hd
  | some v => exact h v rfl

theorem within_orElse {o o' : Option Value} (h : ∀ v ∈ o, v.Within σ) (h' : ∀ v ∈ o', v.Within σ) :
    ∀ v ∈ o <|> o', v.Within σ := by
  cases o with
  | none => exact h'
  | some v => exact h

theorem within_ofPositional? {c : NodeClass} {values : List Value} {named given : Arguments}
    (hvalues : ∀ v ∈ values, v.Within σ) (hnamed : named.Within σ)
    (h : ofPositional? c values named = some given) : given.Within σ := by
  unfold ofPositional? at h
  split at h
  · cases h
    refine List.forall_mem_append.mpr ⟨fun a ha => hvalues _ ?_, hnamed⟩
    exact (List.of_mem_zip ha).2
  · cases h

end Arguments

/-! ## Rules -/

theorem within_lengthValue (n : Option Nat) : ∀ v ∈ lengthValue n, v.Within σ := by
  intro v hv
  obtain ⟨m, -, rfl⟩ := Option.map_eq_some_iff.mp hv
  trivial

theorem NumberRule.within_ofBounds {b : Bounds Value} (h : (Value.range b).Within σ) :
    ∀ e ∈ (NumberRule.ofBounds b).attributes, e.2.Within σ := by
  obtain ⟨hmin, hmax, -⟩ := Value.within_range.mp h
  simp only [NumberRule.attributes, List.forall_mem_cons, within_partValue]
  refine ⟨Value.within_none, Value.within_present hmin, Value.within_present hmax, ?_, ?_,
    List.forall_mem_nil _⟩
  all_goals
    dsimp only [NumberRule.ofBounds]
    split <;> simp

theorem NumberRule.within_override {r : NumberRule} (h : ∀ e ∈ r.attributes, e.2.Within σ)
    {args : Arguments} (hargs : args.Within σ) :
    ∀ e ∈ (r.override args).attributes, e.2.Within σ := by
  simp only [NumberRule.attributes, List.forall_mem_cons, within_partValue] at h ⊢
  obtain ⟨-, hmin, hmax, hminExclusive, hmaxExclusive, -⟩ := h
  exact ⟨Arguments.within_present hargs _,
    Arguments.within_orElse (Arguments.within_present hargs _) hmin,
    Arguments.within_orElse (Arguments.within_present hargs _) hmax,
    Arguments.within_orElse (Arguments.within_present hargs _) hminExclusive,
    Arguments.within_orElse (Arguments.within_present hargs _) hmaxExclusive,
    List.forall_mem_nil _⟩

theorem ArrayRule.within_ofLengths (b : LengthBounds) :
    ∀ e ∈ (ArrayRule.ofLengths b).attributes, e.2.Within σ := by
  simp only [ArrayRule.attributes, List.forall_mem_cons, within_partValue]
  exact ⟨within_lengthValue _, within_lengthValue _, Value.within_none, trivial, Value.within_none,
    trivial, List.forall_mem_nil _⟩

theorem Items.within_value (hrules : σ.rules) (items : Items) : items.value.Within σ := by
  cases items with
  | free => trivial
  | every id => exact hrules
  | each ids => exact Value.within_list.mpr (List.forall_mem_map.mpr fun _ _ => hrules)

theorem within_combinatorAttributes (hrules : σ.rules) (kind : CombinatorKind) (ids : List NodeId) :
    ∀ e ∈ combinatorAttributes kind ids, e.2.Within σ := by
  have hids : (Value.listing (ids.map .node)).Within σ :=
    Value.within_list.mpr (List.forall_mem_map.mpr fun _ _ => hrules)
  cases kind <;> simp [combinatorAttributes, CombinatorKind.childrenName?, hids]

namespace Construction

variable {v : Value} {vs : List Value} {part : Option Value} {args : Arguments}

theorem stays_checkFormat (hrules : σ.rules) (format : Option Value) :
    (checkFormat format).Stays σ fun _ => True := by
  unfold checkFormat
  split
  · exact stays_pure trivial
  · exact stays_ite (fun _ => stays_pure trivial) fun _ => stays_refuse (.inl hrules)
  · exact (stays_valueText _).then fun _ => stays_refuse (.inl hrules)

theorem stays_patternSource (h : ∀ v ∈ part, v.Within σ) :
    (patternSource part).Stays σ fun source => ∀ v ∈ source, v.Within σ := by
  unfold patternSource
  split
  · exact stays_pure (by simp)
  · exact stays_pure h
  · exact (stays_attr (h _ rfl) _).bind fun v hv => stays_pure (Value.within_present hv)

theorem stays_allowedValues (h : ∀ v ∈ part, v.Within σ) :
    (allowedValues part).Stays σ fun allowed => ∀ xs ∈ allowed, ∀ x ∈ xs, x.Within σ := by
  unfold allowedValues
  split
  · exact stays_pure (by simp)
  · exact (stays_elements (h _ rfl)).bind fun xs hxs =>
      stays_pure fun ys hys => Option.some.inj hys ▸ hxs

theorem stays_lengths (hcall : call.Stays) (hrules : σ.rules) (h : ∀ v ∈ part, v.Within σ) :
    (lengths call part).Stays σ fun _ => True := by
  unfold lengths
  split
  · exact stays_pure trivial
  · exact Length.stays_bounds hcall (.inl hrules) (h _ rfl)

theorem stays_stringRule (hcall : call.Stays) (hrules : σ.rules) (h : args.Within σ) :
    (stringRule call args).Stays σ fun r => ∀ e ∈ r.attributes, e.2.Within σ := by
  have hpresent := fun p => Arguments.within_present h p
  refine (stays_checkFormat hrules _).then fun _ =>
    (stays_patternSource (hpresent _)).bind fun pattern hpattern =>
    (stays_allowedValues (hpresent _)).bind fun allowed hallowed =>
    (stays_lengths hcall hrules (hpresent _)).then fun b => stays_pure ?_
  simp only [StringRule.attributes, List.forall_mem_cons, within_partValue, within_listValue]
  exact ⟨hpresent _, hpattern, Arguments.within_orElse (hpresent _) (within_lengthValue _),
    Arguments.within_orElse (hpresent _) (within_lengthValue _), hallowed,
    List.forall_mem_nil _⟩

theorem stays_numberRange (hcall : call.Stays) (hrules : σ.rules) (hv : v.Within σ) :
    (numberRange call v).Stays σ fun r => ∀ e ∈ r.attributes, e.2.Within σ := by
  refine (Predicate.stays_range hcall (.inl hrules) hv).bind fun b hb => ?_
  refine (stays_truth (Value.within_range.mp hb).2.2.2.2).then fun ofLength => ?_
  dsimp only
  split
  · exact stays_fail (.refused (.inl hrules) _)
  · exact stays_pure (NumberRule.within_ofBounds hb)

theorem stays_numberRule (hcall : call.Stays) (hrules : σ.rules) (h : args.Within σ) :
    (numberRule call args).Stays σ fun r => ∀ e ∈ r.attributes, e.2.Within σ := by
  have hrest : ∀ r : NumberRule, (∀ e ∈ r.attributes, e.2.Within σ) →
      (pure (r.override args) : Build NumberRule).Stays σ fun r =>
        ∀ e ∈ r.attributes, e.2.Within σ :=
    fun r hr => stays_pure (NumberRule.within_override hr h)
  unfold numberRule
  split
  · exact hrest _ (by simp [NumberRule.attributes, NumberRule.any, within_partValue])
  · exact (stays_numberRange hcall hrules (Arguments.within_present h _ _ ‹_›)).bind hrest

/-! ## Compiling raw values -/

theorem stays_ofPredicate (hcall : call.Stays) (hrules : σ.rules) (hv : v.Within σ) :
    (ofPredicate call v).Stays σ fun rule => ∀ e ∈ rule.attributes, e.2.Within σ := by
  refine (Predicate.stays_bounds hcall (.inl hrules) hv).bind fun b hb => ?_
  split
  · exact (Length.stays_bounds hcall (.inl hrules) hb).then fun lengths =>
      stays_pure (ArrayRule.within_ofLengths lengths)
  · exact stays_pure (NumberRule.within_ofBounds hb)

theorem stays_ruleOf (hcall : call.Stays) (hrules : σ.rules) (mode : LiteralMode)
    (hv : v.Within σ) :
    (ruleOf call mode v).Stays σ fun rule => ∀ e ∈ rule.attributes, e.2.Within σ := by
  unfold ruleOf
  split
  case h_1 r =>
    have hsource : ∀ v ∈ some (if r.onBytes then Value.bytes r.source else .text r.source),
        v.Within σ := by
      split <;> simp
    refine (stays_patternSource hsource).bind fun pattern hpattern => stays_pure ?_
    simp only [Rule.attributes, StringRule.attributes, List.forall_mem_cons, within_partValue,
      within_listValue]
    exact ⟨Value.within_none, hpattern, Value.within_none, Value.within_none, by simp [StringRule.any],
      List.forall_mem_nil _⟩
  case h_2 =>
    split
    · exact stays_pure (by simp [Rule.attributes, StringRule.attributes, StringRule.any,
        within_partValue, within_listValue])
    · exact stays_pure (by simp [Rule.attributes, StringRule.attributes, StringRule.any,
        within_partValue, within_listValue])
  case h_3 => exact stays_pure (by simp [Rule.attributes, within_listValue])
  case h_4 | h_5 =>
    exact stays_pure (by simp [Rule.attributes, NumberRule.attributes, NumberRule.any,
      within_partValue])
  case h_6 =>
    refine stays_ite (fun _ => stays_ofPredicate hcall hrules hv) fun _ => ?_
    exact (stays_typeName _).then fun _ => stays_refuse (.inl hrules)

end Construction

/-! ## The store -/

namespace Store

variable {s : Store}

theorem within_alloc (hs : s.Within σ) {node : Node} (h : node.Within σ) :
    (s.alloc node).1.Within σ :=
  List.forall_mem_append.mpr ⟨hs, List.forall_mem_singleton.mpr h⟩

theorem within_modifyObject (hs : s.Within σ) (id : NodeId) {f : ObjectRule → ObjectRule}
    (hf : ∀ r : ObjectRule, (∀ e ∈ r.attributes, e.2.Within σ) →
      ∀ e ∈ (f r).attributes, e.2.Within σ) : (s.modifyObject id f).Within σ := by
  unfold modifyObject
  split
  · rename_i r required hnode
    obtain ⟨hrequired, hr⟩ := hs _ (List.mem_of_getElem? hnode)
    intro node hmem
    rcases List.mem_or_eq_of_mem_set hmem with hold | rfl
    · exact hs node hold
    · exact ⟨hrequired, hf r hr⟩
  · exact hs

/-- An object rule in a store within reach. -/
theorem within_object? (hs : s.Within σ) {id : NodeId} {r : ObjectRule} (h : s.object? id = some r) :
    ∀ e ∈ r.attributes, e.2.Within σ := by
  unfold object? at h
  split at h
  · rename_i hnode
    cases h
    exact (hs _ (List.mem_of_getElem? hnode)).2
  · cases h

end Store

theorem Build.stays_alloc {rule : Rule} {required : Value}
    (h : ∀ e ∈ rule.attributes, e.2.Within σ) (hrequired : required.Within σ) :
    (alloc rule required).Stays σ fun _ => True := fun _ hw =>
  ⟨trivial, hw.vars, fun hrules => Store.within_alloc (hw.store hrules) ⟨hrequired, h⟩⟩

theorem Build.stays_modifyStore {f : Store → Store}
    (h : σ.rules → ∀ s : Store, s.Within σ → (f s).Within σ) :
    (modifyStore f).Stays σ fun _ => True := fun _ hw =>
  ⟨trivial, hw.vars, fun hrules => h hrules _ (hw.store hrules)⟩

namespace Construction

variable {v : Value} {vs : List Value} {part : Option Value} {args : Arguments}

theorem stays_compile (hcall : call.Stays) (hrules : σ.rules) (mode : LiteralMode)
    (hv : v.Within σ) : (compile call mode v).Stays σ fun _ => True := by
  unfold compile
  split
  · exact stays_pure trivial
  · exact (stays_ruleOf hcall hrules mode hv).bind fun rule hrule => stays_alloc hrule trivial

theorem stays_compileAll (hcall : call.Stays) (hrules : σ.rules) (h : ∀ v ∈ vs, v.Within σ) :
    (compileAll call vs).Stays σ fun _ => True := by
  induction vs with
  | nil => exact stays_pure trivial
  | cons v vs ih =>
    obtain ⟨hv, hrest⟩ := List.forall_mem_cons.mp h
    exact (stays_compile hcall hrules .enum hv).then fun _ => (ih hrest).then fun _ =>
      stays_pure trivial

/-! ## Rules with rules inside -/

theorem stays_itemsRule (hcall : call.Stays) (hrules : σ.rules) (h : ∀ v ∈ part, v.Within σ) :
    (itemsRule call part).Stays σ fun _ => True := by
  unfold itemsRule
  split
  · exact stays_pure trivial
  · exact (stays_compileAll hcall hrules (Value.within_list.mp (h _ rfl))).then fun _ =>
      stays_pure trivial
  · exact (stays_compileAll hcall hrules (Value.within_tuple.mp (h _ rfl))).then fun _ =>
      stays_pure trivial
  · exact (stays_compile hcall hrules .enum (h _ rfl)).then fun _ => stays_pure trivial

theorem stays_arrayRule (hcall : call.Stays) (hrules : σ.rules) (h : args.Within σ) :
    (arrayRule call args).Stays σ fun r => ∀ e ∈ r.attributes, e.2.Within σ := by
  have hpresent := fun p => Arguments.within_present h p
  refine (stays_lengths hcall hrules (hpresent _)).then fun b =>
    (stays_itemsRule hcall hrules (hpresent _)).then fun items => stays_pure ?_
  simp only [ArrayRule.attributes, List.forall_mem_cons, within_partValue]
  exact ⟨Arguments.within_orElse (hpresent _) (within_lengthValue _),
    Arguments.within_orElse (hpresent _) (within_lengthValue _), hpresent _,
    items.within_value hrules, hpresent _, trivial, List.forall_mem_nil _⟩

theorem stays_unlessFalse (h : ∀ v ∈ part, v.Within σ) :
    (unlessFalse part).Stays σ fun v => ∀ u ∈ v, u.Within σ := by
  unfold unlessFalse
  split
  · exact stays_pure (by simp)
  · refine (stays_truth (h _ rfl)).then fun t => stays_pure ?_
    split
    · exact h
    · simp

theorem stays_propertyEntries (h : ∀ v ∈ part, v.Within σ) :
    (propertyEntries part).Stays σ fun es => ∀ e ∈ es, e.1.Within σ ∧ e.2.Within σ := by
  refine (stays_unlessFalse h).bind fun v hv => ?_
  split
  · exact stays_pure (by simp)
  · exact stays_entriesOf (hv _ rfl)

theorem stays_distinctNames {names : List Value} (hnames : ∀ v ∈ names, v.Within σ)
    (h : ∀ v ∈ vs, v.Within σ) :
    (distinctNames names vs).Stays σ fun found => ∀ v ∈ found, v.Within σ := by
  induction vs generalizing names with
  | nil => exact stays_pure hnames
  | cons v vs ih =>
    obtain ⟨hv, hrest⟩ := List.forall_mem_cons.mp h
    refine (stays_among hv hnames).then fun known => ?_
    split
    · exact ih hnames hrest
    · exact ih (List.forall_mem_append.mpr ⟨hnames, List.forall_mem_singleton.mpr hv⟩) hrest

theorem stays_requiredNames (h : ∀ v ∈ part, v.Within σ) :
    (requiredNames part).Stays σ fun names => ∀ v ∈ names, v.Within σ := by
  refine (stays_unlessFalse h).bind fun v hv => ?_
  split
  · exact stays_pure (by simp)
  · exact (stays_elements (hv _ rfl)).bind fun xs hxs => stays_distinctNames (by simp) hxs

theorem stays_objectRule (h : args.Within σ) :
    (objectRule args).Stays σ fun r => ∀ e ∈ r.attributes, e.2.Within σ := by
  refine (stays_propertyEntries (Arguments.within_get? h _)).bind fun properties hproperties =>
    (stays_requiredNames (Arguments.within_get? h _)).bind fun required hrequired =>
    stays_pure (ObjectRule.within_attributes.mpr ?_)
  exact ⟨hproperties, hrequired, Arguments.within_present h _, fun hkind => absurd rfl hkind⟩

theorem within_builderRule (kind : ObjectKind) (h : args.Within σ) :
    ∀ e ∈ (builderRule kind args).attributes, e.2.Within σ := by
  have hmodel : ((args.get? .model).getD .null).Within σ :=
    Arguments.within_getD (Arguments.within_get? h _) trivial
  exact ObjectRule.within_attributes.mpr
    ⟨List.forall_mem_nil _, List.forall_mem_nil _, Arguments.within_present h _, fun _ => hmodel⟩

theorem stays_children (hcall : call.Stays) (hrules : σ.rules) (owner : NodeClass)
    (h : ∀ v ∈ part, v.Within σ) : (children call owner part).Stays σ fun _ => True := by
  unfold children
  split
  · exact stays_compileAll hcall hrules (Value.within_list.mp (h _ rfl))
  · exact stays_compileAll hcall hrules (Value.within_tuple.mp (h _ rfl))
  · exact (stays_typeName _).then fun _ => stays_refuse (.inl hrules)
  · exact stays_plain rfl

theorem stays_negated (hcall : call.Stays) (hrules : σ.rules) (owner : NodeClass)
    (h : ∀ v ∈ part, v.Within σ) : (negated call owner part).Stays σ fun _ => True := by
  unfold negated
  split
  · exact stays_compile hcall hrules .enum (h _ rfl)
  · exact stays_plain rfl

theorem stays_ruleFrom (hcall : call.Stays) (hrules : σ.rules) (c : NodeClass)
    (h : args.Within σ) :
    (ruleFrom call c args).Stays σ fun rule => ∀ e ∈ rule.attributes, e.2.Within σ := by
  have hpresent := fun p => Arguments.within_present h p
  have hchildren : ∀ kind, (Rule.combinator kind <$> children call c (args.get? .schemas)).Stays σ
      fun rule => ∀ e ∈ rule.attributes, e.2.Within σ := fun kind =>
    (stays_children hcall hrules c (Arguments.within_get? h _)).map fun ids _ =>
      within_combinatorAttributes hrules kind ids
  cases c with
  | string => exact (stays_stringRule hcall hrules h).map fun r hr => hr
  | number => exact (stays_numberRule hcall hrules h).map fun r hr => hr
  | boolean =>
    exact (stays_allowedValues (hpresent _)).map fun allowed hallowed =>
      List.forall_mem_singleton.mpr (within_listValue.mpr hallowed)
  | array => exact (stays_arrayRule hcall hrules h).map fun r hr => hr
  | object => exact (stays_objectRule h).map fun r hr => hr
  | combinator => exact hchildren .plain
  | anyOf => exact hchildren .anyOf
  | oneOf => exact hchildren .oneOf
  | allOf => exact hchildren .allOf
  | negation =>
    exact (stays_negated hcall hrules _ (Arguments.within_get? h _)).map fun id _ =>
      List.forall_mem_singleton.mpr hrules
  | schema => exact stays_pure (within_builderRule .schema h)
  | dictionary => exact stays_pure (within_builderRule .dictionary h)

theorem stays_construct (hcall : call.Stays) (hrules : σ.rules) (c : NodeClass)
    (h : args.Within σ) : (construct call c args).Stays σ fun _ => True :=
  (stays_ruleFrom hcall hrules c h).bind fun _ hrule =>
    stays_alloc hrule (Arguments.within_getD (Arguments.within_get? h _) trivial)

end Construction

end DraftSchema
