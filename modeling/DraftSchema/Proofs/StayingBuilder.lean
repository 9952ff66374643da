import DraftSchema.Proofs.StayingRule
import DraftSchema.Proofs.Undeclared

/-!
# Builders within reach

Written annotations are computed apart from everything that is built, and what is unknown in them
goes no further than the class that they belong to. Putting rules at paths, and writing them as
documents, meets refusals and faults that stem from what is asked for.
-/

namespace DraftSchema

variable {σ : Reach} {call : Caller}

/-! ## Annotations -/

namespace Reach

/-- What is within reach where annotations are read: no rules, no variables, and names that nothing
stands for. -/
def ofNames : Reach := ⟨fun f => f.kind = .name, False, False, fun _ => False⟩

theorem within_annotationSpace (models : Catalog) :
    (Build.annotationSpace models).Within ofNames := ⟨fun _ _ h => h.elim, fun h => h.elim⟩

end Reach

namespace TypeExpression

theorem within_value (c : Constant) : c.value.Within σ := by
  cases c <;> trivial

theorem within_of_ofScope? {scope name : String} {v : Value} (h : ofScope? scope name = some v) :
    v.Within σ := by
  unfold ofScope? at h
  repeat' split at h
  all_goals cases h
  all_goals trivial

theorem within_of_builtin? {name : String} {v : Value} (h : builtin? name = some v) :
    v.Within σ := by
  unfold builtin? at h
  repeat' split at h
  all_goals cases h
  all_goals trivial

theorem yields_named (c : Catalog) (name : String) :
    Reach.ofNames.Yields (·.Within σ) (named c name) := by
  unfold named
  split
  · trivial
  split
  · rename_i v hv
    rcases Option.or_eq_some_iff.mp hv with hv | ⟨-, hv⟩
    · exact within_of_ofScope? hv
    · exact within_of_builtin? hv
  · exact .inl rfl

end TypeExpression

namespace Build

theorem stays_firstOf {v : Value} (hv : v.Within σ) : (firstOf v).Stays σ (·.Within σ) := by
  unfold firstOf
  split
  · exact stays_pure hv
  · refine (stays_elements hv).bind fun xs hxs => ?_
    split
    · exact stays_pure (hxs _ List.mem_cons_self)
    · exact stays_plain rfl

mutual

/-- What an annotation comes to. -/
theorem stays_annotated (hcall : call.Stays) : (e : TypeExpression) →
    (annotated call e).Stays .ofNames (·.Within .ofNames)
  | .name s => by
    unfold annotated
    exact Stays.bind (P := fun _ => True) (fun _ hw => ⟨trivial, hw⟩) fun c _ =>
      stays_ofExcept (TypeExpression.yields_named c s)
  | .constant c => by
    unfold annotated
    exact stays_pure (TypeExpression.within_value c)
  | .attr target field => by
    unfold annotated
    exact (stays_annotated hcall target).bind fun v hv => stays_attr hv field
  | .item target key => by
    unfold annotated
    exact (stays_annotated hcall target).bind fun v hv =>
      (stays_annotated hcall key).bind fun k hk => stays_item hv hk
  | .call callee args => by
    unfold annotated
    exact (stays_annotated hcall callee).bind fun f hf =>
      (stays_annotatedAll hcall args).bind fun vs hvs => hcall .ofNames f vs hf hvs
  | .arith op left right => by
    unfold annotated
    exact (stays_annotated hcall left).bind fun a ha =>
      (stays_annotated hcall right).bind fun b hb => stays_arithmetic op ha hb
  | .mixed sign left right => by
    unfold annotated
    exact (stays_annotated hcall left).bind fun a _ =>
      (stays_annotated hcall right).bind fun b _ =>
        (stays_kindName a).then fun _ => (stays_kindName b).then fun _ => stays_plain rfl
  | .neg operand => by
    unfold annotated
    exact (stays_annotated hcall operand).bind fun v _ => stays_negate v
  | .plus operand => by
    unfold annotated
    exact (stays_annotated hcall operand).bind fun v _ =>
      (stays_negate v).bind fun u _ => stays_negate u
  | .complement operand => by
    unfold annotated
    refine (stays_annotated hcall operand).bind fun v _ => ?_
    split
    · exact stays_pure trivial
    · exact stays_plain rfl
  | .compare op left right => by
    unfold annotated
    exact (stays_annotated hcall left).bind fun a ha =>
      (stays_annotated hcall right).bind fun b hb => stays_compare op ha hb
  | .member element container => by
    unfold annotated
    exact (stays_annotated hcall element).bind fun v hv =>
      (stays_annotated hcall container).bind fun c hc =>
        (stays_contains hv hc).then fun _ => stays_pure trivial
  | .not operand => by
    unfold annotated
    exact (stays_annotated hcall operand).bind fun v hv =>
      (stays_truth hv).then fun _ => stays_pure trivial
  | .and left right => by
    unfold annotated
    refine (stays_annotated hcall left).bind fun v hv => (stays_truth hv).then fun t => ?_
    exact stays_ite (fun _ => stays_annotated hcall right) fun _ => stays_pure hv
  | .or left right => by
    unfold annotated
    refine (stays_annotated hcall left).bind fun v hv => (stays_truth hv).then fun t => ?_
    exact stays_ite (fun _ => stays_pure hv) fun _ => stays_annotated hcall right
  | .cond test yes no => by
    unfold annotated
    refine (stays_annotated hcall test).bind fun v hv => (stays_truth hv).then fun t => ?_
    exact stays_ite (fun _ => stays_annotated hcall yes) fun _ => stays_annotated hcall no
  | .first container => by
    unfold annotated
    exact (stays_annotated hcall container).bind fun v hv => stays_firstOf hv
  | .tuple parts => by
    unfold annotated
    exact (stays_annotatedAll hcall parts).bind fun vs hvs =>
      stays_pure (Value.within_tuple.mpr hvs)
  | .list parts => by
    unfold annotated
    exact (stays_annotatedAll hcall parts).bind fun vs hvs => stays_list hvs

theorem stays_annotatedAll (hcall : call.Stays) : (es : List TypeExpression) →
    (annotatedAll call es).Stays .ofNames fun vs => ∀ v ∈ vs, v.Within .ofNames
  | [] => by
    unfold annotatedAll
    exact stays_pure (by simp)
  | e :: es => by
    unfold annotatedAll
    exact (stays_annotated hcall e).bind fun v hv => (stays_annotatedAll hcall es).bind
      fun vs hvs => stays_pure (List.forall_mem_cons.mpr ⟨hv, hvs⟩)

end

/-- What a computation gives that is made apart. -/
theorem Stays.apart {α : Type} {Q : α → Prop} {b : Build α} (hb : b.Stays σ Q) {w : Workspace}
    (hw : w.Within σ) : σ.Yields Q (apart b w) := by
  have h := hb w hw
  unfold Build.apart
  cases hrun : b w with
  | ok a w₁ =>
    rw [hrun] at h
    exact h.1
  | error f w₁ =>
    rw [hrun] at h
    exact h.1

end Build

open Build

namespace Catalog

variable {s : Store} {read : String → Except Fault Value}

mutual

theorem yields_resolveType (hread : ∀ text, σ.Yields (fun _ => True) (read text)) :
    (t : TypeForm Value) → σ.Yields (fun _ => True) (resolveType s read t)
  | .list t => by
    unfold resolveType
    exact (yields_resolveType hread t).bind fun _ _ => trivial
  | .dict k v => by
    unfold resolveType
    exact (yields_resolveType hread k).bind fun _ _ =>
      (yields_resolveType hread v).bind fun _ _ => trivial
  | .generic name ts => by
    unfold resolveType
    exact (yields_resolveTypes hread ts).bind fun _ _ => trivial
  | .annotated t _ => by
    unfold resolveType
    exact yields_resolveType hread t
  | .union barred ts => by
    unfold resolveType
    refine (yields_resolveTypes hread ts).bind fun us _ => ?_
    split
    · trivial
    · exact (yields_choice s us).mono fun _ _ => trivial
  | .reference text => by
    unfold resolveType
    refine (hread text).bind fun v _ => ?_
    split <;> trivial
  | .other v => by
    cases v with
    | text text =>
      unfold resolveType
      refine (hread text).bind fun v _ => ?_
      split <;> trivial
    | _ => simp [resolveType, Reach.Yields]
  | .basic _ | .any | .model _ => by
    unfold resolveType
    trivial

theorem yields_resolveTypes (hread : ∀ text, σ.Yields (fun _ => True) (read text)) :
    (ts : List (TypeForm Value)) → σ.Yields (fun _ => True) (resolveTypes s read ts)
  | [] => by
    unfold resolveTypes
    trivial
  | t :: ts => by
    unfold resolveTypes
    exact (yields_resolveType hread t).bind fun _ _ =>
      (yields_resolveTypes hread ts).bind fun _ _ => trivial

end

theorem yields_resolve (hread : ∀ text, σ.Yields (fun _ => True) (read text))
    (hint : Value) : σ.Yields (fun _ => True) (resolve s read hint) := by
  unfold resolve
  split
  · trivial
  · exact hread _
  · exact (yields_resolveType hread _).map fun _ _ => trivial
  · trivial

theorem yields_resolveFields (hread : ∀ text, σ.Yields (fun _ => True) (read text))
    (found es : Entries String Value) :
    σ.Yields (fun _ => True) (resolveFields s read found es) := by
  induction es generalizing found with
  | nil => trivial
  | cons e es ih => exact (yields_resolve hread e.2).bind fun _ _ => ih _

section

variable (hread : ∀ text, Reach.ofNames.Yields (fun _ => True) (read text))

include hread

/-- What is unknown in the annotations of a class is no fault of looking for its fields. -/
theorem yields_fields (catalog : Catalog) (type : Value) :
    σ.Yields (fun _ => True) (catalog.fields s read type) := by
  unfold fields
  split
  · split
    · trivial
    · rename_i m hm
      have hfound := yields_resolveFields hread (s := s) [] (catalog.inherited m)
      split
      · trivial
      · rename_i f hf
        rw [hf] at hfound
        split
        · trivial
        · rename_i hknown
          -- an unknown name is not passed on, so that only what operations meet is left
          rcases hfound with hname | hplain | ⟨hrefuses, -⟩
          · exact absurd (by simp [isUnknown, show f.kind = .name from hname]) hknown
          · exact .plain hplain
          · exact absurd hrefuses (by simp [Reach.Refuses, Reach.ofNames])
  · trivial

theorem yields_check (hrules : σ.rules) {endless : Value → Prop}
    {label : Value → Except Fault String} (hlabel : ∀ v, Spellable (endless v) (label v)) (catalog : Catalog) (seen : List Value) (type : Value)
    (path : List Value) : σ.Yields (fun _ => True) (catalog.check s read label seen type path) := by
  -- along the path; each name leads from one class to the next
  induction path generalizing seen type with
  | nil => trivial
  | cons name rest ih =>
    refine (yields_fields hread catalog type).bind fun fields _ => ?_
    dsimp only
    split
    · rename_i f hf
      obtain ⟨v, -, rfl⟩ := Option.map_eq_some_iff.mp hf
      exact .plain rfl
    · split
      · exact ih _ _
      · exact (Reach.Yields.of_spellable (s.spellable_pointer _)).bind fun _ _ =>
          (Reach.Yields.of_spellable (s.spellable_valueText name)).bind fun _ _ =>
            (Reach.Yields.of_spellable (hlabel type)).bind (P := fun _ => True) fun _ _ =>
              .refused (.inl hrules) _

end

end Catalog

/-- What a written annotation stands for. -/
theorem Build.stays_meaningWithin (hcall : call.Stays) (fuel : Nat) (text : String) :
    (meaningWithin call fuel text).Stays .ofNames fun _ => True := by
  induction fuel generalizing text with
  | zero => exact stays_pure trivial
  | succ fuel ih =>
    unfold meaningWithin
    refine (stays_ofExcept (yields_read text)).bind fun e _ =>
      (stays_annotated hcall e).bind fun v hv =>
      (stays_fromStore fun s _ => yields_member s _ hv).bind fun t _ => fun w hw => ?_
    -- texts inside are read with less fuel, in a copy of this workspace
    have hread := fun text => (ih text).apart hw
    exact stays_ofExcept ((Catalog.yields_resolveType hread t).map fun _ _ => trivial) w hw

/-! ## Putting rules at paths -/

namespace Store

variable {s : Store} {v flag level name : Value} {path : List Value}

theorem isPlain_of_unhashable {f : Fault} (h : s.unhashable? name = some f) :
    f.isPlain = true := by
  obtain ⟨v, -, rfl⟩ := Option.map_eq_some_iff.mp h
  rfl

theorem allows_blocked (hrules : σ.rules) (v : Value) (path : List Value) :
    σ.Allows (s.blocked v path) := by
  have hshown := Reach.Yields.of_spellable (σ := σ) (s.spellable_valueText v)
  have hpointer := Reach.Yields.of_spellable (σ := σ) (s.spellable_pointer path)
  unfold blocked
  cases hv : s.valueText v with
  | error f =>
    rw [hv] at hshown
    exact hshown
  | ok shown =>
    cases hp : s.pointer path with
    | error f =>
      rw [hp] at hpointer
      exact hpointer
    | ok pointer => exact .refused (.inl hrules) _

theorem allows_conflict (hrules : σ.rules) (id : NodeId) (seen path : List Value) :
    ∀ f ∈ s.conflict? id seen path, σ.Allows f := by
  induction path generalizing id seen with
  | nil => simp [conflict?]
  | cons name rest ih =>
    cases rest with
    | nil => simp [conflict?]
    | cons next rest =>
      intro f hf
      rw [conflict?] at hf
      · split at hf
        · cases hf
          exact .plain (isPlain_of_unhashable ‹_›)
        split at hf
        · cases hf
        split at hf
        · exact ih _ _ f hf
        · cases hf
          exact allows_blocked hrules _ _
      · simp

theorem yields_holder (v : Value) (part : String) :
    σ.Yields (fun _ => True) (s.holder v part) := by
  unfold holder
  split
  · split
    · trivial
    · exact .plain (s.isPlain_missing _ _)
  · exact .plain (s.isPlain_missing _ _)

theorem within_child? (hs : s.Within σ) {id : NodeId} (h : s.child? id name = some v) :
    v.Within σ := by
  unfold child? at h
  split at h
  · rename_i r hr
    obtain ⟨u, hu, hpresent⟩ := Option.bind_eq_some_iff.mp h
    have hproperties := (ObjectRule.within_attributes.mp (within_object? hs hr)).1
    have hwithin := Value.within_of_get? (fun e he => (hproperties e he).2) hu
    exact Value.within_present hwithin v hpresent
  · cases h

theorem within_setProperty {r : ObjectRule} (hname : name.Within σ) (hv : v.Within σ)
    (h : ∀ e ∈ r.attributes, e.2.Within σ) :
    ∀ e ∈ (r.setProperty name v).attributes, e.2.Within σ := by
  obtain ⟨hproperties, hrest⟩ := ObjectRule.within_attributes.mp h
  exact ObjectRule.within_attributes.mpr ⟨Value.entries_set hproperties hname hv, hrest⟩

theorem within_addRequired {r : ObjectRule} (hname : name.Within σ)
    (h : ∀ e ∈ r.attributes, e.2.Within σ) :
    ∀ e ∈ (r.addRequired name).attributes, e.2.Within σ := by
  unfold ObjectRule.addRequired
  split
  · exact h
  · obtain ⟨hproperties, hrequired, hrest⟩ := ObjectRule.within_attributes.mp h
    exact ObjectRule.within_attributes.mpr ⟨hproperties,
      List.forall_mem_append.mpr ⟨hrequired, List.forall_mem_singleton.mpr hname⟩, hrest⟩

section

variable (hrules : σ.rules)

include hrules

theorem within_enter (hs : s.Within σ) (id : NodeId) (hname : name.Within σ) :
    (s.enter id name).1.Within σ ∧ (s.enter id name).2.Within σ := by
  unfold enter
  split
  · exact ⟨hs, within_child? hs ‹_›⟩
  · have hempty : ∀ e ∈ ObjectRule.empty.attributes, e.2.Within σ :=
      ObjectRule.within_attributes.mpr ⟨List.forall_mem_nil _, List.forall_mem_nil _, Value.within_none,
        fun hkind => absurd rfl hkind⟩
    have halloc : (s.alloc ⟨.object .empty, .bool true⟩).1.Within σ :=
      within_alloc hs ⟨trivial, hempty⟩
    exact ⟨within_modifyObject halloc id fun r hr => within_setProperty hname hrules hr, hrules⟩

theorem within_levels (hs : s.Within σ) (hv : v.Within σ) (hpath : ∀ x ∈ path, x.Within σ) :
    (s.levels v path).1.Within σ ∧
      σ.Yields (fun levels => ∀ x ∈ levels, x.Within σ) (s.levels v path).2 := by
  -- along the path; objects that were made on the way stay when a later level fails
  induction path generalizing s v with
  | nil => exact ⟨hs, by simp [levels, Reach.Yields]⟩
  | cons name rest ih =>
    cases rest with
    | nil => exact ⟨hs, by simpa [levels, Reach.Yields] using hv⟩
    | cons next rest =>
      obtain ⟨hname, hrest⟩ := List.forall_mem_cons.mp hpath
      have hholder := yields_holder (σ := σ) (s := s) v "properties"
      rw [levels]
      · split
        · rename_i h
          rw [h] at hholder
          exact ⟨hs, hholder⟩
        · exact ⟨hs, .plain (isPlain_of_unhashable ‹_›)⟩
        · rename_i id _ _
          obtain ⟨hs', hchild⟩ := within_enter hrules hs id hname
          obtain ⟨hstore, hlevels⟩ := ih hs' hchild hrest
          exact ⟨hstore, hlevels.map fun vs hvs => List.forall_mem_cons.mpr ⟨hv, hvs⟩⟩
      · simp

omit hrules in
theorem yields_putProperty (hs : s.Within σ) (hname : name.Within σ) (hv : v.Within σ) :
    σ.Yields (Store.Within σ) (s.putProperty level name v) := by
  refine (yields_holder level "properties").bind fun id _ => ?_
  dsimp only
  split
  · exact .plain (isPlain_of_unhashable ‹_›)
  · exact within_modifyObject hs id fun r hr => within_setProperty hname hv hr

theorem yields_listRequired (hs : s.Within σ) (hname : name.Within σ) :
    σ.Yields (Store.Within σ) (s.listRequired flag level name) := by
  unfold listRequired
  split
  · exact .refused (.inl hrules) _
  · exact hs
  · refine (yields_holder level "add_required").bind fun id _ => ?_
    dsimp only
    split
    · exact .refused (.inl hrules) _
    · exact within_modifyObject hs id fun r hr => within_addRequired hname hr

theorem within_place (hs : s.Within σ) (hv : v.Within σ) {levels : List Value}
    (hpath : ∀ x ∈ path, x.Within σ) :
    (s.place flag v levels path).1.Within σ ∧
      σ.Yields (fun _ => True) (s.place flag v levels path).2 := by
  -- level by level; what was put before a failure stays, so the store is within reach either way
  induction levels generalizing s path with
  | nil =>
    cases path <;> exact ⟨hs, trivial⟩
  | cons level levels ih =>
    cases path with
    | nil => exact ⟨hs, trivial⟩
    | cons name rest =>
      obtain ⟨hname, hrest⟩ := List.forall_mem_cons.mp hpath
      have hput : σ.Yields (Store.Within σ)
          (if rest.isEmpty then s.putProperty level name v else .ok s) := by
        split
        · exact yields_putProperty hs hname hv
        · exact hs
      rw [place]
      split
      · rename_i h
        rw [h] at hput
        exact ⟨hs, hput⟩
      · rename_i s' h
        rw [h] at hput
        have hlisted : σ.Yields (Store.Within σ) (s'.listRequired flag level name) :=
          yields_listRequired hrules hput hname
        split
        · rename_i h'
          rw [h'] at hlisted
          exact ⟨hput, hlisted⟩
        · rename_i h'
          rw [h'] at hlisted
          exact ih hlisted hrest

theorem within_put (hs : s.Within σ) (id : NodeId) (hv : v.Within σ)
    (hpath : ∀ x ∈ path, x.Within σ) :
    (s.put id path flag v).1.Within σ ∧ σ.Yields (fun _ => True) (s.put id path flag v).2 := by
  obtain ⟨hstore, hlevels⟩ := within_levels hrules (v := .node id) hs hrules hpath
  unfold put
  split
  · rename_i s' f h
    rw [h] at hstore hlevels
    exact ⟨hstore, hlevels⟩
  · rename_i s' levels h
    rw [h] at hstore
    exact within_place hrules hstore hv hpath

end

end Store

/-! ## Documents as texts -/

namespace Json

variable {kindName typeName : Value → String}

theorem yields_ofIndent (indent : Value) :
    σ.Yields (fun _ => True) (Layout.ofIndent kindName indent) := by
  unfold Layout.ofIndent
  split
  · trivial
  · trivial
  · split
    · exact .plain rfl
    split
    · exact .plain rfl
    split
    · exact .plain rfl
    · trivial

theorem yields_nameChars (key : Value) : σ.Yields (fun _ => True) (nameChars typeName key) := by
  unfold nameChars
  dsimp only
  split
  case h_4 n => exact .of_spellable ((spellable_chars False n).map _)
  case h_6 => exact .plain rfl
  all_goals trivial

mutual

theorem yields_chars (layout : Layout) (depth : Nat) : (v : Value) →
    σ.Yields (fun _ => True) (chars typeName layout depth v)
  | .int n => by
    unfold chars
    exact .of_spellable (spellable_chars False n)
  | .list _ xs | .tuple xs => by
    unfold chars
    exact (yields_elementChars layout (depth + 1) xs).bind fun _ _ => trivial
  | .dict _ es => by
    unfold chars
    exact (yields_memberChars layout (depth + 1) es).bind fun _ _ => trivial
  | .null | .bool _ | .float _ | .text _ => by
    unfold chars
    trivial
  | .bytes _ | .regex _ | .function .. | .range _ | .node _ | .type _ | .nodeClass _
  | .builtin _ | .foreign .. | .sized _ | .recorder .. | .operand .. | .comparison ..
  | .method .. | .classMethod .. => by
    unfold chars
    exact .plain rfl

theorem yields_elementChars (layout : Layout) (depth : Nat) : (xs : List Value) →
    σ.Yields (fun _ => True) (elementChars typeName layout depth xs)
  | [] => by
    unfold elementChars
    trivial
  | x :: xs => by
    unfold elementChars
    exact (yields_chars layout depth x).bind fun _ _ =>
      (yields_elementChars layout depth xs).bind fun _ _ => trivial

theorem yields_memberChars (layout : Layout) (depth : Nat) : (es : List (Value × Value)) →
    σ.Yields (fun _ => True) (memberChars typeName layout depth es)
  | [] => by
    unfold memberChars
    trivial
  | (k, x) :: es => by
    unfold memberChars
    exact (yields_nameChars k).bind fun _ _ => (yields_chars layout depth x).bind fun _ _ =>
      (yields_memberChars layout depth es).bind fun _ _ => trivial

end

end Json

/-! ## Builders -/

namespace Builder

variable {v selector value name : Value} {path : List Value}

theorem stays_say (message : String) : (say message).Stays σ fun _ => True := fun _ hw =>
  ⟨trivial, hw.vars, hw.store⟩

theorem stays_nodeText (id : NodeId) :
    (fromStore fun s => s.nodeText id).Stays σ fun _ => True :=
  stays_spellable fun s => s.spellable_nodeText id

theorem isPlain_missing (s : Store) (v : Value) (operation : String) :
    (missing s v operation).isPlain = true := by
  unfold missing
  split
  · rfl
  · rfl
  · exact s.isPlain_missing v operation

theorem stays_builder (v : Value) (operation : String) :
    (builder v operation).Stays σ fun _ => True := by
  refine stays_store.bind fun s _ => ?_
  split
  · exact stays_ite (fun _ => stays_pure trivial) fun _ => stays_plain (isPlain_missing s _ _)
  · exact stays_plain (isPlain_missing s _ _)

/-- A path that the model of a builder does not declare is refused. -/
theorem stays_checkModel (hcall : call.Stays) (hrules : σ.rules) (id : NodeId)
    (path : List Value) : (checkModel call id path).Stays σ fun _ => True := by
  intro w hw
  unfold checkModel
  cases (modelOf w.store id).present with
  | none => exact ⟨trivial, hw⟩
  | some model =>
    have hread := fun text => (stays_meaningWithin hcall textDepth text).apart
      (Reach.within_annotationSpace w.models)
    exact stays_ofExcept
      (Catalog.yields_check hread hrules (spellable_modelLabel w.store) _ _ _ _) w hw

theorem stays_setAdditional (hrules : σ.rules) (id node : NodeId) :
    (setAdditional id node).Stays σ fun _ => True := by
  refine (stays_nodeText node).then fun shown => stays_store.bind fun s _ =>
    (stays_say _).then fun _ => stays_modifyStore fun _ s hs =>
      Store.within_modifyObject hs id fun r hr => ?_
  obtain ⟨hproperties, hrequired, -, hmodel⟩ := ObjectRule.within_attributes.mp hr
  exact ObjectRule.within_attributes.mpr
    ⟨hproperties, hrequired, fun v hv => Option.some.inj hv ▸ hrules, hmodel⟩

theorem stays_place (hrules : σ.rules) (id : NodeId) (hpath : ∀ x ∈ path, x.Within σ)
    (node : NodeId) : (place id path node).Stays σ fun _ => True := by
  refine stays_store.bind fun s hs => ?_
  split
  · rename_i f hf
    exact stays_fail (Store.allows_conflict hrules id [] path f hf)
  · have hnode : (Value.node node).Within σ := hrules
    obtain ⟨hstore, hplaced⟩ : (s.put id path (s.requirement node) (.node node)).1.Within σ ∧
        σ.Yields (fun _ => True) (s.put id path (s.requirement node) (.node node)).2 :=
      Store.within_put hrules (hs hrules) id hnode hpath
    exact (stays_modifyStore fun _ _ _ => hstore).then fun _ => stays_ofExcept hplaced

theorem stays_putRule (hcall : call.Stays) (hrules : σ.rules) (id : NodeId)
    (hpath : ∀ x ∈ path, x.Within σ) (node : NodeId) :
    (putRule call id path node).Stays σ fun _ => True :=
  (stays_checkModel hcall hrules id path).then fun _ =>
    (stays_place hrules id hpath node).then fun _ => (stays_nodeText node).then fun _ =>
    (stays_spellable fun s => s.spellable_pointer path).then fun _ => stays_say _

theorem stays_add (hcall : call.Stays) (hrules : σ.rules) (id : NodeId)
    (hselector : selector.Within σ) (hvalue : value.Within σ) :
    (add call id selector value).Stays σ fun _ => True := by
  have hresolve : (resolve call selector value).Stays σ fun r => ∀ x ∈ r.1, x.Within σ :=
    (Selector.stays_path hcall hselector).bind fun path hpath =>
      (Construction.stays_compile hcall hrules .pattern hvalue).then fun _ => stays_pure hpath
  refine hresolve.bind fun r hpath => ?_
  exact stays_ite (fun _ => stays_setAdditional hrules id _) fun _ =>
    stays_putRule hcall hrules id hpath _

theorem within_withDraft (h : v.Within σ) : (withDraft v).Within σ := by
  unfold withDraft
  split
  · refine Value.within_dict.mpr (Value.entries_foldl_set ?_ (Value.within_dict.mp h))
    simp
  · exact h

theorem stays_build (hrules : σ.rules) (id : NodeId) : (build id).Stays σ (·.Within σ) :=
  (stays_fromStore fun s hs => s.yields_document hrules hs id).bind fun _ hdocument =>
    (stays_nodeText id).then fun _ => (stays_say _).then fun _ =>
      stays_pure (within_withDraft hdocument)

theorem stays_json (hrules : σ.rules) (id : NodeId) (indent : Value) :
    (json id indent).Stays σ fun _ => True :=
  (stays_build hrules id).bind fun document _ =>
    (stays_fromStore fun _ _ => Json.yields_ofIndent indent).then fun layout =>
      stays_fromStore fun _ _ => (Json.yields_chars layout 0 document).map fun _ _ => trivial

theorem stays_require (hrules : σ.rules) (hname : name.Within σ) (v : Value) :
    (require v name).Stays σ fun _ => True := by
  refine stays_store.bind fun s hs => ?_
  split
  · split
    · exact stays_plain (s.isPlain_missing _ _)
    · rename_i r hr
      have hold := ObjectRule.within_attributes.mp (Store.within_object? (hs hrules) hr)
      refine (Construction.stays_distinctNames hold.2.1 (List.forall_mem_singleton.mpr hname)).bind
        fun required hrequired => (stays_modifyStore fun _ s hs =>
          Store.within_modifyObject hs _ fun r hr => ?_).then fun _ => stays_pure trivial
      obtain ⟨hproperties, -, hrest⟩ := ObjectRule.within_attributes.mp hr
      exact ObjectRule.within_attributes.mpr ⟨hproperties, hrequired, hrest⟩
  · exact stays_plain (s.isPlain_missing _ _)

end Builder

end DraftSchema
