import DraftSchema.Proofs.History
import DraftSchema.Proofs.Legible

/-!
# Assembled rules

Rules that are assembled from raw values, combinations, arrays and builders by calls on the builders
are tidy, whatever else is done that concerns no rule. So each of them that is acyclic has a document
of the shape of documents, and a builder is built to just this document with its draft in front.
-/

namespace DraftSchema

open Draft04

/-! ## Rules that are made -/

/-- What the rules of a class are made from that is put together of others: the length and the
elements of an array, the rules that a combination is of, and the model of a builder. -/
def NodeClass.assembled : NodeClass → List Parameter
  | .array => [.length, .items, .required]
  | .anyOf | .oneOf | .allOf => [.schemas, .required]
  | .negation => [.schema, .required]
  | .schema | .dictionary => [.model, .required]
  | _ => []

/-- Arguments that a rule is assembled from, of a class for which this can be. -/
structure Arguments.Assemble (c : NodeClass) (args : Arguments) : Prop where
  composite : c.assembled ≠ []
  parts : ∀ a ∈ args, a.1 ∈ c.assembled

namespace Construction

open Build

variable {call : Caller} {mode : LiteralMode} {c : NodeClass} {args : Arguments} {v : Value}
  {rule : Rule} {w w₁ : Workspace} {names : Value → Prop} {bound : Nat}

theorem present_of_assemble (h : args.Assemble c) {p : Parameter} (hp : p ∉ c.assembled) :
    args.present p = none := by
  have hnone : args.find? (fun a => a.1 = p) = none := by
    refine List.find?_eq_none.mpr fun a ha hap => hp ?_
    rw [← of_decide_eq_true hap]
    exact h.parts a ha
  rw [Arguments.present, Arguments.get?, hnone]
  rfl

theorem additional_of_assemble (h : args.Assemble c) (hc : c = .schema ∨ c = .dictionary) :
    args.present .additionalProperties = none :=
  present_of_assemble h (by rcases hc with rfl | rfl <;> decide)

/-- An object is assembled as a builder. -/
theorem builderRule_of_ruleFrom {r : ObjectRule} (h : ruleFrom call c args w = .ok (.object r) w₁)
    (hargs : args.Assemble c) :
    ∃ kind, (c = .schema ∨ c = .dictionary) ∧ r = builderRule kind args := by
  cases c with
  | string | number | boolean | object | combinator => exact absurd rfl hargs.composite
  | array | anyOf | oneOf | allOf | negation =>
    obtain ⟨made, w₂, -, h⟩ := bind_eq_ok.mp h
    cases h
  | schema =>
    cases h
    exact ⟨.schema, .inl rfl, rfl⟩
  | dictionary =>
    cases h
    exact ⟨.dictionary, .inr rfl, rfl⟩

/-- An object is assembled without a rule for every key. -/
theorem additional_of_ruleFrom {r : ObjectRule} (h : ruleFrom call c args w = .ok (.object r) w₁)
    (hargs : args.Assemble c) : r.additional = none := by
  obtain ⟨kind, hc, rfl⟩ := builderRule_of_ruleFrom h hargs
  exact additional_of_assemble hargs hc

/-- An array is made with the lengths and the elements that are given. -/
theorem tidy_of_arrayRule {r : ArrayRule} (h : arrayRule call args w = .ok r w₁)
    (hargs : args.Assemble .array) (hknown : ∀ x ∈ r.items.children, x < bound) :
    (Rule.array r).Tidy names bound := by
  obtain ⟨b, w₂, -, h⟩ := bind_eq_ok.mp h
  obtain ⟨items, w₃, -, h⟩ := bind_eq_ok.mp h
  cases h
  have habsent : ∀ p ∈ [Parameter.minItems, .maxItems, .uniqueItems, .additionalItems],
      args.present p = none := by
    intro p hp
    refine present_of_assemble hargs ?_
    simp only [List.mem_cons, List.not_mem_nil, or_false] at hp
    rcases hp with rfl | rfl | rfl | rfl <;> decide
  have htidy : (Rule.array { ArrayRule.ofLengths b with items }).Tidy names bound := .array hknown
  rw [habsent .minItems (by simp), habsent .maxItems (by simp), habsent .uniqueItems (by simp),
    habsent .additionalItems (by simp)]
  exact htidy

/-- A rule that is assembled is tidy. -/
theorem tidy_of_ruleFrom (h : ruleFrom call c args w = .ok rule w₁) (hargs : args.Assemble c)
    (hknown : ∀ x ∈ rule.references, x < bound) : rule.Tidy names bound := by
  have hbuilder : ∀ kind, (c = .schema ∨ c = .dictionary) →
      (Rule.object (builderRule kind args)).Tidy names bound := by
    intro kind hc
    refine .object (fun k v hv => absurd hv List.not_mem_nil) (fun v hv => ?_)
      (fun k hk => absurd hk List.not_mem_nil) fun name hname => absurd hname List.not_mem_nil
    rw [builderRule, additional_of_assemble hargs hc] at hv
    cases hv
  cases c with
  | string | number | boolean | object | combinator => exact absurd rfl hargs.composite
  | array =>
    obtain ⟨r, w₂, hr, h⟩ := bind_eq_ok.mp h
    cases h
    exact tidy_of_arrayRule hr hargs fun x hx => hknown x (by simp [Rule.references, hx])
  | anyOf | oneOf | allOf =>
    obtain ⟨children, w₂, -, h⟩ := bind_eq_ok.mp h
    cases h
    exact .combinator (fun h => by cases h) fun x hx => hknown x (by simp [Rule.references, hx])
  | negation =>
    obtain ⟨child, w₂, -, h⟩ := bind_eq_ok.mp h
    cases h
    exact .negation (hknown child (by simp [Rule.references]))
  | schema =>
    cases h
    exact hbuilder .schema (.inl rfl)
  | dictionary =>
    cases h
    exact hbuilder .dictionary (.inr rfl)

/-- The rule that a predicate describes is tidy. -/
theorem tidy_of_ofPredicate (h : ofPredicate call v w = .ok rule w₁) : rule.Tidy names bound := by
  obtain ⟨b, w₂, hb, h⟩ := bind_eq_ok.mp h
  obtain ⟨result, hresult⟩ := ofResult?_of_bounds hb
  split at h
  · obtain ⟨lengths, w₃, -, h⟩ := bind_eq_ok.mp h
    cases h
    have htidy : (Rule.array { ArrayRule.ofLengths lengths with items := .free }).Tidy names bound :=
      .array fun x hx => absurd hx List.not_mem_nil
    exact htidy
  · cases h
    obtain ⟨x, hx, hmin, hmax⟩ := Predicate.bound_of_ofResult? hresult
    exact .number (hmin.imp_left fun h => (congrArg _ h).trans hx)
      (hmax.imp_left fun h => (congrArg _ h).trans hx)

/-- The rule that a raw value stands for is tidy. -/
theorem tidy_of_ruleOf (h : ruleOf call mode v w = .ok rule w₁) : rule.Tidy names bound := by
  unfold ruleOf at h
  split at h
  case h_1 r =>
    cases hbytes : r.onBytes with
    | false =>
      rw [hbytes] at h
      cases h
      exact .pattern r.source
    | true =>
      rw [hbytes] at h
      cases h
  case h_2 s =>
    cases mode with
    | enum =>
      cases h
      exact .literal s
    | pattern =>
      cases h
      exact .pattern (Pattern.exact s)
  case h_3 b =>
    cases h
    exact .truth b
  case h_4 n =>
    cases h
    exact .number (b := ⟨.int n, .int n, .bool false, .bool false, .bool false⟩) (.inl rfl) (.inl rfl)
  case h_5 x =>
    cases h
    exact .number (b := ⟨.float x, .float x, .bool false, .bool false, .bool false⟩) (.inl rfl)
      (.inl rfl)
  case h_6 =>
    split at h
    · exact tidy_of_ofPredicate h
    · obtain ⟨type, w₂, -, h⟩ := bind_eq_ok.mp h
      cases h

end Construction

/-! ## Tidy stores -/

/-- What calls put into a tidy object keeps it tidy. -/
theorem ObjectRule.Stocked.tidy {names given : Value → Prop} {node : NodeId} {bound bound' : Nat}
    {every : Prop} {r r' : ObjectRule} (h : r.Stocked given node bound' every r')
    (hr : (Rule.object r).Tidy names bound) (hle : bound ≤ bound') (hnode : node < bound')
    (hgiven : ∀ k, given k → names k) (hcovered : r'.Covered) :
    (Rule.object r').Tidy names bound' := by
  cases hr.mono hle with
  | object properties additional required =>
    refine .object (fun k v hv => ?_) (fun v hv => ?_) (fun k hk => ?_) hcovered
    · rcases h.entries k v hv with hold | ⟨hnew, c, rfl, hc⟩
      · exact properties k v hold
      · refine ⟨?_, c, hc.elim (fun h => h ▸ hnode) id, rfl⟩
        rcases hnew with hkey | hname
        · obtain ⟨v, hv⟩ := Entries.mem_keys.mp hkey
          exact (properties k v hv).1
        · exact hgiven k hname
    · rcases h.additional with hsame | ⟨-, hset⟩
      · exact additional v (hsame ▸ hv)
      · cases hset.symm.trans hv
        exact ⟨node, hnode, rfl⟩
    · exact (h.required k hk).elim (required k) (hgiven k)

namespace Store

variable {names : Value → Prop} {s s' : Store}

theorem tidy_empty : Store.Tidy names {} := by
  intro id node h
  cases h

theorem tidy_object_empty (bound : Nat) : (Rule.object .empty).Tidy names bound :=
  .object (fun _ _ h => absurd h List.not_mem_nil) nofun (fun _ h => absurd h List.not_mem_nil)
    ObjectRule.covered_empty

theorem Tidy.alloc {rule : Rule} (h : s.Tidy names) (hrule : rule.Tidy names s.size)
    (required : Value) : (s.alloc ⟨rule, required⟩).1.Tidy names := by
  intro id node hnode
  rw [size_alloc]
  rw [get?_alloc] at hnode
  split at hnode
  · cases hnode
    exact hrule.mono (Nat.le_succ _)
  · exact (h id node hnode).mono (Nat.le_succ _)

theorem Tidy.stocked {given : NodeId → Value → Prop} {node : NodeId} {every : Prop} (h : s.Tidy names)
    (hstocked : s.Stocked given node every s') (henlarged : s.Enlarged s') (hnode : node < s.size)
    (hgiven : ∀ x k, given x k → names k) : s'.Tidy names := by
  intro id node' hget
  cases hobject : s'.object? id with
  | none =>
    obtain ⟨-, hsame⟩ := hstocked.other id (lt_size_of_get? hget) hobject
    exact (h id node' (hsame ▸ hget)).mono hstocked.size
  | some r' =>
    obtain ⟨required, hget'⟩ := object?_eq_some.mp hobject
    cases hget'.symm.trans hget
    have hlt := hnode.trans_le hstocked.size
    cases hr : s.object? id with
    | none =>
      obtain ⟨-, hempty⟩ := hstocked.made id r' hr hobject
      exact hempty.tidy (tidy_object_empty s.size) hstocked.size hlt (hgiven id)
        ((henlarged.made id r' hr hobject).2.covered ObjectRule.covered_empty)
    | some r =>
      obtain ⟨found, hfound, hrr'⟩ := hstocked.kept id r hr
      cases hfound.symm.trans hobject
      obtain ⟨found, hfound, henlarged⟩ := henlarged.kept id r hr
      cases hfound.symm.trans hobject
      obtain ⟨flag, hold⟩ := object?_eq_some.mp hr
      have htidy := h id _ hold
      refine hrr'.tidy htidy hstocked.size hlt (hgiven id) (henlarged.covered ?_)
      cases htidy with
      | object _ _ _ covered => exact covered

end Store

/-! ## Assembling -/

open Build

/-- A course in which rules are assembled, from no rules on: from raw values, from other rules and by
calls on builders, under given names. Functions among the values that do anything else to rules do
not take part. -/
inductive Assembly (call : Caller) (names : Value → Prop) : Workspace → Prop
  | start {w : Workspace} (empty : w.store = {}) : Assembly call names w
  /-- Something that concerns no rule. -/
  | aside {w w' : Workspace} (before : Assembly call names w) (same : w'.store = w.store) :
      Assembly call names w'
  /-- A rule is made of rules that are there. -/
  | construct {w w₁ w' : Workspace} {c : NodeClass} {args : Arguments} {rule : Rule} {id : NodeId}
      (given : args.Assemble c)
      (described : Construction.ruleFrom call c args w = .ok rule w₁)
      (before : Assembly call names w₁) (known : ∀ x ∈ rule.references, x < w₁.store.size)
      (put : alloc rule args.required w₁ = .ok id w') : Assembly call names w'
  /-- A rule is made from a raw value. -/
  | compile {w w₁ w' : Workspace} {mode : LiteralMode} {value : Value} {rule : Rule} {id : NodeId}
      (described : Construction.ruleOf call mode value w = .ok rule w₁)
      (before : Assembly call names w₁) (put : alloc rule (.bool true) w₁ = .ok id w') :
      Assembly call names w'
  /-- A builder is called, once it is known what the call stands for. The call may fail. -/
  | add {w w₁ : Workspace} {id node : NodeId} {selector value : Value} {path : List Value}
      (resolved : Builder.resolve call selector value w = .ok (path, node) w₁)
      (before : Assembly call names w₁) (known : node < w₁.store.size) (named : ∀ k ∈ path, names k) :
      Assembly call names ((Builder.add call id selector value).after w)

namespace Assembly

variable {call : Caller} {names names' : Value → Prop} {w w₁ : Workspace}

theorem mono (h : Assembly call names w) (hnames : ∀ k, names k → names' k) :
    Assembly call names' w := by
  induction h with
  | start empty => exact .start empty
  | aside _ same ih => exact .aside ih same
  | construct given described _ known put ih => exact .construct given described ih known put
  | compile described _ put ih => exact .compile described ih put
  | add resolved _ known named ih => exact .add resolved ih known fun k hk => hnames k (named k hk)

/-- To find out what a call without functions stands for makes a rule at most. -/
theorem resolve {selector value : Value} {path : List Value} {node : NodeId}
    (h : Assembly call names w) (hs : selector.isCallable = false) (hv : value.isCallable = false)
    (hres : Builder.resolve call selector value w = .ok (path, node) w₁) :
    Assembly call names w₁ := by
  rcases Builder.resolve_cases hs hv hres with rfl | ⟨rule, hrule, halloc⟩
  · exact h
  · exact .compile hrule h halloc

/-- Assembled rules are tidy. -/
theorem tidy (h : Assembly call names w) : w.store.Tidy names := by
  induction h with
  | start empty =>
    rw [empty]
    exact Store.tidy_empty
  | aside _ same ih =>
    rw [same]
    exact ih
  | construct given described _ known put ih =>
    cases put
    exact ih.alloc (Construction.tidy_of_ruleFrom described given known) _
  | compile described _ put ih =>
    cases put
    exact ih.alloc (Construction.tidy_of_ruleOf described) _
  | add resolved _ known named ih =>
    exact ih.stocked (Builder.stocked_add _ resolved) (Builder.enlarged_add resolved) known
      fun x k hk => named k hk.1

/-- What is in sight of assembled objects is legible if their names can be shown. -/
theorem shown (h : Assembly call Value.Showable w) : w.store.Shown := by
  induction h with
  | start empty =>
    rw [empty]
    exact Store.shown_empty
  | aside _ same ih =>
    rw [same]
    exact ih
  | @construct w w₁ w' c args rule id given described before known put ih =>
    have hafter := (Assembly.construct given described before known put).tidy
    cases put
    refine ih.alloc before.tidy hafter fun r hr => ?_
    subst hr
    exact Construction.additional_of_ruleFrom described given
  | @compile w w₁ w' mode value rule id described before put ih =>
    have hafter := (Assembly.compile described before put).tidy
    cases put
    refine ih.alloc before.tidy hafter fun r hr => ?_
    subst hr
    exact absurd described Construction.ruleOf_ne_object
  | @add w w₁ id node selector value path resolved before known named ih =>
    have hcalled : Assembly call Value.Showable ((Builder.add call id selector value).after w) :=
      .add resolved before known named
    have hafter := hcalled.tidy
    exact ih.stocked before.tidy hafter (Builder.stocked_add _ resolved) known And.right

end Assembly

/-! ## Documents of assembled rules -/

namespace Builder

variable {call : Caller} {names : Value → Prop} {w : Workspace} {id : NodeId}

/-- An assembled rule that is acyclic has a document of the shape of documents, at every depth. If it
is a builder, and the names of properties can be shown, it is built to its draft followed by the
members of its document. -/
theorem document_shaped (h : Assembly call names w) (hid : id < w.store.size)
    (ha : w.store.Acyclic id) :
    ∃ members, w.store.document id = .ok (.record members) ∧ Shaped (.record members) ∧
      ((∀ k, names k → k.Showable) → isBuilder w.store id = true →
        ∃ w', build id w = .ok (.record ((Keyword.schema.text, .text draft04) :: members)) w') := by
  obtain ⟨d, hd, hshaped⟩ := h.tidy.document hid ha
  have hself := hshaped
  cases hshaped with
  | @mk members shape =>
    refine ⟨members, hd, hself, fun hnames hbuilder => ?_⟩
    have hcourse := h.mono hnames
    obtain ⟨r, hr, -⟩ := object?_of_isBuilder hbuilder
    obtain ⟨text, htext⟩ := hcourse.tidy.shown_of_readable ha.shallow hid (hcourse.shown id r hr)
    refine ⟨_, ok_of_result ?_⟩
    rw [result_build, hd, ← withDraft_of_shape shape, Store.nodeText, htext]
    rfl

/-- A builder without rules is assembled. -/
theorem assembly_alone (names : Value → Prop) : Assembly Build.call names alone :=
  have made : Construction.construct Build.call .schema [] {} = .ok 0 { alone with vars := [] } :=
    rfl
  have given : Arguments.Assemble .schema [] := ⟨by decide, by simp⟩
  .aside (.construct (w := {}) given rfl (.start rfl) (by decide) made) rfl

/-- A first call with a path of two names. -/
theorem document_shaped_nested :
    ∃ w members w', add Build.call 0 (.list 0 [.text "a", .text "b"]) (.int 1) alone = .ok () w ∧
      w.store.document 0 = .ok (.record members) ∧ Shaped (.record members) ∧
      build 0 w = .ok (.record ((Keyword.schema.text, .text draft04) :: members)) w' := by
  obtain ⟨w, w₁, hadd, hres, hknown, hid, hbuilder, hacyclic⟩ : ∃ w w₁,
      add Build.call 0 (.list 0 [.text "a", .text "b"]) (.int 1) alone = .ok () w ∧
      resolve Build.call (.list 0 [.text "a", .text "b"]) (.int 1) alone
        = .ok ([.text "a", .text "b"], 1) w₁ ∧ 1 < w₁.store.size ∧ 0 < w.store.size ∧
        isBuilder w.store 0 = true ∧ w.store.Acyclic 0 :=
    ⟨_, _, rfl, rfl, by decide, by decide, rfl,
      Store.acyclic_of_rank (fun id => if id = 0 then 2 else if id = 2 then 1 else 0) (by decide) 0⟩
  have htexts : ∀ k ∈ [Value.text "a", .text "b"], k.Showable := by
    intro k hk
    simp only [List.mem_cons, List.not_mem_nil, or_false] at hk
    rcases hk with rfl | rfl <;> exact Value.showable_text _
  have hcourse : Assembly Build.call Value.Showable
      ((add Build.call 0 (.list 0 [.text "a", .text "b"]) (.int 1)).after alone) :=
    .add hres ((assembly_alone Value.Showable).resolve rfl rfl hres) hknown htexts
  rw [after_of_ok hadd] at hcourse
  obtain ⟨members, hdocument, hshaped, hbuild⟩ := document_shaped hcourse hid hacyclic
  obtain ⟨w', hbuild⟩ := hbuild (fun _ h => h) hbuilder
  exact ⟨w, members, w', hadd, hdocument, hshaped, hbuild⟩

/-- `b.add_required("z") or x >= 1`: a predicate that lists a name as required on the builder. -/
def requiring : Value :=
  .function 0 (.or (.call (.attr (.const (.ref "b")) "add_required") [.const (.text "z")])
    (.compare .ge .arg (.const (.int 1))))

/-- `m.__class__((10**4300).as_integer_ratio())`: a selector that stands for two numbers, the first one
of which has too many digits to be shown. -/
def numbered : Value :=
  .function 0 (.call (.attr .arg "__class__")
    [.call (.attr (.const (.int (Nat.pow 10 4300))) "as_integer_ratio") []])

/-- Where a predicate lists a name as required, the document requires what is no property. A name that
cannot be shown is in the way of a build, and not of a document. -/
theorem document_unshaped :
    (∃ w d, add Build.call 0 (.list 0 [.text "x"]) requiring alone = .ok () w ∧
      w.store.Acyclic 0 ∧ w.store.document 0 = .ok d ∧ ¬ Shaped d) ∧
    (failed? (add Build.call 0 numbered (.int 1)) alone).any (fun w =>
      (w.store.document 0).toOption.isSome && ((build 0).result w).toOption.isNone) = true := by
  constructor
  · obtain ⟨w, property, hadd, hacyclic, hdocument⟩ : ∃ w property,
        add Build.call 0 (.list 0 [.text "x"]) requiring alone = .ok () w ∧ w.store.Acyclic 0 ∧
        w.store.document 0 = .ok (.record
          [("type", .text "object"), ("properties", .mapping [(.text "x", property)]),
           ("required", .listing [.text "z", .text "x"])]) :=
      ⟨_, _, rfl, Store.acyclic_of_rank (fun id => if id = 0 then 1 else 0) (by decide) 0, rfl⟩
    refine ⟨w, _, hadd, hacyclic, hdocument, fun h => ?_⟩
    obtain ⟨-, names, es, hnames, -, hes, hcovered⟩ := h.shape.required _
      (.tail _ (.tail _ (.head _)))
    cases hnames
    simp only [List.mem_cons, Prod.mk.injEq, List.not_mem_nil, or_false] at hes
    rcases hes with ⟨h, -⟩ | ⟨-, h⟩ | ⟨h, -⟩
    · exact absurd h (by decide)
    · cases h
      have hlisted := hcovered (.text "z") (by simp)
      simp [Entries.has, Entries.keys, Value.text_beq_text] at hlisted
    · exact absurd h (by decide)
  · decide +kernel

end Builder

end DraftSchema
