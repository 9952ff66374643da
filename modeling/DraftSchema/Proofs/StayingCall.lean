import DraftSchema.Evaluation.Call
import DraftSchema.Proofs.StayingBuilder

/-!
# Runs of functions within reach

A function whose body mentions only what is within reach stays there when it is called with such an
argument. The proof goes along the body, and along the constants that it builds; calls inside it
are called with less room, which the induction is on.
-/

namespace DraftSchema

variable {σ : Reach} {call : Caller}

open Build

/-! ## Literals -/

namespace Literal

variable {v : Value} {vs : List Value}

theorem stays_real (numeral : String) : (real numeral).Stays σ (·.Within σ) := by
  unfold real
  -- how a numeral is read does not matter, and is kept from being tried
  generalize Binary64.ofText? = parse
  refine stays_fresh.then fun n => ?_
  split
  · exact stays_pure trivial
  · exact stays_plain rfl

/-- What a variable holds that may be asked for. -/
theorem stays_held {name : String} (h : σ.names name) : (held name).Stays σ (·.Within σ) := by
  have hvars : vars.Stays σ fun vs => ∀ v, vs.get? name = some v → v.value.Within σ :=
    fun _ hw => ⟨fun v hv => hw.vars name v h hv, hw⟩
  refine hvars.bind fun vs hvs => ?_
  split
  · exact stays_pure (hvs _ ‹_›)
  · exact stays_plain rfl

theorem stays_declared (name : String) : (declared name).Stays σ (·.Within σ) := by
  refine Stays.bind (P := fun _ => True) (fun _ hw => ⟨trivial, hw⟩) fun c _ => ?_
  split
  · exact stays_pure trivial
  · exact stays_plain rfl

theorem stays_memberType (context : String) (hv : v.Within σ) :
    (memberType context v).Stays σ (Value.TypeWithin σ) :=
  stays_fromStore fun s _ => yields_member s context hv

theorem stays_memberTypes (context : String) (h : ∀ v ∈ vs, v.Within σ) :
    (memberTypes context vs).Stays σ fun ts => ∀ t ∈ ts, Value.TypeWithin σ t := by
  induction vs with
  | nil => exact stays_pure (by simp)
  | cons v vs ih =>
    obtain ⟨hv, hrest⟩ := List.forall_mem_cons.mp h
    exact (stays_memberType context hv).bind fun t ht => (ih hrest).bind fun ts hts =>
      stays_pure (List.forall_mem_cons.mpr ⟨ht, hts⟩)

theorem stays_chosen {ts : List (TypeForm Value)} (h : ∀ t ∈ ts, Value.TypeWithin σ t) :
    (chosen ts).Stays σ (·.Within σ) :=
  stays_fromStore fun s _ => (yields_choice s ts).map fun _ ht =>
    Value.within_ofType (ht ▸ Value.typeWithin_union h)

theorem stays_joinedFrom (hv : v.Within σ) (h : ∀ w ∈ vs, w.Within σ) :
    (joinedFrom v vs).Stays σ (·.Within σ) := by
  induction vs generalizing v with
  | nil => exact stays_pure hv
  | cons w ws ih =>
    obtain ⟨hw, hrest⟩ := List.forall_mem_cons.mp h
    exact (stays_either hv hw).bind fun u hu => ih hu hrest

theorem stays_joined (h : ∀ v ∈ vs, v.Within σ) : (joined vs).Stays σ (·.Within σ) := by
  cases vs with
  | nil => exact stays_plain rfl
  | cons v vs =>
    exact stays_joinedFrom (h v List.mem_cons_self) fun w hw => h w (List.mem_cons_of_mem _ hw)

theorem typeWithin_withNote {t : TypeForm Value} (h : Value.TypeWithin σ t) :
    Value.TypeWithin σ (withNote t) := by
  unfold withNote
  split <;> exact h

theorem entries_ofList {es : Entries Value Value} (h : ∀ e ∈ es, e.1.Within σ ∧ e.2.Within σ) :
    ∀ e ∈ Entries.ofList es, e.1.Within σ ∧ e.2.Within σ :=
  Value.entries_foldl_set (by simp) h

mutual

/-- A literal is built into a value within reach. -/
theorem stays_build (hcall : call.Stays) : (x : Literal) → x.Within σ →
    (build call x).Stays σ (·.Within σ)
  | .null, _ | .bool _, _ | .int _, _ | .text _, _ | .regex .., _ | .bytesRegex _, _
  | .builtin _, _ | .bytes _, _ => by
    unfold build
    exact stays_pure trivial
  | .whole numeral, _ => by
    unfold build
    exact stays_spelled numeral
  | .float numeral, _ => by
    unfold build
    have := @stays_real σ numeral
    assumption
  | .list xs, h => by
    unfold build
    exact (stays_buildAll hcall xs h).bind fun vs hvs => stays_list hvs
  | .tuple xs, h => by
    unfold build
    exact (stays_buildAll hcall xs h).bind fun vs hvs => stays_pure (Value.within_tuple.mpr hvs)
  | .dict entries, h => by
    unfold build
    exact (stays_buildEntries hcall entries h).bind fun es hes => stays_dict (entries_ofList hes)
  | .function body, h => by
    unfold build
    exact stays_fresh.then fun _ => stays_pure h
  | .range bounds, h => by
    unfold build
    exact (stays_buildBounds hcall bounds h).bind fun b hb => stays_pure hb
  | .node c args named rules, h => by
    obtain ⟨hrules, hargs, hnamed, hpairs⟩ := h
    unfold build
    refine (stays_buildAll hcall args hargs).bind fun vs hvs =>
      (stays_buildNamed hcall named hnamed).bind fun ps hps => ?_
    split
    · exact stays_plain rfl
    · rename_i given hgiven
      refine (Construction.stays_construct hcall hrules c
        (Arguments.within_ofPositional? hvs hps hgiven)).then fun id => ?_
      exact (stays_buildRules hcall (.node id) rules hrules hpairs).then fun _ => stays_pure hrules
  | .ref name, h => by
    unfold build
    exact stays_held h
  | .type t, h => by
    unfold build
    exact stays_buildType hcall t h
  | .nodeClass c, h => by
    unfold build
    exact stays_pure h
  | .foreign kind, _ => by
    unfold build
    exact stays_foreign kind

theorem stays_buildAll (hcall : call.Stays) : (xs : List Literal) → AllWithin σ xs →
    (buildAll call xs).Stays σ fun vs => ∀ v ∈ vs, v.Within σ
  | [], _ => by
    unfold buildAll
    exact stays_pure (by simp)
  | x :: xs, h => by
    unfold buildAll
    exact (stays_build hcall x h.1).bind fun v hv => (stays_buildAll hcall xs h.2).bind
      fun vs hvs => stays_pure (List.forall_mem_cons.mpr ⟨hv, hvs⟩)

theorem stays_buildEntries (hcall : call.Stays) : (es : List (String × Literal)) →
    EntriesWithin σ es →
    (buildEntries call es).Stays σ fun ds => ∀ e ∈ ds, e.1.Within σ ∧ e.2.Within σ
  | [], _ => by
    unfold buildEntries
    exact stays_pure (by simp)
  | (_, x) :: es, h => by
    unfold buildEntries
    exact (stays_build hcall x h.1).bind fun v hv => (stays_buildEntries hcall es h.2).bind
      fun ds hds => stays_pure (List.forall_mem_cons.mpr ⟨⟨trivial, hv⟩, hds⟩)

theorem stays_buildNamed (hcall : call.Stays) : (ps : List (Parameter × Literal)) →
    NamedWithin σ ps → (buildNamed call ps).Stays σ (Arguments.Within σ)
  | [], _ => by
    unfold buildNamed
    exact stays_pure (by simp [Arguments.Within])
  | (_, x) :: ps, h => by
    unfold buildNamed
    exact (stays_build hcall x h.1).bind fun v hv => (stays_buildNamed hcall ps h.2).bind
      fun vs hvs => stays_pure (List.forall_mem_cons.mpr ⟨hv, hvs⟩)

theorem stays_buildRules (hcall : call.Stays) (target : Value) :
    (rules : List (Literal × Literal)) → σ.rules → PairsWithin σ rules →
    (buildRules call target rules).Stays σ fun _ => True
  | [], _, _ => by
    unfold buildRules
    exact stays_pure trivial
  | (selector, value) :: rest, hrules, h => by
    unfold buildRules
    exact (stays_build hcall value h.2.1).bind fun v hv =>
      (Builder.stays_builder target "with_").then fun id =>
      (stays_build hcall selector h.1).bind fun s hs =>
      (Builder.stays_add hcall hrules id hs hv).then fun _ =>
      stays_buildRules hcall target rest hrules h.2.2

theorem stays_buildBounds (hcall : call.Stays) : (b : Bounds Literal) → BoundsWithin σ b →
    (buildBounds call b).Stays σ fun b => (Value.range b).Within σ
  | ⟨min, max, minExclusive, maxExclusive, ofLength⟩, h => by
    obtain ⟨hmin, hmax, hminExclusive, hmaxExclusive, hlength⟩ := h
    unfold buildBounds
    exact (stays_build hcall min hmin).bind fun a ha => (stays_build hcall max hmax).bind
      fun b hb => (stays_build hcall minExclusive hminExclusive).bind fun c hc =>
      (stays_build hcall maxExclusive hmaxExclusive).bind fun d hd =>
      (stays_build hcall ofLength hlength).bind fun e he =>
      stays_pure (Value.within_range.mpr ⟨ha, hb, hc, hd, he⟩)

theorem stays_buildType (hcall : call.Stays) : (t : TypeLiteral Literal) → TypeWithin σ t →
    (buildType call t).Stays σ (·.Within σ)
  | .basic _, _ | .any, _ => by
    unfold buildType
    exact stays_pure trivial
  | .model name, _ => by
    unfold buildType
    exact stays_declared name
  | .optional t, h => by
    unfold buildType
    exact (stays_buildType hcall t h).bind fun v hv => (stays_memberType _ hv).bind
      fun u hu => stays_chosen (forall_mem_pair hu trivial)
  | .choice ts, h => by
    unfold buildType
    exact (stays_buildTypes hcall ts h).bind fun vs hvs => (stays_memberTypes _ hvs).bind
      fun us hus => stays_chosen hus
  | .joined ts, h => by
    unfold buildType
    exact (stays_buildTypes hcall ts h).bind fun vs hvs => stays_joined hvs
  | .list t, h => by
    unfold buildType
    exact (stays_buildType hcall t h).bind fun v hv => (stays_memberType _ hv).bind
      fun u hu => stays_pure hu
  | .dict key value, h => by
    unfold buildType
    exact (stays_buildType hcall key h.1).bind fun k hk => (stays_buildType hcall value h.2).bind
      fun v hv => (stays_memberType _ hk).bind fun t ht => (stays_memberType _ hv).bind
      fun u hu => stays_pure ⟨ht, hu⟩
  | .annotated t, h => by
    unfold buildType
    exact (stays_buildType hcall t h).bind fun v hv => (stays_memberType _ hv).bind
      fun u hu => stays_pure (typeWithin_withNote hu)
  | .value v, h => by
    unfold buildType
    exact stays_build hcall v h

theorem stays_buildTypes (hcall : call.Stays) : (ts : List (TypeLiteral Literal)) →
    TypesWithin σ ts → (buildTypes call ts).Stays σ fun vs => ∀ v ∈ vs, v.Within σ
  | [], _ => by
    unfold buildTypes
    exact stays_pure (by simp)
  | t :: ts, h => by
    unfold buildTypes
    exact (stays_buildType hcall t h.1).bind fun v hv => (stays_buildTypes hcall ts h.2).bind
      fun vs hvs => stays_pure (List.forall_mem_cons.mpr ⟨hv, hvs⟩)

end

end Literal

/-! ## Bodies -/

section

variable {arg : Value}

mutual

/-- A body that mentions only what is within reach stays there, whatever it does. -/
theorem stays_evaluate (hcall : call.Stays) (harg : arg.Within σ) : (e : Expression Literal) →
    e.Within σ → (evaluate (Literal.build call) call arg e).Stays σ (·.Within σ)
  | .arg, _ => by
    unfold evaluate
    exact stays_pure harg
  | .const c, h => by
    unfold evaluate
    exact Literal.stays_build hcall c h
  | .attr target name, h => by
    unfold evaluate
    exact (stays_evaluate hcall harg target h).bind fun v hv => stays_attr hv name
  | .item target key, h => by
    unfold evaluate
    exact (stays_evaluate hcall harg target h.1).bind fun v hv =>
      (stays_evaluate hcall harg key h.2).bind fun k hk => stays_item hv hk
  | .slice target start stop, h => by
    unfold evaluate
    exact (stays_evaluate hcall harg target h).bind fun v hv => stays_slice hv start stop
  | .compare op left right, h => by
    unfold evaluate
    exact (stays_evaluate hcall harg left h.1).bind fun a ha =>
      (stays_evaluate hcall harg right h.2).bind fun b hb => stays_compare op ha hb
  | .chain first op middle op' last, h => by
    unfold evaluate
    refine (stays_evaluate hcall harg first h.1).bind fun a ha =>
      (stays_evaluate hcall harg middle h.2.1).bind fun b hb =>
      (stays_compare op ha hb).bind fun here hhere => (stays_truth hhere).then fun t => ?_
    refine stays_ite (fun _ => ?_) fun _ => stays_pure hhere
    exact (stays_evaluate hcall harg last h.2.2).bind fun c hc => stays_compare op' hb hc
  | .arith op left right, h => by
    unfold evaluate
    exact (stays_evaluate hcall harg left h.1).bind fun a ha =>
      (stays_evaluate hcall harg right h.2).bind fun b hb => stays_arithmetic op ha hb
  | .neg operand, h => by
    unfold evaluate
    exact (stays_evaluate hcall harg operand h).bind fun v _ => stays_negate v
  | .call callee args, h => by
    unfold evaluate
    exact (stays_evaluate hcall harg callee h.1).bind fun f hf =>
      (stays_evaluateAll hcall harg args h.2).bind fun vs hvs => hcall σ f vs hf hvs
  | .length operand, h => by
    unfold evaluate
    exact (stays_evaluate hcall harg operand h).bind fun v _ => stays_length v
  | .elements operand, h => by
    unfold evaluate
    exact (stays_evaluate hcall harg operand h).bind fun v hv =>
      (stays_elements hv).bind fun xs hxs => stays_list hxs
  | .member element container, h => by
    unfold evaluate
    exact (stays_evaluate hcall harg element h.1).bind fun v hv =>
      (stays_evaluate hcall harg container h.2).bind fun c hc =>
        (stays_contains hv hc).then fun _ => stays_pure trivial
  | .and left right, h => by
    unfold evaluate
    refine (stays_evaluate hcall harg left h.1).bind fun v hv => (stays_truth hv).then fun t => ?_
    exact stays_ite (fun _ => stays_evaluate hcall harg right h.2) fun _ => stays_pure hv
  | .or left right, h => by
    unfold evaluate
    refine (stays_evaluate hcall harg left h.1).bind fun v hv => (stays_truth hv).then fun t => ?_
    exact stays_ite (fun _ => stays_pure hv) fun _ => stays_evaluate hcall harg right h.2
  | .not operand, h => by
    unfold evaluate
    exact (stays_evaluate hcall harg operand h).bind fun v hv =>
      (stays_truth hv).then fun _ => stays_pure trivial
  | .cond test yes no, h => by
    unfold evaluate
    refine (stays_evaluate hcall harg test h.1).bind fun v hv => (stays_truth hv).then fun t => ?_
    exact stays_ite (fun _ => stays_evaluate hcall harg yes h.2.1) fun _ =>
      stays_evaluate hcall harg no h.2.2
  | .raise fault, h => by
    unfold evaluate
    exact stays_fail (.inl h)

theorem stays_evaluateAll (hcall : call.Stays) (harg : arg.Within σ) :
    (es : List (Expression Literal)) → Expression.AllWithin σ es →
    (evaluateAll (Literal.build call) call arg es).Stays σ fun vs => ∀ v ∈ vs, v.Within σ
  | [], _ => by
    unfold evaluateAll
    exact stays_pure (by simp)
  | e :: es, h => by
    unfold evaluateAll
    exact (stays_evaluate hcall harg e h.1).bind fun v hv =>
      (stays_evaluateAll hcall harg es h.2).bind fun vs hvs =>
        stays_pure (List.forall_mem_cons.mpr ⟨hv, hvs⟩)

end

end

/-! ## Calls -/

namespace Build

variable {owner callee : Value} {path args : List Value}

theorem stays_applyRecorder (id : Nat) (hpath : ∀ x ∈ path, x.Within σ) (name : String)
    (hargs : ∀ x ∈ args, x.Within σ) :
    (applyRecorder id path name args).Stays σ (·.Within σ) := by
  have hself : (Value.recorder id path).Within σ := Value.within_recorder.mpr hpath
  unfold applyRecorder
  split
  · refine stays_ite (fun _ => stays_plain rfl) fun _ => stays_recorder ?_
    exact List.forall_mem_append.mpr ⟨hpath, by simp⟩
  · exact stays_store.bind fun s _ => stays_plain (s.isPlain_missing _ _)
  · exact stays_item hself (hargs _ List.mem_cons_self)
  · exact (stays_truth hself).then fun _ => stays_pure trivial
  · exact stays_pure trivial
  · exact stays_foreign _

theorem stays_applyNode (hcall : call.Stays) (hrules : σ.rules) (id : NodeId) (name : String)
    (hargs : ∀ x ∈ args, x.Within σ) :
    (applyNode call id name args).Stays σ (·.Within σ) := by
  unfold applyNode
  split
  · exact stays_fromStore fun s hs => s.yields_document hrules hs id
  · exact Builder.stays_build hrules id
  · exact (Builder.stays_json hrules id .null).then fun _ => stays_pure trivial
  · exact (Builder.stays_json hrules id _).then fun _ => stays_pure trivial
  · rename_i selector value
    exact (Builder.stays_add hcall hrules id (hargs selector (by simp)) (hargs value (by simp))).then
      fun _ => stays_pure hrules
  · exact (Builder.stays_require hrules (hargs _ List.mem_cons_self) _).then fun _ =>
      stays_pure trivial
  · exact stays_ite (fun _ => stays_applySign (v := .node id) hrules _ hargs) fun _ =>
      stays_plain rfl

theorem stays_applyMethod (hcall : call.Stays) (howner : owner.Within σ) (name : String)
    (hargs : ∀ x ∈ args, x.Within σ) :
    (applyMethod call owner name args).Stays σ (·.Within σ) := by
  unfold applyMethod
  split
  · exact stays_applyRecorder _ (Value.within_recorder.mp howner) name hargs
  · exact stays_applyNode hcall howner _ name hargs
  · exact stays_ite (fun _ => stays_applyMapping 0 (by simp) name hargs) fun _ =>
      stays_applyUnbound _ name hargs
  · exact stays_ite (fun _ => hcall σ owner args howner hargs) fun _ =>
      stays_applyPlain howner name hargs

theorem stays_applyClassMethod (hcall : call.Stays) (hrules : σ.rules) (c : NodeClass)
    (name : String) (hargs : ∀ x ∈ args, x.Within σ) :
    (applyClassMethod call c name args).Stays σ (·.Within σ) := by
  unfold applyClassMethod
  split
  · exact stays_applyNode hcall hrules _ name fun x hx => hargs x (List.mem_cons_of_mem _ hx)
  · exact stays_store.bind fun s _ => stays_plain (s.isPlain_missing _ _)
  · exact stays_plain rfl

theorem stays_applyOther (hcall : call.Stays) (hcallee : callee.Within σ)
    (hargs : ∀ x ∈ args, x.Within σ) :
    (applyOther call callee args).Stays σ (·.Within σ) := by
  unfold applyOther
  split
  · exact stays_applyBuiltin _ args
  · exact stays_instantiate hargs _
  · rename_i owner name
    exact stays_applyMethod hcall (show owner.Within σ from hcallee) name hargs
  · exact stays_applyClassMethod hcall hcallee _ _ hargs
  · split
    · rename_i given hgiven
      have hgiven := Arguments.within_ofPositional? hargs (by simp [Arguments.Within]) hgiven
      exact (Construction.stays_construct hcall hcallee _ hgiven).map fun _ _ => hcallee
    · exact stays_plain rfl
  · exact stays_failOn (fun _ => rfl) _

theorem stays_callWithin (fuel : Nat) : (callWithin fuel).Stays := by
  -- on the depth of calls: what a body calls has less of it left
  induction fuel with
  | zero => exact fun σ v args _ _ => stays_plain rfl
  | succ fuel ih =>
    intro σ v args hv hargs
    cases v with
    | function id body =>
      unfold callWithin
      split
      · exact stays_evaluate ih (hargs _ List.mem_cons_self) body hv
      · exact stays_plain rfl
    | _ => exact stays_applyOther ih hv hargs

/-- Calls stay within reach. -/
theorem stays_call : Caller.Stays Build.call := stays_callWithin callDepth

end Build

end DraftSchema
