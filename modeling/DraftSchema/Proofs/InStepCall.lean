import DraftSchema.Evaluation.Call
import DraftSchema.Proofs.InStepBuilder

/-!
# Bodies in step

A body that asks for no attributes runs in step with itself for the argument that is turned round. The
proof goes along the body, and along the constants that it builds, which are the same in both runs;
calls inside it are made with less room, which the induction is on.
-/

namespace DraftSchema

variable {σ : Outlook} {call : Caller}

open Value Build

/-! ## Literals -/

namespace Literal

variable {v : Value} {vs : List Value}

theorem echo_real (numeral : String) : Echo σ (real numeral) (real numeral) := by
  unfold real
  -- how a numeral is read does not matter, and is kept from being tried
  generalize Binary64.ofText? = parse
  refine inStep_fresh.then fun n => ?_
  dsimp only [id_eq]
  split
  · exact inStep_pure trivial
  · exact inStep_fail _

/-- What a variable holds that may be asked for. The argument is not in it. -/
theorem echo_held {name : String} (h : σ.names name) : Echo σ (held name) (held name) := by
  have hvars : InStep σ
      (fun vs => ∀ v : Variable, vs.get? name = some v → v.value.Blind σ.plain) id vars vars :=
    fun _ hw => ⟨fun v hv => hw.vars name v h hv, rfl, hw⟩
  refine hvars.bind fun vs hvs => ?_
  dsimp only [id_eq]
  split
  · rename_i v hv
    exact inStep_pure_of_eq (turned_of_plain v.value (hvs v hv)).symm (Blind.of_plain (hvs v hv))
  · exact inStep_fail _

theorem echo_declared (name : String) : Echo σ (declared name) (declared name) := by
  have hmodels : Agree σ models models := fun _ hw => ⟨trivial, rfl, hw⟩
  refine hmodels.then fun c => ?_
  dsimp only [id_eq]
  split
  · exact inStep_pure trivial
  · exact inStep_fail _

theorem inStep_memberType (context : String) (hv : v.Blind σ) :
    InStep σ (Value.TypeBlind σ) (turnedType σ.own) (memberType context v)
      (memberType context (v.turned σ.own)) :=
  inStep_fromStore (fun s => Typing.member_turned s context v) fun _ _ ht => blind_member hv ht

theorem inStep_memberTypes (context : String) (h : ∀ v ∈ vs, v.Blind σ) :
    InStep σ (fun ts => ∀ t ∈ ts, Value.TypeBlind σ t) (List.map (turnedType σ.own))
      (memberTypes context vs) (memberTypes context (turnedAll σ.own vs)) := by
  induction vs with
  | nil => exact inStep_pure (by simp)
  | cons v vs ih =>
    obtain ⟨hv, hrest⟩ := List.forall_mem_cons.mp h
    exact (inStep_memberType context hv).bind fun t ht => (ih hrest).bind fun ts hts =>
      inStep_pure (List.forall_mem_cons.mpr ⟨ht, hts⟩)

theorem echo_chosen {ts : List (TypeForm Value)} (h : ∀ t ∈ ts, Value.TypeBlind σ t) :
    Echo σ (chosen ts) (chosen (ts.map (turnedType σ.own))) := by
  refine inStep_fromStore (fun s => ?_) fun s v hv => ?_
  · rw [Typing.choice_turned]
    cases Typing.choice s ts with
    | error f => rfl
    | ok t => exact congrArg Except.ok (ofType_turned t).symm
  · obtain ⟨t, ht, rfl⟩ := except_map_eq_ok.mp hv
    exact blind_ofType (blind_choice h ht)

theorem echo_joinedFrom (hv : v.Blind σ) (h : ∀ w ∈ vs, w.Blind σ) :
    Echo σ (joinedFrom v vs) (joinedFrom (v.turned σ.own) (turnedAll σ.own vs)) := by
  induction vs generalizing v with
  | nil => exact inStep_pure hv
  | cons w ws ih =>
    obtain ⟨hw, hrest⟩ := List.forall_mem_cons.mp h
    exact (echo_either hv hw).bind fun u hu => ih hu hrest

theorem echo_joined (h : ∀ v ∈ vs, v.Blind σ) :
    Echo σ (joined vs) (joined (turnedAll σ.own vs)) := by
  cases vs with
  | nil => exact inStep_fail _
  | cons v vs =>
    obtain ⟨hv, hrest⟩ := List.forall_mem_cons.mp h
    exact echo_joinedFrom hv hrest

theorem withNote_turned (own : Nat) (t : TypeForm Value) :
    withNote (turnedType own t) = turnedType own (withNote t) := by
  cases t <;> rfl

theorem blind_withNote {t : TypeForm Value} (h : Value.TypeBlind σ t) :
    Value.TypeBlind σ (withNote t) := by
  cases t <;> exact h

theorem ofList_turned (own : Nat) (es : Entries Value Value) :
    Entries.ofList (turnedEntries own es) = turnedEntries own (Entries.ofList es) := by
  have hfold : ∀ ds acc : Entries Value Value,
      (turnedEntries own ds).foldl (fun acc e => Entries.set acc e.1 e.2) (turnedEntries own acc)
        = turnedEntries own (ds.foldl (fun acc e => Entries.set acc e.1 e.2) acc) := by
    intro ds
    induction ds with
    | nil => exact fun acc => rfl
    | cons d ds ih =>
      intro acc
      obtain ⟨k, x⟩ := d
      rw [turnedEntries, List.foldl_cons, List.foldl_cons, set_turned, ih]
  exact hfold es []

mutual

/-- A literal is built into a value that the argument is not in. -/
theorem echo_build (hcall : call.InStep) : (x : Literal) → x.Blind σ.names →
    Echo σ (build call x) (build call x)
  | .null, _ | .bool _, _ | .int _, _ | .text _, _ | .regex .., _ | .bytesRegex _, _
  | .nodeClass _, _ | .builtin _, _ | .bytes _, _ => by
    unfold build
    exact inStep_pure trivial
  | .whole numeral, _ => by
    unfold build
    exact echo_spelled numeral
  | .float numeral, _ => by
    unfold build
    have := @echo_real σ numeral
    assumption
  | .list xs, h => by
    unfold build
    exact (inStep_buildAll hcall xs h).bind fun vs hvs => echo_list hvs
  | .tuple xs, h => by
    unfold build
    exact (inStep_buildAll hcall xs h).bind fun vs hvs => inStep_pure (blind_tuple.mpr hvs)
  | .dict entries, h => by
    unfold build
    refine (inStep_buildEntries hcall entries h).bind fun es hes => ?_
    rw [ofList_turned]
    exact echo_dict (blind_foldl_set (by simp) hes)
  | .function body, h => by
    unfold build
    exact inStep_fresh.then fun _ => inStep_pure h
  | .range bounds, h => by
    unfold build
    exact (inStep_buildBounds hcall bounds h).bind fun b hb => inStep_pure hb
  | .node c args named rules, h => by
    obtain ⟨hargs, hnamed, hpairs⟩ := h
    unfold build
    refine (inStep_buildAll hcall args hargs).bind fun vs hvs =>
      (inStep_buildNamed hcall named hnamed).bind fun ps hps => ?_
    rw [Arguments.ofPositional?_turned]
    cases hgiven : Arguments.ofPositional? c vs ps with
    | none => exact inStep_fail _
    | some given =>
      refine (Construction.agree_construct hcall c
        (Arguments.blind_ofPositional? hvs hps hgiven)).then fun id => ?_
      exact (agree_buildRules hcall (.node id) rules hpairs).then fun _ => inStep_pure trivial
  | .ref name, h => by
    unfold build
    exact echo_held h
  | .type t, h => by
    unfold build
    exact echo_buildType hcall t h
  | .foreign kind, _ => by
    unfold build
    exact echo_foreign kind

theorem inStep_buildAll (hcall : call.InStep) : (xs : List Literal) → AllBlind σ.names xs →
    InStep σ (fun vs => ∀ v ∈ vs, v.Blind σ) (turnedAll σ.own) (buildAll call xs) (buildAll call xs)
  | [], _ => by
    unfold buildAll
    exact inStep_pure (by simp)
  | x :: xs, h => by
    unfold buildAll
    exact (echo_build hcall x h.1).bind fun v hv => (inStep_buildAll hcall xs h.2).bind
      fun vs hvs => inStep_pure (List.forall_mem_cons.mpr ⟨hv, hvs⟩)

theorem inStep_buildEntries (hcall : call.InStep) : (es : List (String × Literal)) →
    EntriesBlind σ.names es →
    InStep σ (fun ds => ∀ e ∈ ds, e.1.Blind σ ∧ e.2.Blind σ) (turnedEntries σ.own)
      (buildEntries call es) (buildEntries call es)
  | [], _ => by
    unfold buildEntries
    exact inStep_pure (by simp)
  | (_, x) :: es, h => by
    unfold buildEntries
    exact (echo_build hcall x h.1).bind fun v hv => (inStep_buildEntries hcall es h.2).bind
      fun ds hds => inStep_pure (List.forall_mem_cons.mpr ⟨⟨trivial, hv⟩, hds⟩)

theorem inStep_buildNamed (hcall : call.InStep) : (ps : List (Parameter × Literal)) →
    NamedBlind σ.names ps →
    InStep σ (Arguments.Blind σ) (Arguments.turned σ.own) (buildNamed call ps) (buildNamed call ps)
  | [], _ => by
    unfold buildNamed
    exact inStep_pure (by simp [Arguments.Blind])
  | (_, x) :: ps, h => by
    unfold buildNamed
    exact (echo_build hcall x h.1).bind fun v hv => (inStep_buildNamed hcall ps h.2).bind
      fun vs hvs => inStep_pure (List.forall_mem_cons.mpr ⟨hv, hvs⟩)

theorem agree_buildRules (hcall : call.InStep) (target : Value) :
    (rules : List (Literal × Literal)) → PairsBlind σ.names rules →
    Agree σ (buildRules call target rules) (buildRules call (target.turned σ.own) rules)
  | [], _ => by
    unfold buildRules
    exact inStep_pure trivial
  | (selector, value) :: rest, h => by
    unfold buildRules
    exact (echo_build hcall value h.2.1).bind fun v hv =>
      (Builder.agree_builder target "with_").then fun id =>
      (echo_build hcall selector h.1).bind fun s hs =>
      (Builder.agree_add hcall id hs.callee hv.callee).then fun _ =>
      agree_buildRules hcall target rest h.2.2

theorem inStep_buildBounds (hcall : call.InStep) : (b : Bounds Literal) → BoundsBlind σ.names b →
    InStep σ (fun b => (Value.range b).Blind σ) (turnedBounds σ.own) (buildBounds call b)
      (buildBounds call b)
  | ⟨min, max, minExclusive, maxExclusive, ofLength⟩, h => by
    obtain ⟨hmin, hmax, hminExclusive, hmaxExclusive, hlength⟩ := h
    unfold buildBounds
    exact (echo_build hcall min hmin).bind fun a ha => (echo_build hcall max hmax).bind
      fun b hb => (echo_build hcall minExclusive hminExclusive).bind fun c hc =>
      (echo_build hcall maxExclusive hmaxExclusive).bind fun d hd =>
      (echo_build hcall ofLength hlength).bind fun e he =>
      inStep_pure (blind_range.mpr ⟨ha, hb, hc, hd, he⟩)

theorem echo_buildType (hcall : call.InStep) : (t : TypeLiteral Literal) → TypeBlind σ.names t →
    Echo σ (buildType call t) (buildType call t)
  | .basic _, _ | .any, _ => by
    unfold buildType
    exact inStep_pure trivial
  | .model name, _ => by
    unfold buildType
    exact echo_declared name
  | .optional t, h => by
    unfold buildType
    exact (echo_buildType hcall t h).bind fun v hv => (inStep_memberType _ hv).bind
      fun u hu => echo_chosen (blind_pair hu trivial)
  | .choice ts, h => by
    unfold buildType
    exact (inStep_buildTypes hcall ts h).bind fun vs hvs => (inStep_memberTypes _ hvs).bind
      fun us hus => echo_chosen hus
  | .joined ts, h => by
    unfold buildType
    exact (inStep_buildTypes hcall ts h).bind fun vs hvs => echo_joined hvs
  | .list t, h => by
    unfold buildType
    exact (echo_buildType hcall t h).bind fun v hv => (inStep_memberType _ hv).bind
      fun u hu => inStep_pure hu
  | .dict key value, h => by
    unfold buildType
    exact (echo_buildType hcall key h.1).bind fun k hk => (echo_buildType hcall value h.2).bind
      fun v hv => (inStep_memberType _ hk).bind fun t ht => (inStep_memberType _ hv).bind
      fun u hu => inStep_pure ⟨ht, hu⟩
  | .annotated t, h => by
    unfold buildType
    exact (echo_buildType hcall t h).bind fun v hv => (inStep_memberType _ hv).bind
      fun u hu => inStep_pure_of_eq (congrArg Value.type (withNote_turned σ.own u))
        (blind_withNote hu)
  | .value v, h => by
    unfold buildType
    exact echo_build hcall v h

theorem inStep_buildTypes (hcall : call.InStep) : (ts : List (TypeLiteral Literal)) →
    TypesBlind σ.names ts →
    InStep σ (fun vs => ∀ v ∈ vs, v.Blind σ) (turnedAll σ.own) (buildTypes call ts)
      (buildTypes call ts)
  | [], _ => by
    unfold buildTypes
    exact inStep_pure (by simp)
  | t :: ts, h => by
    unfold buildTypes
    exact (echo_buildType hcall t h.1).bind fun v hv => (inStep_buildTypes hcall ts h.2).bind
      fun vs hvs => inStep_pure (List.forall_mem_cons.mpr ⟨hv, hvs⟩)

end

end Literal

/-! ## Bodies -/

section

variable {arg : Value}

mutual

/-- A body runs in step with itself, whatever it does, save that it asks for an attribute. -/
theorem echo_evaluate (hcall : call.InStep) (harg : arg.Blind σ) : (e : Expression Literal) →
    e.Blind σ.names → Echo σ (evaluate (Literal.build call) call arg e)
      (evaluate (Literal.build call) call (arg.turned σ.own) e)
  | .arg, _ => by
    unfold evaluate
    exact inStep_pure harg
  | .const c, h => by
    unfold evaluate
    exact Literal.echo_build hcall c h
  | .attr target name, h => h.elim
  | .item target key, h => by
    unfold evaluate
    exact (echo_evaluate hcall harg target h.1).bind fun v hv =>
      (echo_evaluate hcall harg key h.2).bind fun k hk => echo_item hv hk
  | .slice target start stop, h => by
    unfold evaluate
    exact (echo_evaluate hcall harg target h).bind fun v hv => echo_slice hv start stop
  | .compare op left right, h => by
    unfold evaluate
    exact (echo_evaluate hcall harg left h.1).bind fun a ha =>
      (echo_evaluate hcall harg right h.2).bind fun b hb => echo_compare op ha hb
  | .chain first op middle op' last, h => by
    unfold evaluate
    refine (echo_evaluate hcall harg first h.1).bind fun a ha =>
      (echo_evaluate hcall harg middle h.2.1).bind fun b hb =>
      (echo_compare op ha hb).bind fun here hhere => (agree_truth here).then fun t => ?_
    refine inStep_ite (fun _ => ?_) fun _ => inStep_pure hhere
    exact (echo_evaluate hcall harg last h.2.2).bind fun c hc => echo_compare op' hb hc
  | .arith op left right, h => by
    unfold evaluate
    exact (echo_evaluate hcall harg left h.1).bind fun a ha =>
      (echo_evaluate hcall harg right h.2).bind fun b hb => echo_arithmetic op ha hb
  | .neg inner, h => by
    unfold evaluate
    exact (echo_evaluate hcall harg inner h).then fun v => echo_negate v
  | .call callee args, h => by
    unfold evaluate
    exact (echo_evaluate hcall harg callee h.1).bind fun f hf =>
      (inStep_evaluateAll hcall harg args h.2).bind fun vs hvs => hcall σ f vs hf.callee hvs
  | .length inner, h => by
    unfold evaluate
    exact (echo_evaluate hcall harg inner h).then fun v => echo_length v
  | .elements inner, h => by
    unfold evaluate
    exact (echo_evaluate hcall harg inner h).bind fun v hv =>
      (inStep_elements hv).bind fun xs hxs => echo_list hxs
  | .member element container, h => by
    unfold evaluate
    exact (echo_evaluate hcall harg element h.1).bind fun v hv =>
      (echo_evaluate hcall harg container h.2).bind fun c hc =>
        (agree_contains hv hc).then fun _ => inStep_pure trivial
  | .and left right, h => by
    unfold evaluate
    refine (echo_evaluate hcall harg left h.1).bind fun v hv => (agree_truth v).then fun t => ?_
    exact inStep_ite (fun _ => echo_evaluate hcall harg right h.2) fun _ => inStep_pure hv
  | .or left right, h => by
    unfold evaluate
    refine (echo_evaluate hcall harg left h.1).bind fun v hv => (agree_truth v).then fun t => ?_
    exact inStep_ite (fun _ => inStep_pure hv) fun _ => echo_evaluate hcall harg right h.2
  | .not inner, h => by
    unfold evaluate
    exact (echo_evaluate hcall harg inner h).then fun v => (agree_truth v).then fun _ =>
      inStep_pure trivial
  | .cond test yes no, h => by
    unfold evaluate
    refine (echo_evaluate hcall harg test h.1).then fun v => (agree_truth v).then fun t => ?_
    exact inStep_ite (fun _ => echo_evaluate hcall harg yes h.2.1) fun _ =>
      echo_evaluate hcall harg no h.2.2
  | .raise fault, h => by
    unfold evaluate
    exact inStep_fail _

theorem inStep_evaluateAll (hcall : call.InStep) (harg : arg.Blind σ) :
    (es : List (Expression Literal)) → Expression.AllBlind σ.names es →
    InStep σ (fun vs => ∀ v ∈ vs, v.Blind σ) (turnedAll σ.own)
      (evaluateAll (Literal.build call) call arg es)
      (evaluateAll (Literal.build call) call (arg.turned σ.own) es)
  | [], _ => by
    unfold evaluateAll
    exact inStep_pure (by simp)
  | e :: es, h => by
    unfold evaluateAll
    exact (echo_evaluate hcall harg e h.1).bind fun v hv =>
      (inStep_evaluateAll hcall harg es h.2).bind fun vs hvs =>
        inStep_pure (List.forall_mem_cons.mpr ⟨hv, hvs⟩)

end

end

/-! ## Calls -/

namespace Build

variable {callee : Value} {args : List Value}

theorem echo_applyOther (hcall : call.InStep) (hcallee : callee.Callee σ.names)
    (hargs : ∀ x ∈ args, x.Blind σ) :
    Echo σ (applyOther call callee args)
      (applyOther call (callee.turned σ.own) (turnedAll σ.own args)) := by
  cases callee with
  | builtin name => exact echo_applyBuiltin name args
  | type t => exact echo_instantiate hargs t
  | method | classMethod => exact hcallee.elim
  | nodeClass c =>
    unfold applyOther
    dsimp only [Value.turned]
    rw [show Arguments.ofPositional? c (turnedAll σ.own args) [] = _ from
      Arguments.ofPositional?_turned c args []]
    cases hgiven : Arguments.ofPositional? c args [] with
    | none => exact inStep_fail _
    | some given =>
      have hblind := Arguments.blind_ofPositional? hargs (by simp [Arguments.Blind]) hgiven
      exact (Construction.agree_construct hcall c hblind).map fun _ _ => ⟨trivial, rfl⟩
  | _ => exact inStep_failOn .notCallable _

/-- Calls are in step, however deep they nest. -/
theorem inStep_callWithin (fuel : Nat) : (callWithin fuel).InStep := by
  -- on the depth of calls: what a body calls has less of it left
  induction fuel with
  | zero => exact fun σ v args _ _ => inStep_fail _
  | succ fuel ih =>
    intro σ v args hv hargs
    cases v with
    | function id body =>
      rcases args with _ | ⟨arg, _ | ⟨arg', rest⟩⟩
      · exact inStep_fail _
      · exact echo_evaluate ih (hargs _ List.mem_cons_self) body hv
      · exact inStep_fail _
    | _ => exact echo_applyOther ih hv hargs

end Build

end DraftSchema
