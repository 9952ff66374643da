import DraftSchema.Evaluation.Call
import DraftSchema.Proofs.Run

/-!
# More room for calls

Calls that may nest more deeply give what they gave before, save where there was no room for them.
That there is none is never taken for anything else: it ends whatever has been begun, so that a build
that does not end there ends in the same way with more room.
-/

namespace DraftSchema

variable {call call' : Caller}

namespace Build

variable {α β : Type} {x y : Build α} {k l : α → Build β}

/-- A build gives what another one gives, unless the other one ends where calls nest too deeply. -/
def Extends (x y : Build α) : Prop := ∀ w, (∃ w', x w = .error .tooDeep w') ∨ y w = x w

/-- The same for what is computed apart. -/
def ExtendsApart (r r' : Except Fault α) : Prop := r = .error .tooDeep ∨ r' = r

theorem extends_refl (x : Build α) : Extends x x := fun _ => .inr rfl

theorem Extends.bind (hx : Extends x y) (hk : ∀ a, Extends (k a) (l a)) :
    Extends (x >>= k) (y >>= l) := by
  intro w
  rcases hx w with ⟨w', hdeep⟩ | hsame
  · exact .inl ⟨w', bind_of_error hdeep⟩
  · cases hxw : x w with
    | ok a w₁ =>
      rw [show (x >>= k) w = k a w₁ from bind_of_ok hxw,
        show (y >>= l) w = l a w₁ from bind_of_ok (hsame.trans hxw)]
      exact hk a w₁
    | error f w₁ =>
      exact .inr ((bind_of_error (hsame.trans hxw)).trans (bind_of_error hxw).symm)

/-- What follows on one and the same build. -/
theorem extends_after (hk : ∀ a, Extends (k a) (l a)) : Extends (x >>= k) (x >>= l) :=
  (extends_refl x).bind hk

theorem Extends.before (hx : Extends x y) : Extends (x >>= k) (y >>= k) :=
  hx.bind fun a => extends_refl (k a)

theorem Extends.map (hx : Extends x y) (f : α → β) : Extends (f <$> x) (f <$> y) := by
  rw [map_eq_pure_bind, map_eq_pure_bind]
  exact hx.before

theorem extends_ite {c : Prop} [Decidable c] {x' y' : Build α} (hx : Extends x y)
    (hx' : Extends x' y') : Extends (if c then x else x') (if c then y else y') := by
  split
  · exact hx
  · exact hx'

/-- A reading lets that there is no room pass, as it is no fault of the function that is read. -/
theorem Extends.reading (hx : Extends x y) (replaced : Fault → Fault) :
    Extends (reading replaced x) (reading replaced y) := by
  intro w
  rcases hx w with ⟨w', hdeep⟩ | hsame
  · refine .inl ⟨w', ?_⟩
    have hattempt : x.attempt w = .ok (.error .tooDeep) w' := by
      unfold attempt
      rw [hdeep]
    exact bind_of_ok hattempt
  · have hattempt : y.attempt w = x.attempt w := by
      unfold attempt
      rw [hsame]
    refine .inr ?_
    change EStateM.bind y.attempt _ w = EStateM.bind x.attempt _ w
    unfold EStateM.bind
    rw [hattempt]

theorem Extends.apart (hx : Extends x y) (w : Workspace) :
    ExtendsApart (apart x w) (apart y w) := by
  unfold Build.apart
  rcases hx w with ⟨w', hdeep⟩ | hsame
  · exact .inl (by rw [hdeep])
  · exact .inr (by rw [hsame])

/-- What is computed apart in the workspace of a build. -/
theorem extends_ofExcept {r r' : Workspace → Except Fault α} (h : ∀ w, ExtendsApart (r w) (r' w)) :
    Extends (fun w => ofExcept (r w) w) (fun w => ofExcept (r' w) w) := by
  intro w
  rcases h w with hdeep | hsame
  · exact .inl ⟨w, congrArg (fun r => ofExcept r w) hdeep⟩
  · exact .inr (congrArg (fun r => ofExcept r w) hsame)

theorem extendsApart_refl (r : Except Fault α) : ExtendsApart r r := .inr rfl

theorem ExtendsApart.bind {r r' : Except Fault α} {f g : α → Except Fault β} (hr : ExtendsApart r r')
    (hf : ∀ a, ExtendsApart (f a) (g a)) : ExtendsApart (r >>= f) (r' >>= g) := by
  rcases hr with rfl | rfl
  · exact .inl rfl
  · cases r' with
    | ok a => exact hf a
    | error e => exact .inr rfl

theorem ExtendsApart.map {r r' : Except Fault α} (hr : ExtendsApart r r') (f : α → β) :
    ExtendsApart (f <$> r) (f <$> r') := by
  rcases hr with rfl | rfl
  · exact .inl rfl
  · exact .inr rfl

end Build

open Build

/-- Calls give what other calls give, unless those nest too deeply. -/
def Caller.Extends (call call' : Caller) : Prop :=
  ∀ v args, Build.Extends (call v args) (call' v args)

/-! ## Bodies -/

section

variable {γ : Type} {constant constant' : γ → Build Value}

mutual

theorem extends_evaluate (hconstant : ∀ c, Extends (constant c) (constant' c))
    (hcall : call.Extends call') (arg : Value) : (e : Expression γ) →
    Extends (evaluate constant call arg e) (evaluate constant' call' arg e)
  | .arg => by
    unfold evaluate
    exact extends_refl _
  | .const c => by
    unfold evaluate
    exact hconstant c
  | .attr inner _ | .slice inner _ _ | .neg inner | .length inner | .elements inner
  | .not inner => by
    unfold evaluate
    exact (extends_evaluate hconstant hcall arg inner).before
  | .item a b | .compare _ a b | .arith _ a b | .member a b => by
    unfold evaluate
    exact (extends_evaluate hconstant hcall arg a).bind fun _ =>
      (extends_evaluate hconstant hcall arg b).before
  | .chain first op middle op' last => by
    unfold evaluate
    exact (extends_evaluate hconstant hcall arg first).bind fun a =>
      (extends_evaluate hconstant hcall arg middle).bind fun b =>
      extends_after fun here => extends_after fun t =>
        extends_ite (extends_evaluate hconstant hcall arg last).before (extends_refl _)
  | .call callee args => by
    unfold evaluate
    exact (extends_evaluate hconstant hcall arg callee).bind fun f =>
      (extends_evaluateAll hconstant hcall arg args).bind fun vs => hcall f vs
  | .and left right => by
    unfold evaluate
    exact (extends_evaluate hconstant hcall arg left).bind fun v => extends_after fun t =>
      extends_ite (extends_evaluate hconstant hcall arg right) (extends_refl _)
  | .or left right => by
    unfold evaluate
    exact (extends_evaluate hconstant hcall arg left).bind fun v => extends_after fun t =>
      extends_ite (extends_refl _) (extends_evaluate hconstant hcall arg right)
  | .cond test yes no => by
    unfold evaluate
    exact (extends_evaluate hconstant hcall arg test).bind fun v => extends_after fun t =>
      extends_ite (extends_evaluate hconstant hcall arg yes) (extends_evaluate hconstant hcall arg no)
  | .raise _ => by
    unfold evaluate
    exact extends_refl _

theorem extends_evaluateAll (hconstant : ∀ c, Extends (constant c) (constant' c))
    (hcall : call.Extends call') (arg : Value) : (es : List (Expression γ)) →
    Extends (evaluateAll constant call arg es) (evaluateAll constant' call' arg es)
  | [] => by
    unfold evaluateAll
    exact extends_refl _
  | e :: es => by
    unfold evaluateAll
    exact (extends_evaluate hconstant hcall arg e).bind fun _ =>
      (extends_evaluateAll hconstant hcall arg es).before

end

end

/-! ## Annotations -/

namespace Build

mutual

theorem extends_annotated (hcall : call.Extends call') : (e : TypeExpression) →
    Extends (annotated call e) (annotated call' e)
  | .name _ | .constant _ => by
    unfold annotated
    exact extends_refl _
  | .attr inner _ | .neg inner | .plus inner | .complement inner | .not inner | .first inner => by
    unfold annotated
    exact (extends_annotated hcall inner).before
  | .item a b | .arith _ a b | .mixed _ a b | .compare _ a b | .member a b => by
    unfold annotated
    exact (extends_annotated hcall a).bind fun _ => (extends_annotated hcall b).before
  | .call callee args => by
    unfold annotated
    exact (extends_annotated hcall callee).bind fun f => (extends_annotatedAll hcall args).bind fun vs =>
      hcall f vs
  | .and left right => by
    unfold annotated
    exact (extends_annotated hcall left).bind fun v => extends_after fun t =>
      extends_ite (extends_annotated hcall right) (extends_refl _)
  | .or left right => by
    unfold annotated
    exact (extends_annotated hcall left).bind fun v => extends_after fun t =>
      extends_ite (extends_refl _) (extends_annotated hcall right)
  | .cond test yes no => by
    unfold annotated
    exact (extends_annotated hcall test).bind fun v => extends_after fun t =>
      extends_ite (extends_annotated hcall yes) (extends_annotated hcall no)
  | .tuple parts | .list parts => by
    unfold annotated
    exact (extends_annotatedAll hcall parts).before

theorem extends_annotatedAll (hcall : call.Extends call') : (es : List TypeExpression) →
    Extends (annotatedAll call es) (annotatedAll call' es)
  | [] => by
    unfold annotatedAll
    exact extends_refl _
  | e :: es => by
    unfold annotatedAll
    exact (extends_annotated hcall e).bind fun _ => (extends_annotatedAll hcall es).before

end

end Build

namespace Catalog

variable {s : Store} {read read' : String → Except Fault Value}

mutual

theorem extends_resolveType (hread : ∀ text, ExtendsApart (read text) (read' text)) :
    (t : TypeForm Value) →
    ExtendsApart (resolveType s read t) (resolveType s read' t)
  | .list t => by
    unfold resolveType
    exact (extends_resolveType hread t).bind fun _ => extendsApart_refl _
  | .dict k v => by
    unfold resolveType
    exact (extends_resolveType hread k).bind fun _ => (extends_resolveType hread v).bind fun _ =>
      extendsApart_refl _
  | .generic _ ts => by
    unfold resolveType
    exact (extends_resolveTypes hread ts).bind fun _ => extendsApart_refl _
  | .annotated t _ => by
    unfold resolveType
    exact extends_resolveType hread t
  | .union _ ts => by
    unfold resolveType
    exact (extends_resolveTypes hread ts).bind fun _ => extendsApart_refl _
  | .reference text => by
    unfold resolveType
    exact (hread text).bind fun _ => extendsApart_refl _
  | .other v => by
    cases v with
    | text text =>
      unfold resolveType
      exact (hread text).bind fun _ => extendsApart_refl _
    | _ =>
      unfold resolveType
      exact extendsApart_refl _
  | .basic _ | .any | .model _ => by
    unfold resolveType
    exact extendsApart_refl _

theorem extends_resolveTypes (hread : ∀ text, ExtendsApart (read text) (read' text)) :
    (ts : List (TypeForm Value)) →
    ExtendsApart (resolveTypes s read ts) (resolveTypes s read' ts)
  | [] => by
    unfold resolveTypes
    exact extendsApart_refl _
  | t :: ts => by
    unfold resolveTypes
    exact (extends_resolveType hread t).bind fun _ => (extends_resolveTypes hread ts).bind fun _ =>
      extendsApart_refl _

end

section

variable (hread : ∀ text, ExtendsApart (read text) (read' text))

include hread

theorem extends_resolve (hint : Value) : ExtendsApart (resolve s read hint) (resolve s read' hint) := by
  unfold resolve
  split
  · exact extendsApart_refl _
  · exact hread _
  · exact (extends_resolveType hread _).map _
  · exact extendsApart_refl _

theorem extends_resolveFields (found es : Entries String Value) :
    ExtendsApart (resolveFields s read found es) (resolveFields s read' found es) := by
  induction es generalizing found with
  | nil => exact extendsApart_refl _
  | cons e es ih => exact (extends_resolve hread e.2).bind fun _ => ih _

/-- That there is no room is not taken for something unknown in the annotations of a class. -/
theorem extends_fields (catalog : Catalog) (type : Value) :
    ExtendsApart (catalog.fields s read type) (catalog.fields s read' type) := by
  unfold fields
  split
  · split
    · exact extendsApart_refl _
    · rename_i m _
      rcases extends_resolveFields hread (s := s) [] (catalog.inherited m) with hdeep | hsame
      · exact .inl (by rw [hdeep]; rfl)
      · rw [hsame]
        exact extendsApart_refl _
  · exact extendsApart_refl _

theorem extends_check (catalog : Catalog) (label : Value → Except Fault String) (seen : List Value)
    (type : Value) (path : List Value) :
    ExtendsApart (catalog.check s read label seen type path)
      (catalog.check s read' label seen type path) := by
  induction path generalizing seen type with
  | nil => exact extendsApart_refl _
  | cons name rest ih =>
    refine (extends_fields hread catalog type).bind fun fields => ?_
    dsimp only
    split
    · exact extendsApart_refl _
    · split
      · exact ih _ _
      · exact extendsApart_refl _

end

end Catalog

theorem Build.extends_meaningWithin (hcall : call.Extends call') (fuel : Nat) (text : String) :
    Extends (meaningWithin call fuel text) (meaningWithin call' fuel text) := by
  induction fuel generalizing text with
  | zero => exact extends_refl _
  | succ fuel ih =>
    unfold meaningWithin
    refine extends_after fun e => (extends_annotated hcall e).bind fun v => extends_after fun t => ?_
    -- texts inside are read with less fuel, in a copy of this workspace
    exact extends_ofExcept fun w =>
      (Catalog.extends_resolveType (fun text => (ih text).apart w) t).map _

/-! ## Rules -/

section

variable (hcall : call.Extends call')

include hcall

theorem Selector.extends_path (v : Value) : Extends (path call v) (path call' v) := by
  unfold path
  split
  · exact extends_refl _
  · exact extends_refl _
  · refine extends_ite (extends_after fun start => ?_) (extends_refl _)
    exact ((hcall _ [start]).reading _).before

theorem Predicate.extends_bounds (v : Value) : Extends (bounds call v) (bounds call' v) := by
  unfold bounds
  dsimp only
  split
  · exact extends_refl _
  · exact extends_after fun x => ((hcall v [x]).reading _).before

theorem Predicate.extends_range (v : Value) : Extends (range call v) (range call' v) := by
  unfold range
  split
  · exact extends_refl _
  · exact extends_bounds hcall _

theorem Length.extends_bounds (v : Value) : Extends (bounds call v) (bounds call' v) :=
  (Predicate.extends_range hcall v).before

namespace Construction

theorem extends_lengths (part : Option Value) : Extends (lengths call part) (lengths call' part) := by
  unfold lengths
  split
  · exact extends_refl _
  · exact Length.extends_bounds hcall _

theorem extends_ofPredicate (v : Value) : Extends (ofPredicate call v) (ofPredicate call' v) :=
  (Predicate.extends_bounds hcall v).bind fun b =>
    extends_ite (Length.extends_bounds hcall (.range b)).before (extends_refl _)

theorem extends_compile (mode : LiteralMode) (v : Value) :
    Extends (compile call mode v) (compile call' mode v) := by
  unfold compile
  split
  · exact extends_refl _
  · refine Extends.before ?_
    unfold ruleOf
    split
    case h_6 => exact extends_ite (extends_ofPredicate hcall _) (extends_refl _)
    all_goals exact extends_refl _

theorem extends_compileAll (vs : List Value) :
    Extends (compileAll call vs) (compileAll call' vs) := by
  induction vs with
  | nil => exact extends_refl _
  | cons v vs ih => exact (extends_compile hcall .enum v).bind fun _ => ih.before

theorem extends_itemsRule (part : Option Value) :
    Extends (itemsRule call part) (itemsRule call' part) := by
  unfold itemsRule
  split
  · exact extends_refl _
  · exact (extends_compileAll hcall _).before
  · exact (extends_compileAll hcall _).before
  · exact (extends_compile hcall .enum _).before

theorem extends_children (owner : NodeClass) (part : Option Value) :
    Extends (children call owner part) (children call' owner part) := by
  unfold children
  split
  · exact extends_compileAll hcall _
  · exact extends_compileAll hcall _
  · exact extends_refl _
  · exact extends_refl _

theorem extends_negated (owner : NodeClass) (part : Option Value) :
    Extends (negated call owner part) (negated call' owner part) := by
  unfold negated
  split
  · exact extends_compile hcall .enum _
  · exact extends_refl _

theorem extends_numberRule (args : Arguments) :
    Extends (numberRule call args) (numberRule call' args) := by
  unfold numberRule
  split
  · exact extends_refl _
  · refine Extends.before ?_
    exact (Predicate.extends_range hcall _).before

theorem extends_ruleFrom (c : NodeClass) (args : Arguments) :
    Extends (ruleFrom call c args) (ruleFrom call' c args) := by
  cases c with
  | string =>
    refine Extends.map ?_ _
    exact extends_after fun _ => extends_after fun _ => extends_after fun _ =>
      (extends_lengths hcall _).before
  | number => exact (extends_numberRule hcall args).map _
  | array =>
    refine Extends.map ?_ _
    exact (extends_lengths hcall _).bind fun _ => (extends_itemsRule hcall _).before
  | combinator | anyOf | oneOf | allOf => exact (extends_children hcall _ _).map _
  | negation => exact (extends_negated hcall _ _).map _
  | boolean | object | schema | dictionary => exact extends_refl _

theorem extends_construct (c : NodeClass) (args : Arguments) :
    Extends (construct call c args) (construct call' c args) :=
  (extends_ruleFrom hcall c args).before

end Construction

/-! ## Builders -/

namespace Builder

theorem extends_checkModel (id : NodeId) (path : List Value) :
    Extends (checkModel call id path) (checkModel call' id path) := by
  intro w
  unfold checkModel
  cases (modelOf w.store id).present with
  | none => exact .inr rfl
  | some model =>
    have hread := fun text => (extends_meaningWithin hcall textDepth text).apart
      (annotationSpace w.models)
    exact extends_ofExcept (fun w' => Catalog.extends_check hread w.models (modelLabel w.store) []
      model path) w

theorem extends_add (id : NodeId) (selector value : Value) :
    Extends (add call id selector value) (add call' id selector value) := by
  have hresolve : Extends (resolve call selector value) (resolve call' selector value) :=
    (Selector.extends_path hcall selector).bind fun _ =>
      (Construction.extends_compile hcall .pattern value).before
  exact hresolve.bind fun r =>
    extends_ite (extends_refl _) (extends_checkModel hcall id r.1).before

end Builder

end

/-! ## Literals -/

namespace Literal

mutual

theorem extends_build (hcall : call.Extends call') : (x : Literal) →
    Extends (build call x) (build call' x)
  | .null | .bool _ | .int _ | .whole _ | .float _ | .text _ | .regex .. | .bytesRegex _
  | .function _ | .ref _ | .nodeClass _ | .builtin _ | .bytes _ | .foreign _ => by
    unfold build
    exact extends_refl _
  | .list xs | .tuple xs => by
    unfold build
    exact (extends_buildAll hcall xs).before
  | .dict entries => by
    unfold build
    exact (extends_buildEntries hcall entries).before
  | .range bounds => by
    unfold build
    exact (extends_buildBounds hcall bounds).before
  | .node c args named rules => by
    unfold build
    refine (extends_buildAll hcall args).bind fun vs => (extends_buildNamed hcall named).bind
      fun ps => ?_
    split
    · exact extends_refl _
    · exact (Construction.extends_construct hcall c _).bind fun id =>
        (extends_buildRules hcall (.node id) rules).before
  | .type t => by
    unfold build
    exact extends_buildType hcall t

theorem extends_buildAll (hcall : call.Extends call') : (xs : List Literal) →
    Extends (buildAll call xs) (buildAll call' xs)
  | [] => by
    unfold buildAll
    exact extends_refl _
  | x :: xs => by
    unfold buildAll
    exact (extends_build hcall x).bind fun _ => (extends_buildAll hcall xs).before

theorem extends_buildEntries (hcall : call.Extends call') : (es : List (String × Literal)) →
    Extends (buildEntries call es) (buildEntries call' es)
  | [] => by
    unfold buildEntries
    exact extends_refl _
  | (_, x) :: es => by
    unfold buildEntries
    exact (extends_build hcall x).bind fun _ => (extends_buildEntries hcall es).before

theorem extends_buildNamed (hcall : call.Extends call') : (ps : List (Parameter × Literal)) →
    Extends (buildNamed call ps) (buildNamed call' ps)
  | [] => by
    unfold buildNamed
    exact extends_refl _
  | (_, x) :: ps => by
    unfold buildNamed
    exact (extends_build hcall x).bind fun _ => (extends_buildNamed hcall ps).before

theorem extends_buildRules (hcall : call.Extends call') (target : Value) :
    (rules : List (Literal × Literal)) →
    Extends (buildRules call target rules) (buildRules call' target rules)
  | [] => by
    unfold buildRules
    exact extends_refl _
  | (selector, value) :: rest => by
    unfold buildRules
    exact (extends_build hcall value).bind fun v => extends_after fun id =>
      (extends_build hcall selector).bind fun s => (Builder.extends_add hcall id s v).bind fun _ =>
      extends_buildRules hcall target rest

theorem extends_buildBounds (hcall : call.Extends call') : (b : Bounds Literal) →
    Extends (buildBounds call b) (buildBounds call' b)
  | ⟨min, max, minExclusive, maxExclusive, ofLength⟩ => by
    unfold buildBounds
    exact (extends_build hcall min).bind fun _ => (extends_build hcall max).bind fun _ =>
      (extends_build hcall minExclusive).bind fun _ => (extends_build hcall maxExclusive).bind
      fun _ => (extends_build hcall ofLength).before

theorem extends_buildType (hcall : call.Extends call') : (t : TypeLiteral Literal) →
    Extends (buildType call t) (buildType call' t)
  | .basic _ | .any | .model _ => by
    unfold buildType
    exact extends_refl _
  | .optional t | .list t | .annotated t => by
    unfold buildType
    exact (extends_buildType hcall t).before
  | .choice ts | .joined ts => by
    unfold buildType
    exact (extends_buildTypes hcall ts).before
  | .dict key value => by
    unfold buildType
    exact (extends_buildType hcall key).bind fun _ => (extends_buildType hcall value).before
  | .value v => by
    unfold buildType
    exact extends_build hcall v

theorem extends_buildTypes (hcall : call.Extends call') : (ts : List (TypeLiteral Literal)) →
    Extends (buildTypes call ts) (buildTypes call' ts)
  | [] => by
    unfold buildTypes
    exact extends_refl _
  | t :: ts => by
    unfold buildTypes
    exact (extends_buildType hcall t).bind fun _ => (extends_buildTypes hcall ts).before

end

end Literal

/-! ## Calls -/

namespace Build

theorem extends_applyNode (hcall : call.Extends call') (id : NodeId) (name : String)
    (args : List Value) : Extends (applyNode call id name args) (applyNode call' id name args) := by
  unfold applyNode
  split
  case h_5 => exact (Builder.extends_add hcall id _ _).before
  all_goals exact extends_refl _

theorem extends_applyOther (hcall : call.Extends call') (callee : Value) (args : List Value) :
    Extends (applyOther call callee args) (applyOther call' callee args) := by
  unfold applyOther
  split
  · exact extends_refl _
  · exact extends_refl _
  · unfold applyMethod
    split
    · exact extends_refl _
    · exact extends_applyNode hcall _ _ args
    · exact extends_refl _
    · exact extends_ite (hcall _ args) (extends_refl _)
  · unfold applyClassMethod
    split
    · exact extends_applyNode hcall _ _ _
    · exact extends_refl _
    · exact extends_refl _
  · split
    · exact (Construction.extends_construct hcall _ _).map _
    · exact extends_refl _
  · exact extends_refl _

/-- Calls with one more call of room. -/
theorem extends_callWithin (fuel : Nat) : Caller.Extends (callWithin fuel) (callWithin (fuel + 1)) := by
  induction fuel with
  | zero => exact fun _ _ w => .inl ⟨w, rfl⟩
  | succ fuel ih =>
    intro v args
    cases v with
    | function id body =>
      rcases args with _ | ⟨arg, _ | ⟨arg', rest⟩⟩
      · exact extends_refl _
      · exact extends_evaluate (Literal.extends_build ih) ih arg body
      · exact extends_refl _
    | _ => exact extends_applyOther ih _ args

end Build

end DraftSchema
