import DraftSchema.Evaluation.Call
import DraftSchema.Proofs.Numeric
import DraftSchema.Proofs.Recast
import DraftSchema.Proofs.Resolution

/-!
# Selectors and values that stand for the same everywhere

An explicit path and a value that is no function stand for the same in every workspace. So do the
functions that are mostly given to a call: chains of accesses to names, and comparisons of the
argument, or of its length, with a number. They look at no rule and change none, and use up numbers
for what is made on the way. A call with such a selector and such a value stands for one path and
one rule, whatever has been put before it.
-/

namespace DraftSchema

open Catalog (outcome outcome_bind outcome_eq_ok)

/-! ## Builds that come to the same everywhere -/

namespace Build

variable {α β : Type} {b : Build α} {k : α → Build β}

/-- A build that comes to one result wherever it comes to any: once it has come to it in some
workspace, it does so in all of them, and uses up numbers at most. -/
def Uniform (b : Build α) : Prop :=
  ∀ a w w₁, b w = .ok a w₁ → ∀ w', ∃ next, b w' = .ok a { w' with next }

theorem uniform_of_ok {a : α} (h : ∀ w, ∃ next, b w = .ok a { w with next }) : b.Uniform := by
  intro c w w₁ hc
  obtain ⟨next, ha⟩ := h w
  cases ha.symm.trans hc
  exact h

theorem uniform_pure (a : α) : (pure a : Build α).Uniform := uniform_of_ok fun w => ⟨w.next, rfl⟩

theorem Uniform.bind (hb : b.Uniform) (hk : ∀ a, (k a).Uniform) : (b >>= k).Uniform := by
  intro c w w₂ h w'
  obtain ⟨a, w₁, ha, hc⟩ := bind_eq_ok.mp h
  obtain ⟨next, ha'⟩ := hb a w w₁ ha w'
  obtain ⟨next', hc'⟩ := hk a c w₁ w₂ hc { w' with next }
  exact ⟨next', (bind_of_ok ha').trans hc'⟩

theorem uniform_fromStore {g : Store → Except Fault α}
    (h : ∀ s t a, g s = .ok a → g t = .ok a) : (fromStore g).Uniform := by
  intro a w w₁ ha w'
  obtain ⟨hg, -⟩ := fromStore_eq_ok.mp ha
  exact ⟨w'.next, fromStore_of_ok (h _ _ a hg)⟩

end Build

namespace Length

/-- How values are named does not count for whether they are bounds of a length. -/
theorem outcome_exact (k k' : Value → String) (v : Value) :
    outcome Fault.sort (exact k v) = outcome Fault.sort (exact k' v) := by
  unfold exact
  split <;> rfl

theorem outcome_ofBounds (k k' : Value → String) (b : Bounds Value) :
    outcome Fault.sort (ofBounds k b) = outcome Fault.sort (ofBounds k' b) := by
  have hleast : outcome Fault.sort (least k b.min b.minExclusive.isTrue)
      = outcome Fault.sort (least k' b.min b.minExclusive.isTrue) := by
    unfold least
    split
    · rfl
    · simp only [outcome_bind, outcome_exact k k']
  have hmost : outcome Fault.sort (most k b.max b.maxExclusive.isTrue)
      = outcome Fault.sort (most k' b.max b.maxExclusive.isTrue) := by
    unfold most
    split
    · rfl
    · simp only [outcome_bind, outcome_exact k k']
  simp only [ofBounds, outcome_bind, hleast, hmost]

end Length

open Build

variable {call : Caller} {selector value : Value} {w w₁ : Workspace}

theorem Selector.uniform_path (hs : selector.isCallable = false) : (path call selector).Uniform :=
  fun _ _ _ h w' => ⟨w'.next, path_again hs h w'⟩

namespace Construction

variable {mode : LiteralMode}

/-- The rule that is read off a predicate depends on the bounds alone. -/
theorem uniform_ofPredicate (h : (Predicate.bounds call value).Uniform) :
    (ofPredicate call value).Uniform := by
  refine h.bind fun b => ?_
  split
  · have hlengths : (Length.bounds call (.range b)).Uniform :=
      (uniform_pure b).bind fun b => uniform_fromStore fun s t lengths hs =>
        outcome_eq_ok.mp ((Length.outcome_ofBounds _ _ b).trans (outcome_eq_ok.mpr hs))
    exact hlengths.bind fun lengths => uniform_pure _
  · exact uniform_pure _

theorem uniform_ruleOf (h : value.isCallable = true → (Predicate.bounds call value).Uniform) :
    (ruleOf call mode value).Uniform := by
  cases hv : value.isCallable with
  | false => exact fun _ _ _ hrule w' => ⟨w'.next, (ruleOf_again hv hrule).2 w'⟩
  | true =>
    unfold ruleOf
    split
    case h_6 =>
      split
      · exact uniform_ofPredicate (h hv)
      · intro rule w w₁ hrefuse
        cases hrefuse
    all_goals cases hv

theorem uniform_ruleOf_of_not_callable (hv : value.isCallable = false) :
    (ruleOf call mode value).Uniform :=
  uniform_ruleOf fun h => absurd (hv.symm.trans h) Bool.false_ne_true

end Construction

/-- A call of which selector and value stand for the same everywhere stands for a rule that is given,
or for a new one that refers to no other. -/
theorem Builder.resolve_again {path : List Value} {node : NodeId}
    (hs : (Selector.path call selector).Uniform)
    (hv : (Construction.ruleOf call .pattern value).Uniform)
    (h : resolve call selector value w = .ok (path, node) w₁) :
    (∀ w', ∃ next, resolve call selector value w' = .ok (path, node) { w' with next }) ∨
      ∃ rule : Rule, rule.references = [] ∧ ∀ w', ∃ next, resolve call selector value w'
        = .ok (path, w'.store.size)
            { w' with store := (w'.store.alloc ⟨rule, .bool true⟩).1, next } := by
  obtain ⟨found, w₂, hpath, hrest⟩ := bind_eq_ok.mp h
  obtain ⟨made, w₃, hmade, hpure⟩ := bind_eq_ok.mp hrest
  cases hpure
  have hpath' := hs _ _ _ hpath
  by_cases hnode : ∃ given, value = .node given
  · obtain ⟨given, rfl⟩ := hnode
    cases hmade
    refine .inl fun w' => ?_
    obtain ⟨next, hfound⟩ := hpath' w'
    exact ⟨next, bind_of_ok hfound⟩
  · have hcompile : Construction.compile call .pattern value
        = (Construction.ruleOf call .pattern value >>= fun rule => alloc rule (.bool true)) := by
      unfold Construction.compile
      split
      · exact absurd ⟨_, rfl⟩ hnode
      · rfl
    rw [hcompile] at hmade
    obtain ⟨rule, w₄, hrule, -⟩ := bind_eq_ok.mp hmade
    refine .inr ⟨rule, Construction.references_of_ruleOf hrule, fun w' => ?_⟩
    obtain ⟨next, hfound⟩ := hpath' w'
    obtain ⟨next', hagain⟩ := hv _ _ _ hrule { w' with next }
    refine ⟨next', ?_⟩
    rw [resolve, bind_of_ok hfound, hcompile]
    exact bind_of_ok (bind_of_ok hagain)

/-! ## Attributes that are recorded -/

/-- A name that recorders do not have themselves. -/
def IsRecorded (name : String) : Prop :=
  ∀ id path, recorderAttribute id path name = recorder (path ++ [.text name])

/-- What recorders have themselves begins and ends with two underscores. -/
theorem isReserved_of_ofRecorder {name : String} (h : Method.ofRecorder name = true) :
    Store.isReserved name = true := by
  have hall : ∀ own ∈ Value.recorderMethods ++ Value.commonFunctions ++ Method.slots,
      Store.isReserved own = true := by decide +kernel
  simp only [Method.ofRecorder, Bool.or_eq_true, List.contains_iff_mem] at h
  exact hall name (by simpa only [List.mem_append] using h)

/-- Any attribute that is neither reserved nor the place of the path itself is recorded. -/
theorem isRecorded_of_not_reserved {name : String} (hreserved : Store.isReserved name = false)
    (hpath : name ≠ pathAttribute) : IsRecorded name := by
  have hother : ∀ own, Store.isReserved own = true → name ≠ own := by
    rintro own hown rfl
    exact absurd hown (by simp [hreserved])
  have hmethod : Method.ofRecorder name = false := by
    cases h : Method.ofRecorder name with
    | false => rfl
    | true => exact absurd (isReserved_of_ofRecorder h) (by simp [hreserved])
  intro id path
  rw [recorderAttribute, if_neg hpath, if_neg (hother _ (by decide +kernel)),
    if_neg (hother _ (by decide +kernel)), if_neg (hother _ (by decide +kernel)),
    if_neg (hother _ (by decide +kernel)), if_neg (by simp [hmethod]), if_neg (by simp [hreserved])]

/-! ## Chains of accesses -/

/-- An access to a part by its name. -/
inductive Accessor where
  /-- `target["name"]` -/
  | item (name : String)
  /-- `target.name` -/
  | attr (name : String)

namespace Accessor

def name : Accessor → String
  | .item name => name
  | .attr name => name

/-- Whether a recorder lengthens its path at an access, and does not answer itself. -/
def isRecorded : Accessor → Bool
  | .item _ => true
  | .attr name => !Store.isReserved name && name ≠ pathAttribute

/-- The access to a part of what a body comes to. -/
def apply (target : Expression Literal) : Accessor → Expression Literal
  | .item name => .item target (.const (.text name))
  | .attr name => .attr target name

/-- A body that accesses parts of its argument, one after the other. -/
def chain (accessors : List Accessor) : Expression Literal := accessors.foldl apply .arg

variable {arg : Value}

/-- One access lengthens the path by the name, and makes one recorder. -/
theorem run_apply {a : Accessor} (ha : a.isRecorded = true) {e : Expression Literal} {k : Nat}
    {path : List Value} {w w' : Workspace}
    (he : evaluate (Literal.build call) call arg e w = .ok (.recorder k path) w') :
    evaluate (Literal.build call) call arg (a.apply e) w
      = .ok (.recorder w'.next (path ++ [.text a.name])) { w' with next := w'.next + 1 } := by
  cases a with
  | item name =>
    rw [apply, evaluate, bind_of_ok he]
    rfl
  | attr name =>
    obtain ⟨hreserved, hpath⟩ := Bool.and_eq_true_iff.mp ha
    have hrecorded := isRecorded_of_not_reserved (by simpa using hreserved)
      (of_decide_eq_true hpath) k path
    rw [apply, evaluate, bind_of_ok he]
    exact congrFun hrecorded w'

/-- A chain of accesses lengthens the path by the names in order. -/
theorem run_foldl {accessors : List Accessor} (h : ∀ a ∈ accessors, a.isRecorded = true)
    {e : Expression Literal} {k : Nat} {path : List Value} {w w' : Workspace}
    (he : evaluate (Literal.build call) call arg e w = .ok (.recorder k path) w') :
    ∃ k', evaluate (Literal.build call) call arg (accessors.foldl apply e) w
      = .ok (.recorder k' (path ++ accessors.map fun a => .text a.name))
          { w' with next := w'.next + accessors.length } := by
  induction accessors generalizing e k path w' with
  | nil => exact ⟨k, by rw [List.map_nil, List.append_nil]; exact he⟩
  | cons a rest ih =>
    obtain ⟨k', hrest⟩ := ih (fun b hb => h b (List.mem_cons_of_mem _ hb))
      (run_apply (h a List.mem_cons_self) he)
    refine ⟨k', ?_⟩
    rw [List.foldl_cons, hrest, List.map_cons, List.length_cons, List.append_assoc,
      Nat.add_assoc, Nat.add_comm 1]
    rfl

/-- A function that accesses names does it on any recorder. -/
theorem call_chain {accessors : List Accessor} (h : ∀ a ∈ accessors, a.isRecorded = true)
    (id n : Nat) (w : Workspace) :
    ∃ k, Build.call (.function id (chain accessors)) [.recorder n []] w
      = .ok (.recorder k (accessors.map fun a => .text a.name))
          { w with next := w.next + accessors.length } := by
  have hstart : evaluate (Literal.build (callWithin 299)) (callWithin 299) (.recorder n []) .arg w
      = .ok (.recorder n []) w := rfl
  exact run_foldl h hstart

end Accessor

/-- The ways to spell the names of a path. -/
inductive Spells (names : List String) : Value → Prop
  | list (id : Nat) : Spells names (.list id (names.map .text))
  | tuple : Spells names (.tuple (names.map .text))
  | function (id : Nat) {accessors : List Accessor} (names_eq : accessors.map Accessor.name = names)
      (recorded : ∀ a ∈ accessors, a.isRecorded = true) :
      Spells names (.function id (Accessor.chain accessors))

/-- A list of names is read as it is. -/
theorem Selector.names_of_texts (texts : List String) (w : Workspace) :
    names (texts.map .text) w = .ok (texts.map .text) w := by
  induction texts with
  | nil => rfl
  | cons text rest ih => exact bind_of_ok ih

/-- Every spelling is read as the names; a function uses up numbers at most. -/
theorem Spells.path {names : List String} {selector : Value} (h : Spells names selector) :
    ∃ used, ∀ w, Selector.path Build.call selector w
      = .ok (names.map .text) { w with next := w.next + used } := by
  cases h with
  | list | tuple => exact ⟨0, Selector.names_of_texts names⟩
  | @function id accessors names_eq recorded =>
    refine ⟨1 + accessors.length, fun w => ?_⟩
    obtain ⟨k, hrun⟩ := Accessor.call_chain recorded id w.next { w with next := w.next + 1 }
    refine (bind_of_ok (reading_of_ok _ hrun)).trans ?_
    rw [← names_eq, List.map_map, ← Nat.add_assoc]
    rfl

theorem Spells.uniform {names : List String} {selector : Value} (h : Spells names selector) :
    (Selector.path Build.call selector).Uniform := by
  obtain ⟨used, hpath⟩ := h.path
  exact uniform_of_ok fun w => ⟨_, hpath w⟩

/-! ## Comparisons -/

namespace Length

/-- The spellings of a comparison of the argument, or of its length, with a number. -/
def spellings (op : Relation) (l : Literal) : List (Expression Literal) :=
  [.compare op .arg (.const l), .compare op.converse (.const l) .arg,
    .compare op (.attr .arg "length") (.const l),
    .compare op.converse (.const l) (.attr .arg "length")]

variable {l : Literal} {c : Value} {q : Rat} {op : Relation} {body : Expression Literal}

/-- A comparison of the length of the argument with a number is recorded as it stands. -/
theorem run_compare_length (hl : l.number? = some c) (hx : c.denote? = some (.exact q))
    (op : Relation) (id operand : Nat) (w : Workspace) :
    ∃ record next, Build.call
      (.function id (.compare op (.attr .arg "length") (.const l))) [.operand operand false] w
        = .ok (.comparison record w.next true op c) { w with next } := by
  obtain ⟨next, hbuild⟩ :=
    Literal.build_of_number? hl hx (callWithin 299) { w with next := w.next + 1 }
  exact ⟨next, next + 1,
    bind_eq_ok.mpr ⟨.operand w.next true, _, rfl, bind_eq_ok.mpr ⟨c, _, hbuild, rfl⟩⟩⟩

/-- A comparison of a number with the length of the argument is recorded as its converse. -/
theorem run_compare_length_right (hl : l.number? = some c) (hx : c.denote? = some (.exact q))
    (op : Relation) (id operand : Nat) (w : Workspace) :
    ∃ record next measured, Build.call
      (.function id (.compare op (.const l) (.attr .arg "length"))) [.operand operand false] w
        = .ok (.comparison record measured true op.converse c) { w with next } := by
  obtain ⟨next, hbuild⟩ := Literal.build_of_number? hl hx (callWithin 299) w
  have hc := (Predicate.denote?_of_isBound (Literal.isBound_of_number? hl)).1
  refine ⟨next + 1, next + 2, next, ?_⟩
  refine bind_eq_ok.mpr ⟨c, _, hbuild, bind_eq_ok.mpr ⟨.operand next true, _, rfl, ?_⟩⟩
  rw [compare_of_operand_right hc]
  rfl

/-- Every spelling of a comparison is recorded as the comparison, wherever it is run. -/
theorem run_spelling (hl : l.number? = some c) (hx : c.denote? = some (.exact q))
    (hbody : body ∈ spellings op l) : ∃ ofLength, ∀ id operand w, ∃ record measured next,
      Build.call (.function id body) [.operand operand false] w
        = .ok (.comparison record measured ofLength op c) { w with next } := by
  simp only [spellings, List.mem_cons, List.not_mem_nil, or_false] at hbody
  rcases hbody with rfl | rfl | rfl | rfl
  · refine ⟨false, fun id operand w => ?_⟩
    obtain ⟨record, next, hrun⟩ := Construction.run_compare_left hl hx op id operand w
    exact ⟨_, _, _, hrun⟩
  · refine ⟨false, fun id operand w => ?_⟩
    obtain ⟨record, next, hrun⟩ := Construction.run_compare_right hl hx op.converse id operand w
    rw [Relation.converse_converse] at hrun
    exact ⟨_, _, _, hrun⟩
  · refine ⟨true, fun id operand w => ?_⟩
    obtain ⟨record, next, hrun⟩ := run_compare_length hl hx op id operand w
    exact ⟨_, _, _, hrun⟩
  · refine ⟨true, fun id operand w => ?_⟩
    obtain ⟨record, next, measured, hrun⟩ :=
      run_compare_length_right hl hx op.converse id operand w
    rw [Relation.converse_converse] at hrun
    exact ⟨_, _, _, hrun⟩

end Length

/-- A predicate that everywhere comes to the record of one comparison stands for its bounds, or is
refused everywhere. -/
theorem Predicate.uniform_bounds {ofLength : Bool} {op : Relation} {c : Value}
    (hcallable : value.isCallable = true) (hc : c.isBound = true)
    (hrun : ∀ operand w, ∃ record measured next, call value [.operand operand false] w
      = .ok (.comparison record measured ofLength op c) { w with next }) :
    (bounds call value).Uniform := by
  cases hb : Bounds.ofComparison? ofLength op c with
  | some b =>
    refine uniform_of_ok (a := b) fun w => ?_
    obtain ⟨record, measured, next, h⟩ := hrun w.next { w with next := w.next + 1 }
    exact ⟨next, bounds_of_record hcallable hc hb h⟩
  | none =>
    intro b w w₁ hbounds
    obtain ⟨record, measured, next, h⟩ := hrun w.next { w with next := w.next + 1 }
    unfold bounds at hbounds
    rw [if_neg (by simp [hcallable])] at hbounds
    obtain ⟨-, -, ⟨rfl, rfl⟩, hrest⟩ := bind_eq_ok.mp hbounds
    obtain ⟨result, w₂, hresult, hread⟩ := bind_eq_ok.mp hrest
    cases (reading_of_ok _ h).symm.trans hresult
    rw [ofResult?, if_pos hc, hb] at hread
    cases hread

theorem Construction.uniform_ruleOf_of_spelling {mode : LiteralMode} {l : Literal} {c : Value}
    {q : Rat} {op : Relation} {body : Expression Literal} (hl : l.number? = some c)
    (hx : c.denote? = some (.exact q)) (hbody : body ∈ Length.spellings op l) (id : Nat) :
    (ruleOf Build.call mode (.function id body)).Uniform := by
  obtain ⟨ofLength, hrun⟩ := Length.run_spelling hl hx hbody
  exact uniform_ruleOf fun _ =>
    Predicate.uniform_bounds rfl (Literal.isBound_of_number? hl) (hrun id)

end DraftSchema
