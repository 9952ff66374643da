import DraftSchema.Proofs.Reference
import DraftSchema.Proofs.Run

/-!
# What a call stands for

Finding out the path and the rule that a call stands for runs the caller's own functions, and
besides makes at most one new rule. So the rules there are stay as they are unless one of these
functions changes them.
-/

namespace DraftSchema

namespace Build

variable {α β : Type}

/-- A build leaves the rules there are as they are; it may make new ones. -/
def Keeps (b : Build α) : Prop := ∀ w, (b.after w).store.Extends w.store

theorem keeps_of_store_eq {b : Build α} (h : ∀ w, (b.after w).store = w.store) : b.Keeps := by
  intro w
  rw [h]
  exact .refl _

theorem keeps_pure (a : α) : (pure a : Build α).Keeps := keeps_of_store_eq fun _ => rfl

theorem keeps_fail (f : Fault) : (fail f : Build α).Keeps := keeps_of_store_eq fun _ => rfl

theorem keeps_refuse (r : Refusal) : (refuse r : Build α).Keeps := keeps_fail _

theorem keeps_fresh : fresh.Keeps := keeps_of_store_eq fun _ => rfl

theorem keeps_store : store.Keeps := keeps_of_store_eq fun _ => rfl

theorem keeps_ofExcept (r : Except Fault α) : (ofExcept r).Keeps := by
  cases r with
  | ok a => exact keeps_pure a
  | error f => exact keeps_fail f

theorem keeps_alloc (rule : Rule) (required : Value) : (alloc rule required).Keeps := by
  intro w
  exact Store.extends_alloc w.store ⟨rule, required⟩

theorem Keeps.bind {b : Build α} {k : α → Build β} (hb : b.Keeps) (hk : ∀ a, (k a).Keeps) :
    (b >>= k).Keeps := by
  intro w
  have hfirst := hb w
  cases h : b w with
  | ok a w₁ =>
    rw [after_of_ok h] at hfirst
    have hrest : (b >>= k).after w = (k a).after w₁ := by rw [after, bind_of_ok h, after]
    rw [hrest]
    exact (hk a w₁).trans hfirst
  | error f w₁ =>
    rw [after_of_error h] at hfirst
    rw [after_of_error (bind_of_error h)]
    exact hfirst

theorem keeps_fromStore (g : Store → Except Fault α) : (fromStore g).Keeps :=
  keeps_store.bind fun s => keeps_ofExcept (g s)

theorem keeps_typeName (v : Value) : (typeName v).Keeps :=
  keeps_store.bind fun s => keeps_pure (s.typeName v)

theorem Keeps.attempt {b : Build α} (hb : b.Keeps) : b.attempt.Keeps := by
  intro w
  have h := hb w
  unfold after at h
  unfold Build.attempt after
  cases hbw : b w <;> simp_all

theorem Keeps.reading {b : Build α} (replaced : Fault → Fault) (hb : b.Keeps) :
    (b.reading replaced).Keeps := by
  refine hb.attempt.bind fun r => ?_
  cases r with
  | ok a => exact keeps_pure a
  | error f =>
    show (if _ then fail (replaced f) else fail f : Build α).Keeps
    split
    · exact keeps_fail _
    · exact keeps_fail f

end Build

open Build

variable {call : Caller} {selector value : Value}

/-- The functions among the values that are given to a call leave the rules there are alone. -/
def Value.Harmless (call : Caller) (v : Value) : Prop :=
  v.isCallable = true → ∀ args, (call v args).Keeps

theorem Value.eq_of_present {u v : Value} (h : u.present = some v) : v = u := by
  cases u <;> cases h <;> rfl

theorem Value.harmless_of_not_callable {v : Value} (h : v.isCallable = false) :
    v.Harmless call :=
  fun hc => absurd (h.symm.trans hc) Bool.false_ne_true

theorem Selector.keeps_names (vs : List Value) : (names vs).Keeps := by
  induction vs with
  | nil => exact keeps_pure []
  | cons v vs ih =>
    cases v with
    | text name => exact ih.bind fun rest => keeps_pure _
    | _ => exact (keeps_typeName _).bind fun type => keeps_refuse _

theorem Selector.keeps_path (h : selector.Harmless call) : (path call selector).Keeps := by
  unfold path
  split
  · exact keeps_names _
  · exact keeps_names _
  · split
    · rename_i hcallable
      refine (keeps_fresh.bind fun id => keeps_pure _).bind fun start => ?_
      refine ((h hcallable [start]).reading _).bind fun result => ?_
      split
      · exact keeps_pure _
      · exact keeps_refuse _
    · exact (keeps_typeName _).bind fun type => keeps_refuse _

theorem Predicate.keeps_bounds (h : value.Harmless call) : (bounds call value).Keeps := by
  cases hcallable : value.isCallable with
  | false =>
    refine keeps_of_store_eq fun w => ?_
    simp [bounds, hcallable, after, bind, EStateM.bind, refuse, fail]
  | true =>
    simp only [bounds, hcallable, Bool.not_true, Bool.false_eq_true, if_false]
    refine (keeps_fresh.bind fun id => keeps_pure _).bind fun x => ?_
    refine ((h hcallable [x]).reading _).bind fun result => ?_
    split
    · exact keeps_pure _
    · exact keeps_refuse _

/-- The source of a pattern is a text, or else is asked for as an attribute. -/
theorem Construction.keeps_patternSource (r : Regex) :
    (patternSource (some (if r.onBytes then .bytes r.source else .text r.source))).Keeps := by
  split
  · refine Keeps.bind (keeps_store.bind fun s => ?_) fun part => keeps_pure _
    split
    · exact keeps_pure _
    · exact keeps_fail _
  · exact keeps_pure _

theorem Construction.keeps_ofPredicate (h : value.Harmless call) :
    (ofPredicate call value).Keeps := by
  refine (Predicate.keeps_bounds h).bind fun b => ?_
  split
  · exact ((keeps_pure b).bind fun b => keeps_fromStore _).bind fun lengths => keeps_pure _
  · exact keeps_pure _

theorem Construction.keeps_compile (h : value.Harmless call) (mode : LiteralMode) :
    (compile call mode value).Keeps := by
  unfold compile
  split
  · exact keeps_pure _
  · refine Keeps.bind ?_ fun rule => keeps_alloc rule _
    unfold ruleOf
    split
    case h_1 r _ => exact (keeps_patternSource r).bind fun source => keeps_pure _
    case h_2 => cases mode <;> exact keeps_pure _
    case h_6 =>
      split
      · exact keeps_ofPredicate h
      · exact (keeps_typeName _).bind fun type => keeps_refuse _
    all_goals exact keeps_pure _

/-- Finding out what a call stands for leaves the rules there are as they are, if the functions
that are given to the call do. -/
theorem Builder.keeps_resolve (hs : selector.Harmless call) (hv : value.Harmless call) :
    (resolve call selector value).Keeps :=
  (Selector.keeps_path hs).bind fun path =>
    (Construction.keeps_compile hv .pattern).bind fun node => keeps_pure (path, node)

/-! ## Without functions

A selector and a value that are no functions stand for the same path and the same rule whenever they
are asked.
-/

variable {w w₁ : Workspace}

theorem Selector.names_again {vs found : List Value} (h : names vs w = .ok found w₁)
    (w' : Workspace) : names vs w' = .ok found w' := by
  induction vs generalizing found w₁ with
  | nil =>
    cases h
    rfl
  | cons v vs ih =>
    cases v with
    | text name =>
      obtain ⟨rest, w₂, hrest, hpure⟩ := bind_eq_ok.mp h
      cases hpure
      exact bind_of_ok (ih hrest)
    | _ =>
      obtain ⟨type, w₂, -, hrefuse⟩ := bind_eq_ok.mp h
      cases hrefuse

theorem Selector.path_again {found : List Value} (hs : selector.isCallable = false)
    (h : path call selector w = .ok found w₁) (w' : Workspace) :
    path call selector w' = .ok found w' := by
  unfold path at h ⊢
  split at h
  · exact names_again h w'
  · exact names_again h w'
  · rw [if_neg (by simp [hs])] at h
    obtain ⟨type, w₂, -, hrefuse⟩ := bind_eq_ok.mp h
    cases hrefuse

/-- A literal stands for one rule, which refers to no other. -/
theorem Construction.ruleOf_again {mode : LiteralMode} {rule : Rule}
    (hv : value.isCallable = false) (h : ruleOf call mode value w = .ok rule w₁) :
    rule.references = [] ∧ ∀ w', ruleOf call mode value w' = .ok rule w' := by
  unfold ruleOf at h ⊢
  split at h
  case h_1 r =>
    cases hbytes : r.onBytes with
    | false =>
      simp only [hbytes] at h ⊢
      cases h
      exact ⟨rfl, fun _ => rfl⟩
    | true =>
      -- bytes have no pattern of their own
      simp only [hbytes] at h ⊢
      cases h
  case h_2 =>
    cases mode <;> cases h <;> exact ⟨rfl, fun _ => rfl⟩
  case h_6 =>
    rw [if_neg (by simp [hv])] at h
    obtain ⟨type, w₂, -, hrefuse⟩ := bind_eq_ok.mp h
    cases hrefuse
  all_goals
    cases h
    exact ⟨rfl, fun _ => rfl⟩

/-- To find out what a call without functions stands for makes a rule at most. -/
theorem Builder.resolve_cases {path : List Value} {node : NodeId} (hs : selector.isCallable = false)
    (hv : value.isCallable = false) (h : resolve call selector value w = .ok (path, node) w₁) :
    w₁ = w ∨ ∃ rule, Construction.ruleOf call .pattern value w = .ok rule w ∧
      alloc rule (.bool true) w = .ok node w₁ := by
  obtain ⟨found, w₂, hpath, hrest⟩ := bind_eq_ok.mp h
  obtain ⟨made, w₃, hcompile, hpure⟩ := bind_eq_ok.mp hrest
  cases hpure
  cases (Selector.path_again hs hpath w).symm.trans hpath
  unfold Construction.compile at hcompile
  split at hcompile
  · cases hcompile
    exact .inl rfl
  · obtain ⟨rule, w₄, hrule, halloc⟩ := bind_eq_ok.mp hcompile
    cases ((Construction.ruleOf_again hv hrule).2 w).symm.trans hrule
    exact .inr ⟨rule, hrule, halloc⟩

/-! ## Rules that are made

The rule that a raw value or a predicate stands for refers to no other.
-/

/-- The bounds that are read off a comparison are the number compared with, or absent. -/
theorem Predicate.bound_of_ofResult? {result : Value} {b : Bounds Value}
    (h : ofResult? result = some b) :
    ∃ x, x.isBound = true ∧ (b.min = x ∨ b.min = .null) ∧ (b.max = x ∨ b.max = .null) := by
  unfold ofResult? at h
  split at h
  · split at h
    · rename_i op v hv
      refine ⟨v, hv, ?_⟩
      cases op <;> cases h <;> simp
    · cases h
  · cases h

/-- There is no rule in a bound. -/
theorem Value.nodes_of_bound {v : Value} (h : v.isBound = true ∨ v = .null) : v.nodes = [] := by
  rcases h with h | rfl
  · cases v <;> first | rfl | cases h
  · rfl

namespace Construction

open Build

variable {call : Caller} {mode : LiteralMode} {v : Value} {rule : Rule} {w w₁ : Workspace}

theorem nodes_of_ofResult? {result : Value} {b : Bounds Value}
    (h : Predicate.ofResult? result = some b) : b.min.nodes = [] ∧ b.max.nodes = [] := by
  obtain ⟨x, hx, hmin, hmax⟩ := Predicate.bound_of_ofResult? h
  exact ⟨Value.nodes_of_bound (hmin.imp_left fun h => (congrArg _ h).trans hx),
    Value.nodes_of_bound (hmax.imp_left fun h => (congrArg _ h).trans hx)⟩

theorem ofResult?_of_bounds {b : Bounds Value} (h : Predicate.bounds call v w = .ok b w₁) :
    ∃ result, Predicate.ofResult? result = some b := by
  unfold Predicate.bounds at h
  split at h
  · cases h
  · obtain ⟨x, w₂, -, h⟩ := bind_eq_ok.mp h
    obtain ⟨result, w₃, -, h⟩ := bind_eq_ok.mp h
    refine ⟨result, ?_⟩
    cases hresult : Predicate.ofResult? result with
    | none =>
      rw [hresult] at h
      cases h
    | some found =>
      rw [hresult] at h
      cases h
      rfl

/-- The rule for numbers within bounds refers to what the bounds do. -/
theorem references_ofBounds {b : Bounds Value} (hmin : b.min.nodes = []) (hmax : b.max.nodes = []) :
    (Rule.number (.ofBounds b)).references = [] := by
  refine List.eq_nil_iff_forall_not_mem.mpr fun c hc => ?_
  simp only [Rule.references, List.append_nil] at hc
  obtain ⟨v, hv, hc⟩ := Value.mem_nodesOf.mp hc
  obtain ⟨part, hpart, rfl⟩ := List.mem_filterMap.mp hv
  simp only [Rule.parts, NumberRule.ofBounds, NumberRule.any, List.mem_cons, List.not_mem_nil,
    or_false] at hpart
  rcases hpart with h | h | h | h | h
  · cases h
  · rw [Value.eq_of_present h.symm, hmin] at hc
    cases hc
  · rw [Value.eq_of_present h.symm, hmax] at hc
    cases hc
  · split at h <;> cases h
    cases hc
  · split at h <;> cases h
    cases hc

theorem references_ofLengths (b : LengthBounds) : (Rule.array (.ofLengths b)).references = [] := by
  obtain ⟨least, most⟩ := b
  cases least <;> cases most <;> rfl

/-- The rule that a raw value stands for refers to no other: bounds are numbers. -/
theorem references_of_ruleOf (h : ruleOf call mode v w = .ok rule w₁) : rule.references = [] := by
  cases hv : v.isCallable with
  | false => exact (ruleOf_again hv h).1
  | true =>
    unfold ruleOf at h
    split at h
    case h_6 =>
      split at h
      · obtain ⟨b, w₂, hb, h⟩ := bind_eq_ok.mp h
        obtain ⟨result, hresult⟩ := ofResult?_of_bounds hb
        obtain ⟨hmin, hmax⟩ := nodes_of_ofResult? hresult
        split at h
        · obtain ⟨lengths, w₃, -, h⟩ := bind_eq_ok.mp h
          cases h
          exact references_ofLengths lengths
        · cases h
          exact references_ofBounds hmin hmax
      · obtain ⟨type, w₂, -, hrefuse⟩ := bind_eq_ok.mp h
        cases hrefuse
    all_goals cases hv

/-- No rule is made for a rule that is given. -/
theorem ruleOf_node (m : NodeId) : ruleOf call mode (.node m) w ≠ .ok rule w₁ := by
  intro h
  obtain ⟨type, w₂, -, hrefuse⟩ := bind_eq_ok.mp h
  cases hrefuse

theorem compile_of_ruleOf (h : ruleOf call mode v w = .ok rule w₁) :
    compile call mode v w = .ok w₁.store.size
      { w₁ with store := (w₁.store.alloc ⟨rule, .bool true⟩).1 } := by
  unfold compile
  split
  · exact absurd h (ruleOf_node _)
  · exact bind_of_ok h

end Construction

end DraftSchema
