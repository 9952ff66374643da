import DraftSchema.Proofs.Uniform

/-!
# Spellings of a path

The names of a path may be listed, or accessed one after the other on the argument of a function,
each as a key or as an attribute. A recorder answers some attributes itself; every other access
lengthens its path by the name, so all spellings of a path are read alike. A call of a builder then
goes on alike, save that a function has used up numbers for the recorders that were made on the way.
-/

namespace DraftSchema

open Build

/-! ## Segments -/

/-- Of the segments of a path, in order, the last one is the leaf. -/
theorem Segment.ofPath_eq_mapIdx (path : List Value) :
    Segment.ofPath path = path.mapIdx fun i name => ⟨name, i + 1 = path.length⟩ := by
  induction path with
  | nil => rfl
  | cons name rest ih =>
    cases rest with
    | nil => rfl
    | cons next rest =>
      rw [ofPath, ih, List.mapIdx_cons]
      · simp [eq_comm]
      · simp

/-! ## Runs and the next number -/

/-- The end of a run, the next number aside. -/
def leftover {α : Type} :
    EStateM.Result Fault Workspace α → EStateM.Result Fault Workspace α
  | .ok a w => .ok a { w with next := 0 }
  | .error f w => .error f { w with next := 0 }

/-- A build that ends alike whichever number is the next. -/
def Unnumbered {α : Type} (b : Build α) : Prop :=
  ∀ w n, leftover (b { w with next := n }) = leftover (b w)

section

variable {α β : Type} {b : Build α} {k : α → Build β}

/-- Workspaces that differ in the next number alone. -/
theorem Unnumbered.eq_of_sameButNext (h : Unnumbered b) {w w' : Workspace}
    (hw : { w with next := 0 } = { w' with next := 0 }) : leftover (b w) = leftover (b w') := by
  rw [← h w 0, ← h w' 0, hw]

theorem Unnumbered.bind (hb : Unnumbered b) (hk : ∀ a, Unnumbered (k a)) :
    Unnumbered (b >>= k) := by
  intro w n
  have h := hb w n
  cases hw : b w with
  | ok a u =>
    cases hv : b { w with next := n } with
    | ok a' u' =>
      rw [hw, hv] at h
      obtain ⟨rfl, hu⟩ := EStateM.Result.ok.inj h
      rw [bind_of_ok hw, bind_of_ok hv]
      exact (hk a').eq_of_sameButNext hu
    | error f u' =>
      rw [hw, hv] at h
      cases h
  | error f u =>
    cases hv : b { w with next := n } with
    | ok a u' =>
      rw [hw, hv] at h
      cases h
    | error f' u' =>
      rw [hw, hv] at h
      obtain ⟨rfl, hu⟩ := EStateM.Result.error.inj h
      rw [bind_of_error hw, bind_of_error hv]
      exact congrArg (EStateM.Result.error f') hu

/-- A build that comes to the same everywhere, and touches nothing but the next number. -/
theorem unnumbered_of_ok {a : α} (h : ∀ w, ∃ next, b w = .ok a { w with next }) : Unnumbered b := by
  intro w n
  obtain ⟨next, hw⟩ := h w
  obtain ⟨next', hw'⟩ := h { w with next := n }
  rw [hw, hw']
  rfl

theorem unnumbered_pure (a : α) : Unnumbered (pure a : Build α) := fun _ _ => rfl

theorem unnumbered_fail (f : Fault) : Unnumbered (fail f : Build α) := fun _ _ => rfl

theorem unnumbered_ofExcept (x : Except Fault α) : Unnumbered (Build.ofExcept x) := by
  cases x with
  | ok a => exact unnumbered_pure a
  | error f => exact unnumbered_fail f

theorem unnumbered_store : Unnumbered store := fun _ _ => rfl

theorem unnumbered_fromStore (g : Store → Except Fault α) : Unnumbered (fromStore g) :=
  unnumbered_store.bind fun _ => unnumbered_ofExcept _

theorem unnumbered_modifyStore (f : Store → Store) : Unnumbered (modifyStore f) := fun _ _ => rfl

theorem unnumbered_say (message : String) : Unnumbered (say message) := fun _ _ => rfl

theorem unnumbered_typeName (v : Value) : Unnumbered (typeName v) :=
  unnumbered_store.bind fun _ => unnumbered_pure _

theorem unnumbered_alloc (rule : Rule) (required : Value) : Unnumbered (alloc rule required) :=
  fun _ _ => rfl

end

namespace Builder

variable {call : Caller} {id node : NodeId} {path : List Value} {value : Value}

theorem unnumbered_setAdditional : Unnumbered (setAdditional id node) :=
  (unnumbered_fromStore _).bind fun _ => unnumbered_store.bind fun _ =>
    (unnumbered_say _).bind fun _ => unnumbered_modifyStore _

theorem unnumbered_checkModel : Unnumbered (checkModel call id path) := by
  intro w n
  unfold checkModel
  dsimp only
  cases (modelOf w.store id).present with
  | none => rfl
  | some model => exact unnumbered_ofExcept _ w n

theorem unnumbered_place : Unnumbered (place id path node) := by
  refine unnumbered_store.bind fun s => ?_
  split
  · exact unnumbered_fail _
  · exact (unnumbered_modifyStore _).bind fun _ => unnumbered_ofExcept _

/-- To put a rule takes no numbers. -/
theorem unnumbered_putRule : Unnumbered (putRule call id path node) :=
  unnumbered_checkModel.bind fun _ => unnumbered_place.bind fun _ =>
    (unnumbered_fromStore _).bind fun _ => (unnumbered_fromStore _).bind fun _ => unnumbered_say _

/-- To read the rule off a predicate takes no more numbers than to read its bounds. -/
theorem unnumbered_ofPredicate (h : Unnumbered (Predicate.bounds call value)) :
    Unnumbered (Construction.ofPredicate call value) := by
  refine h.bind fun b => ?_
  split
  · have hlengths : Unnumbered (Length.bounds call (.range b)) :=
      (unnumbered_pure b).bind fun _ => unnumbered_fromStore _
    exact hlengths.bind fun _ => unnumbered_pure _
  · exact unnumbered_pure _

/-- To compile a value takes no numbers, unless it is a predicate that does. -/
theorem unnumbered_compile (h : value.isCallable = true → value.isClass = false →
    Unnumbered (Predicate.bounds call value)) :
    Unnumbered (Construction.compile call .pattern value) := by
  unfold Construction.compile
  split
  · exact unnumbered_pure _
  · refine Unnumbered.bind ?_ fun rule => unnumbered_alloc rule _
    unfold Construction.ruleOf
    split
    case h_1 _ r _ =>
      cases hbytes : r.onBytes with
      | false => exact unnumbered_pure _
      | true => exact fun w n => rfl
    case h_6 =>
      split
      case isTrue hrun =>
        obtain ⟨hcallable, hclass⟩ := Bool.and_eq_true_iff.mp hrun
        exact unnumbered_ofPredicate (h hcallable (by simpa using hclass))
      case isFalse => exact (unnumbered_typeName _).bind fun _ => unnumbered_fail _
    all_goals exact unnumbered_pure _

/-- A predicate that everywhere comes to the record of one comparison stands for its bounds,
whichever number is the next. -/
theorem unnumbered_bounds {ofLength : Bool} {op : Relation} {c : Value} {b : Bounds Value}
    (hcallable : value.isCallable = true) (hc : c.isBound = true)
    (hb : Bounds.ofComparison? ofLength op c = some b)
    (hrun : ∀ n w, ∃ record operand next, call value [.operand n false] w
      = .ok (.comparison record operand ofLength op c) { w with next }) :
    Unnumbered (Predicate.bounds call value) := by
  refine unnumbered_of_ok (a := b) fun w => ?_
  obtain ⟨record, operand, next, h⟩ := hrun w.next { w with next := w.next + 1 }
  exact ⟨next, Predicate.bounds_of_record hcallable hc hb h⟩

/-- What a call does once the path is read. -/
def addAt (call : Caller) (id : NodeId) (path : List Value) (value : Value) : Build Unit := do
  let node ← Construction.compile call .pattern value
  if path.isEmpty then setAdditional id node else putRule call id path node

theorem unnumbered_addAt (h : value.isCallable = true → value.isClass = false →
    Unnumbered (Predicate.bounds call value)) : Unnumbered (addAt call id path value) := by
  refine (unnumbered_compile h).bind fun node => ?_
  split
  · exact unnumbered_setAdditional
  · exact unnumbered_putRule

/-- A call goes on where its selector has been read. -/
theorem add_of_path {selector : Value} {w w' : Workspace}
    (h : Selector.path call selector w = .ok path w') :
    add call id selector value w = addAt call id path value w' := by
  rw [add, resolve, bind_assoc, bind_of_ok h, bind_assoc]
  rfl

/-- Two selectors stand for one path of names. -/
structure StandForOne (names : List String) (selector selector' : Value) : Prop where
  /-- Both are read as the names. Calls with the two do the same, each one after as many numbers
  have been used up as the other makes recorders. -/
  read : ∃ used used', ∀ w,
    Selector.path Build.call selector w = .ok (names.map .text) { w with next := w.next + used } ∧
    Selector.path Build.call selector' w = .ok (names.map .text) { w with next := w.next + used' } ∧
    ∀ id value, add Build.call id selector value { w with next := w.next + used' }
      = add Build.call id selector' value { w with next := w.next + used }
  /-- Calls with the two do the same, the next number aside, unless the value is a predicate that
  looks at the numbers. -/
  effect : ∀ id value, (value.isCallable = true → value.isClass = false →
      Unnumbered (Predicate.bounds Build.call value)) →
    ∀ w, leftover (add Build.call id selector value w)
      = leftover (add Build.call id selector' value w)
  /-- Of the segments, in order, the last one is the leaf. -/
  segments : Segment.ofPath (names.map .text)
    = names.mapIdx fun i name => ⟨.text name, i + 1 = names.length⟩

/-- All spellings of a path stand for it. -/
theorem spellings_agree {names : List String} {selector selector' : Value}
    (h : Spells names selector) (h' : Spells names selector') :
    StandForOne names selector selector' := by
  obtain ⟨used, hpath⟩ := h.path
  obtain ⟨used', hpath'⟩ := h'.path
  refine ⟨⟨used, used', fun w => ⟨hpath w, hpath' w, fun id value => ?_⟩⟩,
    fun id value hvalue w => ?_, ?_⟩
  · rw [add_of_path (hpath _), add_of_path (hpath' _)]
    dsimp only
    rw [Nat.add_right_comm]
  · rw [add_of_path (hpath w), add_of_path (hpath' w)]
    exact (unnumbered_addAt hvalue).eq_of_sameButNext rfl
  · rw [Segment.ofPath_eq_mapIdx, List.length_map]
    refine List.ext_getElem (by simp) fun i h _ => ?_
    simp

/-- Names that are empty, look like a pointer, or begin with underscores, with a predicate. -/
theorem spellings_agree_mixed :
    ∃ selector selector', Spells ["", "a/b", "__c"] selector ∧ Spells ["", "a/b", "__c"] selector' ∧
      StandForOne ["", "a/b", "__c"] selector selector' ∧
      ∀ id w, let below : Value := .function 8 (.compare .lt .arg (.const (.int 10)))
        leftover (add Build.call id selector below w)
          = leftover (add Build.call id selector' below w) := by
  have hfunction : Spells ["", "a/b", "__c"]
      (.function 7 (Accessor.chain [.item "", .attr "a/b", .attr "__c"])) :=
    .function 7 rfl (by decide +kernel)
  have hagree := spellings_agree .tuple hfunction
  refine ⟨_, _, .tuple, hfunction, hagree, fun id w => hagree.effect id _ (fun _ _ => ?_) w⟩
  have hb : Bounds.ofComparison? false .lt (.int 10)
      = some ⟨.null, .int 10, .bool false, .bool true, .bool false⟩ := rfl
  refine unnumbered_bounds rfl rfl hb fun n w => ?_
  obtain ⟨record, next, h⟩ :=
    Construction.run_compare_left (l := .int 10) (c := .int 10) rfl rfl .lt 8 n w
  exact ⟨record, n, next, h⟩

end Builder

end DraftSchema
