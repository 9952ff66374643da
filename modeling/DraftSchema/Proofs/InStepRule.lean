import DraftSchema.Construction
import DraftSchema.Proofs.InStepOperation

/-!
# Making rules in step

What reads functions calls them, so it runs in step if calls do. A function that is read meets an
argument of its own, and the comparison that it comes to is one with that argument; the argument that
is turned round is another one, so that the bounds are the same. A rule that is made from values in
which the argument is turned round is that rule with the argument turned round in it.
-/

namespace DraftSchema

open Value

variable {σ : Outlook} {call : Caller}

/-- Calls are in step, if no attributes are asked for in what is called. -/
def Caller.InStep (call : Caller) : Prop :=
  ∀ (σ : Outlook) (v : Value) (args : List Value), v.Callee σ.names → (∀ x ∈ args, x.Blind σ) →
    Build.Echo σ (call v args) (call (v.turned σ.own) (turnedAll σ.own args))

/-! ## Functions that are only read -/

namespace Build

variable {α β : Type} {Q : α → Prop} {g : α → β} {x : Build α} {y : Build β}

theorem inStep_reading {replaced : Fault → Fault} (h : InStep σ Q g x y) :
    InStep σ Q g (reading replaced x) (reading replaced y) := by
  refine h.attempt.bind fun r hr => ?_
  cases r with
  | ok a => exact inStep_pure (hr a rfl)
  | error f => exact inStep_ite (fun _ => inStep_fail _) fun _ => inStep_fail _

/-- Which arguments may be met does not matter for the workspaces that two runs go through. -/
theorem InStep.of_reading {operand : Nat} (h : InStep (σ.reading operand) Q g x y) :
    InStep σ Q g x y := by
  intro w hw
  have hrun := h w ⟨hw.made, hw.vars⟩
  cases hxw : x w with
  | ok a w₁ =>
    rw [hxw] at hrun
    obtain ⟨ha, hy, hw₁⟩ := hrun
    exact ⟨ha, hy, ⟨hw₁.made, hw₁.vars⟩⟩
  | error f w₁ =>
    rw [hxw] at hrun
    exact ⟨hrun.1, ⟨hrun.2.made, hrun.2.vars⟩⟩

theorem inStep_operand : InStep σ (fun v => ∃ n, n ≠ σ.own ∧ v = .operand n false) id (operand false)
    (operand false) :=
  inStep_fresh.bind fun n hn => inStep_pure ⟨n, hn, rfl⟩

end Build

open Build

namespace Selector

variable {v : Value}

theorem inStep_names (vs : List Value) : InStep σ (fun _ => True) (turnedAll σ.own) (names vs)
    (names (turnedAll σ.own vs)) := by
  induction vs with
  | nil => exact inStep_pure trivial
  | cons v vs ih =>
    have hother : InStep σ (fun _ => True) (turnedAll σ.own)
        (do refuse (.pathName (← typeName v)))
        (do refuse (.pathName (← typeName (v.turned σ.own)))) :=
      (agree_typeName v).then fun _ => inStep_refuse _
    cases v with
    | text name => exact ih.then fun _ => inStep_pure trivial
    | _ => exact hother

theorem inStep_recorded (hcall : call.InStep) (hv : v.Callee σ.names) :
    InStep σ (fun _ => True) (turnedAll σ.own) (recorded call v) (recorded call (v.turned σ.own)) := by
  refine (echo_recorder (σ := σ) (by simp)).bind fun start hstart => ?_
  refine (inStep_reading (hcall σ v [start] hv (List.forall_mem_singleton.mpr hstart))).then
    fun result => ?_
  cases result with
  | recorder id path => exact inStep_pure trivial
  | _ => exact inStep_refuse _

theorem inStep_path (hcall : call.InStep) (hv : v.Callee σ.names) :
    InStep σ (fun _ => True) (turnedAll σ.own) (path call v) (path call (v.turned σ.own)) := by
  have hother : InStep σ (fun _ => True) (turnedAll σ.own)
      (if v.isCallable then recorded call v else do refuse (.notASelector (← typeName v)))
      (if (v.turned σ.own).isCallable then recorded call (v.turned σ.own)
        else do refuse (.notASelector (← typeName (v.turned σ.own)))) := by
    rw [isCallable_turned]
    exact inStep_ite (fun _ => inStep_recorded hcall hv) fun _ =>
      (agree_typeName v).then fun _ => inStep_refuse _
  cases v with
  | list id vs | tuple vs => exact inStep_names vs
  | _ => exact hother

end Selector

/-! ## Bounds -/

namespace Predicate

variable {v : Value}

theorem ofComparison?_turned (own : Nat) (ofLength : Bool) (op : Relation) (v : Value) :
    Bounds.ofComparison? ofLength op (v.turned own)
      = (Bounds.ofComparison? ofLength op v).map (turnedBounds own) := by
  cases op <;> rfl

/-- A comparison with an argument other than the one that is turned round has the same bounds. -/
theorem ofResult?_turned {operand : Nat} (hown : operand ≠ σ.own) (hv : v.Blind (σ.reading operand)) :
    ofResult? (v.turned σ.own) = (ofResult? v).map (turnedBounds σ.own) := by
  cases v with
  | comparison id made ofLength op bound =>
    have hmade : made ≠ σ.own := fun h => hown (hv.1.1.symm.trans h)
    simp only [turned, ofResult?, flag, if_neg hmade, isBound_turned]
    split
    · exact ofComparison?_turned σ.own ofLength op bound
    · rfl
  | _ => rfl

theorem inStep_bounds (hcall : call.InStep) (hv : v.Callee σ.names) :
    InStep σ (fun _ => True) (turnedBounds σ.own) (bounds call v) (bounds call (v.turned σ.own)) := by
  unfold bounds
  dsimp only
  rw [isCallable_turned]
  split
  · exact inStep_fail _
  refine inStep_operand.bind fun x hx => ?_
  obtain ⟨operand, hown, rfl⟩ := hx
  have hrun := hcall (σ.reading operand) v [.operand operand false] hv
    (List.forall_mem_singleton.mpr ⟨rfl, rfl⟩)
  rw [show turnedAll (σ.reading operand).own [.operand operand false] = [.operand operand false] from
    congrArg (fun b => [Value.operand operand b]) (if_neg hown)] at hrun
  refine (inStep_reading hrun).of_reading.bind fun result hresult => ?_
  rw [show (σ.reading operand).own = σ.own from rfl, ofResult?_turned hown hresult]
  cases ofResult? result with
  | none => exact inStep_refuse _
  | some b => exact inStep_pure trivial

theorem inStep_range (hcall : call.InStep) (hv : v.Callee σ.names) :
    InStep σ (fun _ => True) (turnedBounds σ.own) (range call v) (range call (v.turned σ.own)) := by
  have hother := inStep_bounds hcall hv
  cases v with
  | range b => exact inStep_pure trivial
  | _ => exact hother

end Predicate

namespace Length

variable {v : Value}

theorem exact_turned (own : Nat) (s : Store) (v : Value) :
    exact (s.turned own).kindName (v.turned own) = exact s.kindName v := by
  unfold exact
  rw [denote?_turned, Store.kindName_turned]

theorem least_turned (own : Nat) (s : Store) (v : Value) (exclusive : Bool) :
    least (s.turned own).kindName (v.turned own) exclusive = least s.kindName v exclusive := by
  unfold least
  rw [present_turned]
  cases v.present with
  | none => rfl
  | some v => simp only [Option.map_some, exact_turned]

theorem most_turned (own : Nat) (s : Store) (v : Value) (exclusive : Bool) :
    most (s.turned own).kindName (v.turned own) exclusive = most s.kindName v exclusive := by
  unfold most
  rw [present_turned]
  cases v.present with
  | none => rfl
  | some v => simp only [Option.map_some, exact_turned]

theorem ofBounds_turned (own : Nat) (s : Store) (b : Bounds Value) :
    ofBounds (s.turned own).kindName (turnedBounds own b) = ofBounds s.kindName b := by
  obtain ⟨min, max, minExclusive, maxExclusive, ofLength⟩ := b
  simp only [ofBounds, turnedBounds, least_turned, most_turned, isTrue_turned]

theorem agree_bounds (hcall : call.InStep) (hv : v.Callee σ.names) :
    Agree σ (bounds call v) (bounds call (v.turned σ.own)) :=
  (Predicate.inStep_range hcall hv).then fun b =>
    agree_fromStore fun s => ofBounds_turned σ.own s b

end Length

/-! ## Arguments -/

namespace Arguments

/-- Arguments of a rule in which the argument of a predicate is turned round. -/
def turned (own : Nat) (args : Arguments) : Arguments := args.map fun a => (a.1, a.2.turned own)

/-- What is given for the parameters of a rule is blind. -/
def Blind (σ : Outlook) (args : Arguments) : Prop := ∀ a ∈ args, a.2.Blind σ

variable {own : Nat} {args : Arguments}

theorem get?_turned (args : Arguments) (p : Parameter) :
    (args.turned own).get? p = (args.get? p).map (Value.turned own) := by
  rw [get?, turned, List.find?_map, Option.map_map, get?, Option.map_map]
  rfl

theorem present_turned (args : Arguments) (p : Parameter) :
    (args.turned own).present p = (args.present p).map (Value.turned own) := by
  rw [present, get?_turned, present]
  cases args.get? p with
  | none => rfl
  | some v => exact Value.present_turned v

theorem required_turned (args : Arguments) :
    (args.turned own).required = args.required.turned own := by
  rw [required, get?_turned, required]
  cases args.get? .required <;> rfl

theorem blind_get? (h : args.Blind σ) (p : Parameter) : ∀ v ∈ args.get? p, v.Blind σ := by
  intro v hv
  obtain ⟨a, ha, rfl⟩ := Option.map_eq_some_iff.mp hv
  exact h a (List.mem_of_find?_eq_some ha)

theorem blind_present (h : args.Blind σ) (p : Parameter) : ∀ v ∈ args.present p, v.Blind σ := by
  intro v hv
  obtain ⟨u, hu, hpresent⟩ := Option.bind_eq_some_iff.mp hv
  exact Value.blind_present (blind_get? h p u hu) v hpresent

theorem ofPositional?_turned (c : NodeClass) (values : List Value) (named : Arguments) :
    ofPositional? c (turnedAll own values) (named.turned own)
      = (ofPositional? c values named).map (turned own) := by
  unfold ofPositional?
  rw [length_turnedAll]
  split
  · simp only [Option.map_some, turned, List.map_append, turnedAll_eq_map, List.zip_map_right]
    rfl
  · rfl

theorem blind_ofPositional? {c : NodeClass} {values : List Value} {named given : Arguments}
    (hvalues : ∀ v ∈ values, v.Blind σ) (hnamed : named.Blind σ)
    (h : ofPositional? c values named = some given) : given.Blind σ := by
  unfold ofPositional? at h
  split at h
  · cases h
    refine List.forall_mem_append.mpr ⟨fun a ha => hvalues _ ?_, hnamed⟩
    exact (List.of_mem_zip ha).2
  · cases h

end Arguments

/-! ## Attributes -/

/-- The attributes of a rule, as they are read from it. -/
theorem Rule.attributes_turned (own : Nat) (rule : Rule) :
    (rule.turned own).attributes = turnedMembers own rule.attributes := by
  have hpart : ∀ part : Option Value,
      partValue (part.map (Value.turned own)) = (partValue part).turned own := fun part => by
    cases part <;> rfl
  have hlist : ∀ part : Option (List Value),
      listValue (part.map (·.map (Value.turned own))) = (listValue part).turned own := fun part => by
    rw [listValue, map_listing_turned, hpart, listValue]
  have hnodes : ∀ ids : List NodeId,
      (Value.listing (ids.map .node)).turned own = .listing (ids.map .node) := fun ids => by
    rw [turned_listing, List.map_map]
    rfl
  cases rule with
  | string r => simp [Rule.turned, Rule.mapValues, Rule.attributes, StringRule.attributes,
      turnedMembers, hpart, hlist]
  | number r => simp [Rule.turned, Rule.mapValues, Rule.attributes, NumberRule.attributes,
      turnedMembers, hpart]
  | boolean allowed => simp [Rule.turned, Rule.mapValues, Rule.attributes, turnedMembers, hlist]
  | array r =>
    have hitems : r.items.value.turned own = r.items.value := by
      cases r.items with
      | free | every => rfl
      | each ids => exact hnodes ids
    simp [Rule.turned, Rule.mapValues, Rule.attributes, ArrayRule.attributes, turnedMembers, hpart,
      hitems, Value.turned]
  | object r =>
    have hproperties : Value.mapping (turnedEntries own r.properties)
        = (Value.mapping r.properties).turned own := rfl
    have hrequired : Value.listing (turnedAll own r.required)
        = (Value.listing r.required).turned own := rfl
    simp only [Rule.turned, Rule.attributes, ObjectRule.attributes, ObjectRule.turned, hpart,
      hproperties, hrequired, turnedMembers, List.map_append, List.map_cons, List.map_nil]
    split <;> rfl
  | combinator kind ids =>
    cases kind <;> simp [Rule.turned, Rule.mapValues, Rule.attributes, combinatorAttributes,
      CombinatorKind.childrenName?, turnedMembers, hnodes, Value.turned]
  | negation id => rfl

theorem get?_turnedMembers (own : Nat) (es : Entries String Value) (name : String) :
    (turnedMembers own es).get? name = (es.get? name).map (Value.turned own) := by
  induction es with
  | nil => rfl
  | cons e es ih =>
    obtain ⟨k, x⟩ := e
    change Entries.get? ((k, x.turned own) :: turnedMembers own es) name = _
    rw [Entries.get?_cons, Entries.get?_cons, ih]
    split <;> rfl

theorem Node.attribute?_turned (own : Nat) (node : Node) (name : String) :
    (node.turned own).attribute? name = (node.attribute? name).map (Value.turned own) := by
  have htype : (node.rule.turned own).typeText? = node.rule.typeText? := by
    cases node.rule <;> rfl
  unfold Node.attribute?
  split
  · rfl
  split
  · simp only [Node.turned, htype, Option.map_map]
    rfl
  · simp only [Node.turned, Rule.attributes_turned, get?_turnedMembers]

namespace Build

variable (own : Nat) (s : Store) (v : Value) (name : String)

theorem has_turned : Method.has (s.turned own) (v.turned own) name = Method.has s v name := by
  have htype := @Store.typeName_turned own s v
  cases v with
  | node id =>
    simp only [Value.turned, Method.has, Store.get?_turned]
    cases s.get? id with
    | none => rfl
    | some node => simp only [Option.map_some, Node.turned, nodeClass_turned]
  | type t =>
    cases t with
    | basic type => rfl
    | _ => exact congrArg (fun type => Method.knownTypes.contains type && Method.ofType type name) htype
  | _ => exact congrArg (fun type => Method.knownTypes.contains type && Method.ofType type name) htype

theorem plainAttribute?_turned : plainAttribute? (s.turned own) (v.turned own) name
    = (plainAttribute? s v name).map (Value.turned own) := by
  unfold plainAttribute?
  rw [has_turned]
  split
  · rw [classOf_turned]
    unfold classOf
    split
    · split <;> rfl
    · rfl
  split
  · rfl
  · cases v with
    | comparison id made ofLength op value =>
      exact get?_turnedMembers own (comparisonAttributes made ofLength op value) name
    | range b =>
      obtain ⟨min, max, minExclusive, maxExclusive, ofLength⟩ := b
      exact get?_turnedMembers own
        (boundsAttributes ⟨min, max, minExclusive, maxExclusive, ofLength⟩) name
    | node id =>
      simp only [Value.turned, Store.get?_turned]
      cases s.get? id with
      | none => rfl
      | some node => exact node.attribute?_turned own name
    | regex r =>
      have h := get?_turnedMembers own (regexAttributes r) name
      rwa [show turnedMembers own (regexAttributes r) = regexAttributes r from by
        cases hbytes : r.onBytes <;> simp [regexAttributes, turnedMembers, hbytes, Value.turned]] at h
    | int n => exact get?_turnedMembers own (intAttributes n) name
    | bool b => exact get?_turnedMembers own (intAttributes (if b then 1 else 0)) name
    | float x =>
      exact get?_turnedMembers own [("real", .float x), ("imag", .float (.zero false))] name
    | type t =>
      change typeAttribute? (turnedType own t) name = (typeAttribute? t name).map _
      unfold typeAttribute?
      rw [Builder.name?_turned]
      split
      · rw [Option.map_map]
        rfl
      · rfl
    | nodeClass c =>
      have h := get?_turnedMembers own (classAttributes c) name
      rw [show turnedMembers own (classAttributes c) = classAttributes c from by
        cases c <;> rfl] at h
      dsimp only [Value.turned]
      split
      · rfl
      · exact h
    | builtin f =>
      dsimp only [Value.turned]
      split <;> rfl
    | _ => rfl

theorem inStep_keptAttribute : InStep σ (fun _ => True) (Value.turned σ.own) (keptAttribute v name)
    (keptAttribute (v.turned σ.own) name) := by
  refine inStep_store.then fun s => ?_
  rw [plainAttribute?_turned, Store.missing_turned]
  cases plainAttribute? s v name with
  | none => exact inStep_fail _
  | some part => exact inStep_pure trivial

/-- The attribute that making a rule asks for. An argument has it neither by itself nor as its length. -/
theorem inStep_pattern : InStep σ (fun _ => True) (Value.turned σ.own) (attr v "pattern")
    (attr (v.turned σ.own) "pattern") := by
  have hkept := inStep_keptAttribute (σ := σ) v "pattern"
  cases v with
  | recorder id path =>
    rw [show attr (.recorder id path) "pattern" = recorder (path ++ [.text "pattern"]) from rfl,
      show attr ((Value.recorder id path).turned σ.own) "pattern"
        = recorder (turnedAll σ.own path ++ [.text "pattern"]) from rfl,
      show turnedAll σ.own path ++ [Value.text "pattern"]
        = turnedAll σ.own (path ++ [.text "pattern"])
        from (Store.turnedAll_append path [.text "pattern"]).symm]
    exact inStep_fresh.then fun _ => inStep_pure trivial
  | operand id ofLength =>
    exact inStep_failOn (fun type => .noAttribute ("'" ++ type ++ "' object") "pattern")
      (.operand id ofLength)
  | _ => exact hkept

end Build

/-! ## Rules -/

/-- A rule for texts in which an argument is turned round. -/
def StringRule.turned (own : Nat) (r : StringRule) : StringRule :=
  { format := r.format.map (Value.turned own), pattern := r.pattern.map (Value.turned own)
    minLength := r.minLength.map (Value.turned own), maxLength := r.maxLength.map (Value.turned own)
    allowed := r.allowed.map (·.map (Value.turned own)) }

/-- A rule for numbers in which an argument is turned round. -/
def NumberRule.turned (own : Nat) (r : NumberRule) : NumberRule :=
  { multipleOf := r.multipleOf.map (Value.turned own), minimum := r.minimum.map (Value.turned own)
    maximum := r.maximum.map (Value.turned own)
    exclusiveMinimum := r.exclusiveMinimum.map (Value.turned own)
    exclusiveMaximum := r.exclusiveMaximum.map (Value.turned own) }

/-- A rule for arrays in which an argument is turned round. -/
def ArrayRule.turned (own : Nat) (r : ArrayRule) : ArrayRule :=
  { r with
    minItems := r.minItems.map (Value.turned own), maxItems := r.maxItems.map (Value.turned own)
    uniqueItems := r.uniqueItems.map (Value.turned own)
    additionalItems := r.additionalItems.map (Value.turned own) }

theorem orElse_map {α β : Type} (f : α → β) (a b : Option α) :
    (a.map f <|> b.map f) = (a <|> b).map f := by
  cases a <;> rfl

theorem lengthValue_turned (own : Nat) (n : Option Nat) :
    (lengthValue n).map (Value.turned own) = lengthValue n := by
  cases n <;> rfl

theorem NumberRule.ofBounds_turned (own : Nat) (b : Bounds Value) :
    NumberRule.ofBounds (turnedBounds own b) = (NumberRule.ofBounds b).turned own := by
  obtain ⟨min, max, minExclusive, maxExclusive, ofLength⟩ := b
  have hpart : ∀ c : Bool, (if c then some (Value.bool true) else none).map (Value.turned own)
      = if c then some (.bool true) else none := fun c => by cases c <;> rfl
  simp only [NumberRule.ofBounds, turnedBounds, NumberRule.turned, Value.present_turned,
    isTrue_turned, hpart]
  rfl

theorem NumberRule.override_turned (own : Nat) (r : NumberRule) (args : Arguments) :
    (r.turned own).override (args.turned own) = (r.override args).turned own := by
  simp only [NumberRule.override, NumberRule.turned, Arguments.present_turned, orElse_map]

theorem ArrayRule.ofLengths_turned (own : Nat) (b : LengthBounds) :
    (ArrayRule.ofLengths b).turned own = ArrayRule.ofLengths b := by
  simp only [ArrayRule.ofLengths, ArrayRule.turned, lengthValue_turned]
  rfl

namespace Construction

variable {v : Value} {vs : List Value} {part : Option Value} {args : Arguments}

theorem agree_checkFormat (format : Option Value) :
    Agree σ (checkFormat format) (checkFormat (format.map (Value.turned σ.own))) := by
  cases format with
  | none => exact inStep_pure trivial
  | some v =>
    have hother : Agree σ
        (do refuse (.unknownFormat (← fromStore fun s => s.valueText v) stringFormats) : Build Unit)
        (do refuse (.unknownFormat (← fromStore fun s => s.valueText (v.turned σ.own))
          stringFormats)) :=
      (agree_valueText v).then fun _ => inStep_refuse _
    cases v with
    | text name => exact inStep_ite (fun _ => inStep_pure trivial) fun _ => inStep_refuse _
    | _ => exact hother

theorem inStep_patternSource (pattern : Option Value) :
    InStep σ (fun _ => True) (Option.map (Value.turned σ.own)) (patternSource pattern)
      (patternSource (pattern.map (Value.turned σ.own))) := by
  cases pattern with
  | none => exact inStep_pure trivial
  | some v =>
    have hother : InStep σ (fun _ => True) (Option.map (Value.turned σ.own))
        (do return (← attr v "pattern").present)
        (do return (← attr (v.turned σ.own) "pattern").present) :=
      (inStep_pattern v).then fun part => inStep_pure_of_eq (Value.present_turned part) trivial
    cases v with
    | text source => exact inStep_pure trivial
    | _ => exact hother

theorem inStep_allowedValues (h : ∀ v ∈ part, v.Blind σ) :
    InStep σ (fun _ => True) (Option.map (·.map (Value.turned σ.own))) (allowedValues part)
      (allowedValues (part.map (Value.turned σ.own))) := by
  cases part with
  | none => exact inStep_pure trivial
  | some v =>
    exact (inStep_elements (h v rfl)).then fun xs =>
      inStep_pure_of_eq (congrArg some (turnedAll_eq_map xs)) trivial

theorem agree_lengths (hcall : call.InStep) (h : ∀ v ∈ part, v.Blind σ) :
    Agree σ (lengths call part) (lengths call (part.map (Value.turned σ.own))) := by
  cases part with
  | none => exact inStep_pure trivial
  | some v => exact Length.agree_bounds hcall (h v rfl).callee

theorem inStep_stringRule (hcall : call.InStep) (h : args.Blind σ) :
    InStep σ (fun _ => True) (StringRule.turned σ.own) (stringRule call args)
      (stringRule call (args.turned σ.own)) := by
  have hpresent := fun p => Arguments.blind_present h p
  unfold stringRule
  simp only [Arguments.present_turned]
  refine (agree_checkFormat _).then fun _ => (inStep_patternSource _).then fun pattern =>
    (inStep_allowedValues (hpresent _)).then fun allowed =>
    (agree_lengths hcall (hpresent _)).then fun b => inStep_pure_of_eq ?_ trivial
  simp only [StringRule.turned, ← orElse_map, lengthValue_turned, id_eq]

theorem inStep_numberRange (hcall : call.InStep) (hv : v.Callee σ.names) :
    InStep σ (fun _ => True) (NumberRule.turned σ.own) (numberRange call v)
      (numberRange call (v.turned σ.own)) := by
  refine (Predicate.inStep_range hcall hv).then fun b => ?_
  rw [ofLength_turnedBounds]
  refine (agree_truth b.ofLength).then fun ofLength => ?_
  cases ofLength with
  | true => exact inStep_refuse _
  | false => exact inStep_pure_of_eq (NumberRule.ofBounds_turned σ.own b) trivial

theorem inStep_numberRule (hcall : call.InStep) (h : args.Blind σ) :
    InStep σ (fun _ => True) (NumberRule.turned σ.own) (numberRule call args)
      (numberRule call (args.turned σ.own)) := by
  have hvalue := Arguments.blind_present h .value
  have hrest : ∀ r : NumberRule, InStep σ (fun _ => True) (NumberRule.turned σ.own)
      (pure (r.override args)) (pure ((r.turned σ.own).override (args.turned σ.own))) :=
    fun r => inStep_pure_of_eq (NumberRule.override_turned σ.own r args) trivial
  unfold numberRule
  rw [Arguments.present_turned]
  cases hpart : args.present .value with
  | none => exact hrest _
  | some v => exact (inStep_numberRange hcall (hvalue v hpart).callee).then hrest

/-! ## Compiling raw values -/

theorem inStep_ofPredicate (hcall : call.InStep) (hv : v.Callee σ.names) :
    InStep σ (fun _ => True) (Rule.turned σ.own) (ofPredicate call v)
      (ofPredicate call (v.turned σ.own)) := by
  refine (Predicate.inStep_bounds hcall hv).then fun b => ?_
  rw [ofLength_turnedBounds, isTrue_turned]
  refine inStep_ite (fun _ => ?_) fun _ => ?_
  · refine (Length.agree_bounds hcall (v := .range b) trivial).then fun lengths => ?_
    exact inStep_pure_of_eq (congrArg Rule.array (ArrayRule.ofLengths_turned σ.own lengths).symm)
      trivial
  · exact inStep_pure_of_eq (congrArg Rule.number (NumberRule.ofBounds_turned σ.own b)) trivial

theorem inStep_ruleOf (hcall : call.InStep) (mode : LiteralMode) (hv : v.Callee σ.names) :
    InStep σ (fun _ => True) (Rule.turned σ.own) (ruleOf call mode v)
      (ruleOf call mode (v.turned σ.own)) := by
  have hother : InStep σ (fun _ => True) (Rule.turned σ.own)
      (if v.isCallable && !v.isClass then ofPredicate call v
        else do refuse (.unsupported (← typeName v)))
      (if (v.turned σ.own).isCallable && !(v.turned σ.own).isClass then
          ofPredicate call (v.turned σ.own)
        else do refuse (.unsupported (← typeName (v.turned σ.own)))) := by
    rw [isCallable_turned, isClass_turned]
    exact inStep_ite (fun _ => inStep_ofPredicate hcall hv) fun _ =>
      (agree_typeName v).then fun _ => inStep_refuse _
  cases v with
  | regex r =>
    have hsource := inStep_patternSource (σ := σ)
      (some (if r.onBytes then Value.bytes r.source else .text r.source))
    rw [show (some (if r.onBytes then Value.bytes r.source else .text r.source)).map
        (Value.turned σ.own) = some (if r.onBytes then Value.bytes r.source else .text r.source) from by
      cases r.onBytes <;> rfl] at hsource
    exact hsource.then fun _ => inStep_pure trivial
  | text s => cases mode <;> exact inStep_pure trivial
  | bool | int | float => exact inStep_pure trivial
  | _ => exact hother

end Construction

theorem Build.agree_alloc (rule : Rule) (required : Value) :
    Agree σ (alloc rule required) (alloc (rule.turned σ.own) (required.turned σ.own)) := by
  intro w hw
  refine ⟨trivial, ?_, ⟨hw.made, hw.vars⟩⟩
  have h := @Store.alloc_turned σ.own w.store ⟨rule, required⟩
  unfold alloc
  rw [show (w.turned σ.own).store.alloc ⟨rule.turned σ.own, required.turned σ.own⟩ = _ from h]
  rfl

theorem Build.agree_modifyStore {f g : Store → Store}
    (h : ∀ s : Store, g (s.turned σ.own) = (f s).turned σ.own) :
    Agree σ (modifyStore f) (modifyStore g) := by
  intro w hw
  refine ⟨trivial, ?_, ⟨hw.made, hw.vars⟩⟩
  unfold modifyStore Workspace.turned
  rw [h]

namespace Construction

variable {v : Value} {vs : List Value} {part : Option Value} {args : Arguments}

theorem agree_compile (hcall : call.InStep) (mode : LiteralMode) (hv : v.Callee σ.names) :
    Agree σ (compile call mode v) (compile call mode (v.turned σ.own)) := by
  have hother : Agree σ (do alloc (← ruleOf call mode v) (.bool true))
      (do alloc (← ruleOf call mode (v.turned σ.own)) (.bool true)) :=
    (inStep_ruleOf hcall mode hv).then fun rule => agree_alloc rule (.bool true)
  cases v with
  | node id => exact inStep_pure trivial
  | _ => exact hother

theorem agree_compileAll (hcall : call.InStep) (h : ∀ v ∈ vs, v.Blind σ) :
    Agree σ (compileAll call vs) (compileAll call (turnedAll σ.own vs)) := by
  induction vs with
  | nil => exact inStep_pure trivial
  | cons v vs ih =>
    obtain ⟨hv, hrest⟩ := List.forall_mem_cons.mp h
    exact (agree_compile hcall .enum hv.callee).then fun _ => (ih hrest).then fun _ =>
      inStep_pure trivial

/-! ## Rules with rules inside -/

theorem agree_itemsRule (hcall : call.InStep) (h : ∀ v ∈ part, v.Blind σ) :
    Agree σ (itemsRule call part) (itemsRule call (part.map (Value.turned σ.own))) := by
  cases part with
  | none => exact inStep_pure trivial
  | some v =>
    have hv := h v rfl
    have hother : Agree σ (do return Items.every (← compile call .enum v))
        (do return .every (← compile call .enum (v.turned σ.own))) :=
      (agree_compile hcall .enum hv.callee).then fun _ => inStep_pure trivial
    cases v with
    | list id vs =>
      exact (agree_compileAll hcall (blind_list.mp hv)).then fun _ => inStep_pure trivial
    | tuple vs =>
      exact (agree_compileAll hcall (blind_tuple.mp hv)).then fun _ => inStep_pure trivial
    | _ => exact hother

theorem inStep_arrayRule (hcall : call.InStep) (h : args.Blind σ) :
    InStep σ (fun _ => True) (ArrayRule.turned σ.own) (arrayRule call args)
      (arrayRule call (args.turned σ.own)) := by
  have hpresent := fun p => Arguments.blind_present h p
  unfold arrayRule
  simp only [Arguments.present_turned]
  refine (agree_lengths hcall (hpresent _)).then fun b =>
    (agree_itemsRule hcall (hpresent _)).then fun items => inStep_pure_of_eq ?_ trivial
  simp only [ArrayRule.turned, ← orElse_map, lengthValue_turned, id_eq]

theorem inStep_unlessFalse (h : ∀ v ∈ part, v.Blind σ) :
    InStep σ (fun v => ∀ u ∈ v, u.Blind σ) (Option.map (Value.turned σ.own)) (unlessFalse part)
      (unlessFalse (part.map (Value.turned σ.own))) := by
  cases part with
  | none => exact inStep_pure (by simp)
  | some v =>
    refine (agree_truth v).then fun t => ?_
    cases t with
    | true => exact inStep_pure h
    | false => exact inStep_pure (by simp)

theorem inStep_propertyEntries (h : ∀ v ∈ part, v.Blind σ) :
    InStep σ (fun _ => True) (turnedEntries σ.own) (propertyEntries part)
      (propertyEntries (part.map (Value.turned σ.own))) := by
  refine (inStep_unlessFalse h).bind fun v hv => ?_
  cases v with
  | none => exact inStep_pure trivial
  | some v => exact (inStep_entriesOf (hv v rfl)).mono fun _ _ => trivial

/-- Names are listed once each, whatever stands in the list before them. -/
theorem inStep_distinctNames (names : List Value) (hnames : ∀ v ∈ names, v.Blind σ)
    (h : ∀ v ∈ vs, v.Blind σ) :
    InStep σ (fun _ => True) (turnedAll σ.own) (distinctNames names vs)
      (distinctNames (turnedAll σ.own names) (turnedAll σ.own vs)) := by
  induction vs generalizing names with
  | nil => exact inStep_pure trivial
  | cons v vs ih =>
    obtain ⟨hv, hrest⟩ := List.forall_mem_cons.mp h
    refine (agree_among hv hnames).then fun known => ?_
    cases known with
    | true => exact ih _ hnames hrest
    | false =>
      have hmore := ih _ (List.forall_mem_append.mpr ⟨hnames, List.forall_mem_singleton.mpr hv⟩) hrest
      rwa [Store.turnedAll_append] at hmore

theorem inStep_requiredNames (h : ∀ v ∈ part, v.Blind σ) :
    InStep σ (fun _ => True) (turnedAll σ.own) (requiredNames part)
      (requiredNames (part.map (Value.turned σ.own))) := by
  refine (inStep_unlessFalse h).bind fun v hv => ?_
  cases v with
  | none => exact inStep_pure trivial
  | some v =>
    exact (inStep_elements (hv v rfl)).bind fun xs hxs => inStep_distinctNames [] (by simp) hxs

theorem inStep_objectRule (h : args.Blind σ) :
    InStep σ (fun _ => True) (ObjectRule.turned σ.own) (objectRule args)
      (objectRule (args.turned σ.own)) := by
  have hget := fun p => Arguments.blind_get? h p
  unfold objectRule
  simp only [Arguments.present_turned, Arguments.get?_turned]
  exact (inStep_propertyEntries (hget _)).then fun properties =>
    (inStep_requiredNames (hget _)).then fun required => inStep_pure trivial

theorem builderRule_turned (own : Nat) (kind : ObjectKind) (args : Arguments) :
    builderRule kind (args.turned own) = (builderRule kind args).turned own := by
  have hmodel : ((args.get? .model).map (Value.turned own)).getD .null
      = ((args.get? .model).getD .null).turned own := by
    cases args.get? .model <;> rfl
  simp only [builderRule, ObjectRule.turned, Arguments.get?_turned, Arguments.present_turned, hmodel]
  rfl

theorem agree_children (hcall : call.InStep) (owner : NodeClass) (h : ∀ v ∈ part, v.Blind σ) :
    Agree σ (children call owner part) (children call owner (part.map (Value.turned σ.own))) := by
  cases part with
  | none => exact inStep_fail _
  | some v =>
    have hother : Agree σ
        (do refuse (.notAList owner.name (← typeName v)) : Build (List NodeId))
        (do refuse (.notAList owner.name (← typeName (v.turned σ.own)))) :=
      (agree_typeName v).then fun _ => inStep_refuse _
    cases v with
    | list id vs => exact agree_compileAll hcall (blind_list.mp (h _ rfl))
    | tuple vs => exact agree_compileAll hcall (blind_tuple.mp (h _ rfl))
    | _ => exact hother

theorem agree_negated (hcall : call.InStep) (owner : NodeClass) (h : ∀ v ∈ part, v.Blind σ) :
    Agree σ (negated call owner part) (negated call owner (part.map (Value.turned σ.own))) := by
  cases part with
  | none => exact inStep_fail _
  | some v => exact agree_compile hcall .enum (h v rfl).callee

theorem inStep_ruleFrom (hcall : call.InStep) (c : NodeClass) (h : args.Blind σ) :
    InStep σ (fun _ => True) (Rule.turned σ.own) (ruleFrom call c args)
      (ruleFrom call c (args.turned σ.own)) := by
  have hchildren : ∀ kind, InStep σ (fun _ => True) (Rule.turned σ.own)
      (Rule.combinator kind <$> children call c (args.get? .schemas))
      (Rule.combinator kind <$> children call c ((args.turned σ.own).get? .schemas)) := by
    intro kind
    rw [Arguments.get?_turned]
    exact (agree_children hcall c (Arguments.blind_get? h _)).map fun _ _ => ⟨trivial, rfl⟩
  cases c with
  | string => exact (inStep_stringRule hcall h).map fun _ _ => ⟨trivial, rfl⟩
  | number => exact (inStep_numberRule hcall h).map fun _ _ => ⟨trivial, rfl⟩
  | boolean =>
    have hallowed := inStep_allowedValues (Arguments.blind_present h .enum)
    rw [← Arguments.present_turned] at hallowed
    exact hallowed.map fun _ _ => ⟨trivial, rfl⟩
  | array => exact (inStep_arrayRule hcall h).map fun _ _ => ⟨trivial, rfl⟩
  | object => exact (inStep_objectRule h).map fun _ _ => ⟨trivial, rfl⟩
  | combinator => exact hchildren .plain
  | anyOf => exact hchildren .anyOf
  | oneOf => exact hchildren .oneOf
  | allOf => exact hchildren .allOf
  | negation =>
    have hnegated := agree_negated hcall .negation (Arguments.blind_get? h .schema)
    rw [← Arguments.get?_turned] at hnegated
    exact hnegated.map fun _ _ => ⟨trivial, rfl⟩
  | schema =>
    exact inStep_pure_of_eq (congrArg Rule.object (builderRule_turned σ.own .schema args)) trivial
  | dictionary =>
    exact inStep_pure_of_eq (congrArg Rule.object (builderRule_turned σ.own .dictionary args)) trivial

theorem agree_construct (hcall : call.InStep) (c : NodeClass) (h : args.Blind σ) :
    Agree σ (construct call c args) (construct call c (args.turned σ.own)) := by
  unfold construct
  rw [Arguments.required_turned]
  exact (inStep_ruleFrom hcall c h).then fun rule => agree_alloc rule args.required

end Construction

end DraftSchema
