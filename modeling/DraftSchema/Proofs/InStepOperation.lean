import DraftSchema.Proofs.InStepAccess
import DraftSchema.Proofs.StayingOperation

/-!
# Operations in step

Comparisons, membership, arithmetic and conversions of values are made in step with those of the values
in which the argument is turned round. A comparison with the argument is a record of it, and then a
record of the same comparison with its length.
-/

namespace DraftSchema

open Value

variable {σ : Outlook}

namespace Build

variable {v a b container : Value} {xs args : List Value}

/-! ## Comparison -/

theorem exists_of_isOperand (h : v.isOperand = true) : ∃ id ofLength, v = .operand id ofLength := by
  cases v with
  | operand id ofLength => exact ⟨id, ofLength, rfl⟩
  | _ => cases h

/-- What is no argument of a predicate is compared. -/
theorem compare_eq_related (op : Relation) (h : (a.isOperand || b.isOperand) = false) :
    compare op a b = do return .bool (← fromStore fun s => related s op a b) := by
  unfold Build.compare
  split
  · cases h
  · simp [isOperand] at h
  · rfl

theorem echo_compare (op : Relation) (ha : a.Blind σ) (hb : b.Blind σ) :
    Echo σ (compare op a b) (compare op (a.turned σ.own) (b.turned σ.own)) := by
  cases h : a.isOperand || b.isOperand with
  | false =>
    rw [compare_eq_related op h, compare_eq_related op (by simpa using h)]
    exact (agree_fromStore fun s => related_turned s op a b).then fun _ => inStep_pure trivial
  | true =>
    cases hleft : a.isOperand with
    | true =>
      obtain ⟨id, ofLength, rfl⟩ := exists_of_isOperand hleft
      exact inStep_fresh.then fun _ => inStep_pure ⟨ha, hb⟩
    | false =>
      rw [hleft, Bool.false_or] at h
      obtain ⟨id, ofLength, rfl⟩ := exists_of_isOperand h
      have hright : Echo σ (comparison id ofLength op.converse a)
          (comparison id (flag σ.own id ofLength) op.converse (a.turned σ.own)) :=
        inStep_fresh.then fun _ => inStep_pure ⟨hb, ha⟩
      cases a with
      | operand => cases hleft
      | _ => exact hright

/-! ## Membership -/

theorem agree_among (hv : v.Blind σ) (h : ∀ x ∈ xs, x.Blind σ) :
    Agree σ (among v xs) (among (v.turned σ.own) (turnedAll σ.own xs)) := by
  induction xs with
  | nil => exact inStep_pure trivial
  | cons x xs ih =>
    obtain ⟨hx, hrest⟩ := List.forall_mem_cons.mp h
    have hgo : ∀ here : Bool, Agree σ (if here then pure true else among v xs)
        (if here then pure true else among (v.turned σ.own) (turnedAll σ.own xs)) :=
      fun here => inStep_ite (fun _ => inStep_pure trivial) fun _ => ih hrest
    rw [turnedAll]
    unfold among
    rw [turned_beq_turned]
    split
    · exact hgo true
    · exact (echo_compare .eq hx hv).then fun r => (agree_truth r).then hgo

theorem agree_bytesContain (bytes : String) (v : Value) :
    Agree σ (bytesContain bytes v) (bytesContain bytes (v.turned σ.own)) := by
  have hbyte : ∀ n : Int, Agree σ
      (if 0 ≤ n ∧ n < 256 then pure (bytes.toList.any fun c => (c.toNat : Int) = n)
        else fail (.stated .value "byte must be in range(0, 256)"))
      (if 0 ≤ n ∧ n < 256 then pure (bytes.toList.any fun c => (c.toNat : Int) = n)
        else fail (.stated .value "byte must be in range(0, 256)")) :=
    fun n => inStep_ite (fun _ => inStep_pure trivial) fun _ => inStep_fail _
  cases v with
  | bytes => exact inStep_pure trivial
  | bool | int => exact hbyte _
  | _ =>
    exact inStep_failOn (fun type =>
      .stated .type ("a bytes-like object is required, not '" ++ type ++ "'")) _

theorem agree_foreignContains (id : Nat) (kind : String) (hv : v.Blind σ) :
    Agree σ (foreignContains (.foreign id kind) kind v)
      (foreignContains (.foreign id kind) kind (v.turned σ.own)) := by
  unfold foreignContains
  split
  · exact inStep_failOn .notContainer (.foreign id kind)
  · rename_i xs hxs
    have hamong := agree_among hv (blind_foreignElements (σ := σ) hxs)
    rw [turnedAll_foreignElements hxs] at hamong
    have hkeyed : Agree σ (do checkKey v; among v xs)
        (do checkKey (v.turned σ.own); among (v.turned σ.own) xs) :=
      (agree_checkKey v).then fun _ => hamong
    split
    · exact agree_bytesContain _ v
    split
    · exact hamong
    · cases v with
      | foreign id' kind' =>
        simp only [Value.turned]
        split
        · exact inStep_pure trivial
        · exact hkeyed
      | _ => exact hkeyed

theorem agree_contains (hv : v.Blind σ) (h : container.Blind σ) :
    Agree σ (contains v container) (contains (v.turned σ.own) (container.turned σ.own)) := by
  cases container with
  | list id xs => exact agree_among hv (blind_list.mp h)
  | tuple xs => exact agree_among hv (blind_tuple.mp h)
  | text s =>
    cases v with
    | text => exact inStep_pure trivial
    | _ => exact inStep_failOn .notText _
  | bytes s => exact agree_bytesContain _ v
  | dict id es =>
    have hfound : (Entries.get? (turnedEntries σ.own es) (v.turned σ.own)).isSome
        = (Entries.get? es v).isSome := by
      rw [Value.get?_turned, Option.isSome_map]
    exact (agree_checkKey v).then fun _ => inStep_pure_of_eq hfound trivial
  | recorder => exact inStep_refuse _
  | foreign id kind => exact agree_foreignContains id kind hv
  | _ => exact inStep_failOn .notContainer _

/-! ## Arithmetic -/

theorem echo_failOperands (op : Arithmetic) (a b : Value) :
    Echo σ (failOperands op a b) (failOperands op (a.turned σ.own) (b.turned σ.own)) :=
  (agree_kindName a).then fun _ => (agree_kindName b).then fun _ => inStep_fail _

theorem echo_wholePower (m : Int) (n : Nat) : Echo σ (wholePower m n) (wholePower m n) := by
  unfold wholePower
  split
  · exact inStep_pure trivial
  split
  · exact inStep_pure trivial
  · exact inStep_fail _

theorem echo_floatPower (x y : Binary64) : Echo σ (floatPower x y) (floatPower x y) := by
  unfold floatPower
  split
  · exact echo_float _
  · exact inStep_fail _
  · exact inStep_fail _
  · exact echo_foreign _
  · exact inStep_fail _

theorem echo_wholeArithmetic (op : Arithmetic) (m n : Int) :
    Echo σ (wholeArithmetic op m n) (wholeArithmetic op m n) := by
  unfold wholeArithmetic
  split
  case h_4 =>
    split
    · exact inStep_fail _
    · dsimp only
      split
      · exact inStep_pure trivial
      · exact inStep_fail _
  case h_5 | h_6 =>
    split
    · exact inStep_fail _
    · exact inStep_pure trivial
  case h_7 =>
    split
    · exact echo_wholePower m _
    · split
      · exact echo_floatPower _ _
      · exact inStep_fail _
  all_goals exact inStep_pure trivial

theorem echo_floatArithmetic (op : Arithmetic) (x y : Binary64) :
    Echo σ (floatArithmetic op x y) (floatArithmetic op x y) := by
  unfold floatArithmetic
  split
  case h_4 | h_5 | h_6 =>
    split
    · exact inStep_fail _
    · exact echo_float _
  case h_7 => exact echo_floatPower x y
  case h_8 => exact echo_failOperands .either (.float x) (.float y)
  all_goals exact echo_float _

theorem agree_toFloat (v : Value) : Agree σ (toFloat v) (toFloat (v.turned σ.own)) := by
  cases v with
  | bool | int =>
    unfold toFloat
    dsimp only [Value.turned, Value.toInt?]
    split
    · exact inStep_pure trivial
    · exact inStep_fail _
  | _ => exact inStep_pure trivial

theorem echo_times (hv : v.Blind σ) (count : Int) :
    Echo σ (times v count) (times (v.turned σ.own) count) := by
  cases v with
  | text | bytes => exact inStep_pure trivial
  | list id xs =>
    have hlist := @echo_list σ (repeated xs count) fun x hx =>
      blind_list.mp hv x (mem_of_mem_repeated hx)
    rwa [← repeated_turned] at hlist
  | tuple xs =>
    exact inStep_pure_of_eq (congrArg Value.tuple (repeated_turned xs count))
      (blind_tuple.mpr fun x hx => blind_tuple.mp hv x (mem_of_mem_repeated hx))
  | _ => exact echo_failOperands .mul _ (.int count)

theorem echo_product (ha : a.Blind σ) (hb : b.Blind σ) :
    Echo σ (product a b) (product (a.turned σ.own) (b.turned σ.own)) := by
  -- the same one of the two is the sequence, whatever is turned round in it
  obtain ⟨sequence, count, hsequence, hchosen, hturned⟩ : ∃ sequence count : Value,
      sequence.Blind σ ∧ (if isSequence a then (a, b) else (b, a)) = (sequence, count) ∧
      (if isSequence a then (a.turned σ.own, b.turned σ.own) else (b.turned σ.own, a.turned σ.own))
        = (sequence.turned σ.own, count.turned σ.own) := by
    cases isSequence a with
    | true => exact ⟨a, b, ha, rfl, rfl⟩
    | false => exact ⟨b, a, hb, rfl, rfl⟩
  unfold product
  rw [isSequence_turned, hchosen, hturned]
  dsimp only
  rw [isSequence_turned, toInt?_turned, sequenceLength_turned]
  refine inStep_ite (fun _ => echo_failOperands .mul a b) fun _ => ?_
  cases count.toInt? with
  | none => exact inStep_failOn .repeated count
  | some n =>
    dsimp only
    rw [noRoom_turned]
    exact inStep_ite (fun _ => inStep_fail _) fun _ =>
      inStep_ite (fun _ => inStep_fail _) fun _ => echo_times hsequence n

theorem echo_join (ha : a.Blind σ) (hb : b.Blind σ) :
    Echo σ (join a b) (join (a.turned σ.own) (b.turned σ.own)) := by
  have happend : ∀ xs ys : List Value, turnedAll σ.own xs ++ turnedAll σ.own ys
      = turnedAll σ.own (xs ++ ys) := fun xs ys => (Store.turnedAll_append xs ys).symm
  cases a with
  | text x =>
    cases b with
    | text => exact inStep_pure trivial
    | _ => exact inStep_failOn (.joined "str" "concatenate") _
  | bytes x =>
    cases b with
    | bytes => exact inStep_pure trivial
    | _ =>
      exact inStep_failOn (fun type => .stated .type ("can't concat " ++ type ++ " to bytes")) _
  | list id xs =>
    cases b with
    | list id' ys =>
      have hlist := echo_list (σ := σ) (List.forall_mem_append.mpr
        ⟨blind_list.mp ha, blind_list.mp hb⟩)
      rwa [← happend] at hlist
    | _ => exact inStep_failOn (.joined "list" "concatenate") _
  | tuple xs =>
    cases b with
    | tuple ys =>
      exact inStep_pure_of_eq (congrArg Value.tuple (happend xs ys))
        (blind_tuple.mpr (List.forall_mem_append.mpr ⟨blind_tuple.mp ha, blind_tuple.mp hb⟩))
    | _ => exact inStep_failOn (.joined "tuple" "concatenate") _
  | _ => exact echo_failOperands .add _ b

theorem formattedBytes_turned (own : Nat) (bytes : String) (v : Value) :
    formattedBytes bytes (v.turned own) = formattedBytes bytes v := by
  have hsame := @hasItems_turned own v
  cases v with
  | tuple xs => cases xs <;> rfl
  | list | dict | type =>
    unfold formattedBytes
    dsimp only [Value.turned] at hsame ⊢
    rw [hsame]
  | _ => rfl

theorem echo_formattedBytes (bytes : String) (v : Value) :
    Echo σ (formattedBytes bytes v) (formattedBytes bytes (v.turned σ.own)) := by
  rw [formattedBytes_turned]
  unfold formattedBytes
  split
  · exact inStep_pure trivial
  · exact inStep_ite (fun _ => inStep_pure trivial) fun _ => inStep_fail _

/-! ## Types -/

theorem blind_union {barred : Bool} {ts : List (TypeForm Value)} (h : ∀ t ∈ ts, TypeBlind σ t) :
    TypeBlind σ (Typing.union barred ts) := by
  have hparts : ∀ t ∈ Typing.distinct (ts.flatMap TypeForm.alternatives), TypeBlind σ t := by
    intro t ht
    obtain ⟨u, hu, htu⟩ := List.mem_flatMap.mp (mem_of_mem_distinct ht)
    cases u with
    | union barred us => exact typesBlind_iff.mp (h _ hu) t htu
    | _ => simpa [List.mem_singleton.mp htu] using h _ hu
  unfold Typing.union
  split
  · rename_i t ht
    exact hparts t (ht ▸ List.mem_singleton_self t)
  · exact typesBlind_iff.mpr hparts

theorem blind_choice {s : Store} {ts : List (TypeForm Value)} {t : TypeForm Value}
    (h : ∀ t ∈ ts, TypeBlind σ t) (ht : Typing.choice s ts = .ok t) : TypeBlind σ t := by
  unfold Typing.choice at ht
  split at ht
  · cases ht
  split at ht
  · cases ht
  · cases ht
    exact blind_union h

theorem blind_member {s : Store} {context : String} {t : TypeForm Value} (hv : v.Blind σ)
    (ht : Typing.member s context v = .ok t) : TypeBlind σ t := by
  unfold Typing.member at ht
  split at ht
  · cases ht
    trivial
  · cases ht
    exact hv
  · rename_i text
    cases hread : TypeExpression.read text with
    | error f =>
      rw [hread] at ht
      cases ht
    | ok e =>
      rw [hread] at ht
      cases ht
      trivial
  · rename_i xs
    cases hshown : s.valueDetail (.tuple xs) with
    | error f =>
      rw [hshown] at ht
      cases ht
    | ok shown =>
      rw [hshown] at ht
      cases ht
  · cases ht
    exact hv

theorem blind_joined (hv : v.Blind σ) : TypeBlind σ (Typing.joined v) := by
  unfold Typing.joined
  split
  · trivial
  · exact hv
  · exact hv

theorem blind_pair {t u : TypeForm Value} (ht : TypeBlind σ t) (hu : TypeBlind σ u) :
    ∀ x ∈ [t, u], TypeBlind σ x :=
  List.forall_mem_cons.mpr ⟨ht, List.forall_mem_singleton.mpr hu⟩

theorem blind_join {s : Store} (ha : a.Blind σ) (hb : b.Blind σ) {choice : Except Fault Value}
    (h : Typing.join? s a b = some choice) (hv : choice = .ok v) : v.Blind σ := by
  unfold Typing.join? at h
  split at h
  · split at h
    · cases h
    · cases h
      cases hv
      exact blind_ofType (blind_union (blind_pair (blind_joined ha) (blind_joined hb)))
  split at h
  · cases h
    obtain ⟨t, ht, hv⟩ := except_bind_eq_ok.mp hv
    obtain ⟨u, hu, hv⟩ := except_bind_eq_ok.mp hv
    obtain ⟨c, hc, hv⟩ := except_bind_eq_ok.mp hv
    cases hv
    exact blind_ofType (blind_choice (blind_pair (blind_member ha ht) (blind_member hb hu)) hc)
  · cases h

/-- What is not two whole numbers can only be two types. -/
theorem either_of_toInt?_eq_none (h : a.toInt? = none ∨ b.toInt? = none) :
    either a b = store >>= fun s =>
      (Typing.join? s a b).elim (failOperands .either a b) ofExcept := by
  unfold either
  split
  · simp [Value.toInt?] at h
  · split
    · simp_all
    · refine congrArg (store >>= ·) (funext fun s => ?_)
      cases Typing.join? s a b <;> rfl

theorem echo_either (ha : a.Blind σ) (hb : b.Blind σ) :
    Echo σ (either a b) (either (a.turned σ.own) (b.turned σ.own)) := by
  have hjoin : (a.toInt? = none ∨ b.toInt? = none) →
      Echo σ (either a b) (either (a.turned σ.own) (b.turned σ.own)) := by
    intro h
    rw [either_of_toInt?_eq_none h,
      either_of_toInt?_eq_none (by rwa [toInt?_turned, toInt?_turned])]
    refine inStep_store.then fun s => ?_
    rw [Typing.join?_turned]
    cases hchoice : Typing.join? s a b with
    | none => exact echo_failOperands .either a b
    | some choice => exact inStep_ofExcept rfl fun v hv => blind_join ha hb hchoice hv
  cases a with
  | bool x =>
    cases b with
    | bool y => exact inStep_pure trivial
    | int n => exact echo_wholeArithmetic .either _ n
    | _ => exact hjoin (.inr rfl)
  | int m =>
    cases b with
    | bool | int => exact echo_wholeArithmetic .either m _
    | _ => exact hjoin (.inr rfl)
  | _ => exact hjoin (.inl rfl)

theorem echo_mixedArithmetic (op : Arithmetic) (ha : a.Blind σ) (hb : b.Blind σ) :
    Echo σ (mixedArithmetic op a b) (mixedArithmetic op (a.turned σ.own) (b.turned σ.own)) := by
  unfold mixedArithmetic
  rw [denote?_turned, denote?_turned]
  split
  · refine (agree_toFloat a).then fun x => (agree_toFloat b).then fun y => ?_
    rcases x with _ | x <;> rcases y with _ | y
    · exact echo_failOperands op a b
    · exact echo_failOperands op a b
    · exact echo_failOperands op a b
    · exact echo_floatArithmetic op x y
  · cases op with
    | add => exact echo_join ha hb
    | mul => exact echo_product ha hb
    | mod =>
      cases a with
      | text s => exact echo_formatted s hb
      | bytes s => exact echo_formattedBytes s b
      | _ => exact echo_failOperands .mod _ b
    | _ => exact echo_failOperands _ a b

theorem echo_arithmetic (op : Arithmetic) (ha : a.Blind σ) (hb : b.Blind σ) :
    Echo σ (arithmetic op a b) (arithmetic op (a.turned σ.own) (b.turned σ.own)) := by
  unfold arithmetic
  split
  · exact echo_either ha hb
  · rw [toInt?_turned, toInt?_turned]
    split
    · exact echo_wholeArithmetic _ _ _
    · exact echo_mixedArithmetic _ ha hb

theorem echo_negate (v : Value) : Echo σ (negate v) (negate (v.turned σ.own)) := by
  cases v with
  | float x => exact echo_float _
  | bool | int => exact inStep_pure trivial
  | _ => exact inStep_failOn .negated _

theorem echo_absolute (v : Value) : Echo σ (absolute v) (absolute (v.turned σ.own)) := by
  cases v with
  | float x => exact echo_float _
  | bool | int => exact inStep_pure trivial
  | _ => exact inStep_failOn .absolute _

/-! ## Conversions -/

theorem echo_spelled (text : String) : Echo σ (spelled text) (spelled text) :=
  (agree_ofExcept _).then fun _ => inStep_pure trivial

theorem echo_toWhole (v : Value) : Echo σ (toWhole v) (toWhole (v.turned σ.own)) := by
  cases v with
  | float x =>
    unfold toWhole
    dsimp only [Value.turned]
    split
    · exact inStep_pure trivial
    · exact inStep_fail _
    · exact inStep_fail _
  | text s => exact echo_spelled s
  | bytes s => exact (agree_ofExcept _).then fun _ => inStep_pure trivial
  | bool | int => exact inStep_pure trivial
  | _ => exact inStep_failOn (.noConversion "int") _

theorem echo_toReal (v : Value) : Echo σ (toReal v) (toReal (v.turned σ.own)) := by
  unfold toReal
  cases v with
  | text | bytes =>
    -- how a numeral is read does not matter, and is kept from being tried
    generalize Binary64.ofText? = parse
    refine inStep_fresh.then fun n => ?_
    dsimp only [id_eq]
    split
    · exact inStep_pure trivial
    · exact inStep_fail _
  | _ =>
    dsimp only [Value.turned]
    refine (agree_toFloat _).then fun x => ?_
    cases x with
    | none => exact inStep_failOn (.noConversion "float") _
    | some x => exact inStep_pure trivial

theorem blind_classOf {s : Store} : (classOf s v).Blind σ := by
  unfold classOf
  split
  · split <;> trivial
  · trivial

theorem echo_convert (name : String) (hv : v.Blind σ) :
    Echo σ (convert name v) (convert name (v.turned σ.own)) := by
  unfold convert
  split
  · exact (agree_valueText v).map fun _ _ => ⟨trivial, rfl⟩
  · exact (agree_truth v).then fun _ => inStep_pure trivial
  · exact echo_toWhole v
  · exact echo_toReal v
  · exact (inStep_elements hv).bind fun xs hxs => echo_list hxs
  · exact (inStep_elements hv).bind fun xs hxs => inStep_pure (blind_tuple.mpr hxs)
  · exact (inStep_entriesOf hv).bind fun es hes => echo_dict hes
  · exact inStep_store.then fun s => inStep_pure_of_eq (classOf_turned s v) blind_classOf
  · exact inStep_fail _
  · exact inStep_fail _
  · refine inStep_ite (fun _ => ?_) fun _ => echo_foreign _
    exact (inStep_elements hv).bind fun xs hxs => echo_recorder hxs

theorem echo_initial (name : String) : Echo σ (initial name) (initial name) := by
  unfold initial
  split
  case h_5 => exact @echo_list σ [] (by simp)
  case h_6 => exact inStep_pure_of_eq rfl (blind_tuple.mpr (by simp))
  case h_7 => exact @echo_dict σ [] (by simp)
  case h_9 => exact inStep_fail _
  case h_10 => exact inStep_ite (fun _ => @echo_recorder σ [] (by simp)) fun _ => echo_foreign _
  all_goals exact inStep_pure trivial

/-- What a type is made of does not matter when it is called. -/
theorem echo_instantiate (hargs : ∀ x ∈ args, x.Blind σ) : (t : TypeForm Value) →
    Echo σ (instantiate args t) (instantiate (turnedAll σ.own args) (turnedType σ.own t))
  | .basic name | .generic name _ => by
    rcases args with _ | ⟨v, _ | ⟨u, rest⟩⟩
    · exact echo_initial name
    · exact echo_convert name (hargs _ List.mem_cons_self)
    · exact inStep_fail _
  | .model m => by
    rcases args with _ | ⟨v, rest⟩
    · exact echo_foreign _
    · exact inStep_fail _
  | .annotated t _ => echo_instantiate hargs t
  | .union barred ts => by
    cases barred
    · exact inStep_fail _
    · exact inStep_failOn .notCallable (.type (.union true ts))
  | .any | .list _ | .dict .. => inStep_fail _
  | .reference name => inStep_failOn .notCallable (.type (.reference name))
  | .other v => inStep_failOn .notCallable v

theorem echo_applyBuiltin (name : String) (args : List Value) :
    Echo σ (applyBuiltin name args) (applyBuiltin name (turnedAll σ.own args)) := by
  unfold applyBuiltin
  split
  · exact echo_length _
  · exact echo_absolute _
  · rename_i hlen habs
    -- one argument that is turned round is still one argument
    have hone : ∀ v, turnedAll σ.own args = [v] → ∃ u, args = [u] := by
      intro v h
      rw [turnedAll_eq_map, List.map_eq_singleton_iff] at h
      obtain ⟨u, hu, -⟩ := h
      exact ⟨u, hu⟩
    split
    · obtain ⟨u, hu⟩ := hone _ ‹_›
      exact absurd hu (hlen u rfl)
    · obtain ⟨u, hu⟩ := hone _ ‹_›
      exact absurd hu (habs u rfl)
    · exact inStep_fail _

end Build

end DraftSchema
