import DraftSchema.Proofs.StayingAccess

/-!
# Operations within reach

Comparisons, membership, arithmetic and conversions of values within reach lead to nothing beyond it.
A comparison with the argument of a predicate is recorded, so that it is met only where such arguments
are.
-/

namespace DraftSchema

variable {σ : Reach}

namespace Build

variable {s : Store} {v a b : Value} {xs : List Value} {op : Relation}

/-! ## Comparison -/

/-- What is no sequence is in order by itself, or has none. -/
theorem yields_ordered_flat (s : Store) (op : Relation) (hlist : ∀ id xs, a ≠ .list id xs)
    (htuple : ∀ xs, a ≠ .tuple xs) (b : Value) : σ.Yields (fun _ => True) (ordered s op a b) := by
  unfold ordered
  split
  case h_3 => exact absurd rfl (hlist _ _)
  case h_4 => exact absurd rfl (htuple _)
  case h_5 =>
    split
    · trivial
    · exact .plain rfl
  all_goals trivial

mutual

theorem yields_ordered (hs : σ.rules → s.Within σ) (op : Relation) : (a b : Value) →
    a.Within σ → b.Within σ → σ.Yields (fun _ => True) (ordered s op a b)
  | .list _ as, b, ha, hb => by
    cases b with
    | list _ bs => exact yields_orderedAll hs op as bs ha (Value.within_list.mp hb)
    | _ => exact .plain rfl
  | .tuple as, b, ha, hb => by
    cases b with
    | tuple bs => exact yields_orderedAll hs op as bs ha (Value.within_tuple.mp hb)
    | _ => exact .plain rfl
  | .null, b, _, _ | .bool _, b, _, _ | .int _, b, _, _ | .float _, b, _, _ | .text _, b, _, _
  | .bytes _, b, _, _ | .dict .., b, _, _ | .regex _, b, _, _ | .function .., b, _, _
  | .range _, b, _, _ | .node _, b, _, _ | .type _, b, _, _ | .nodeClass _, b, _, _
  | .builtin _, b, _, _ | .foreign .., b, _, _ | .sized _, b, _, _ | .recorder .., b, _, _
  | .operand .., b, _, _ | .comparison .., b, _, _ | .method .., b, _, _
  | .classMethod .., b, _, _ => yields_ordered_flat s op (by simp) (by simp) b

theorem yields_orderedAll (hs : σ.rules → s.Within σ) (op : Relation) : (as bs : List Value) →
    Value.AllWithin σ as → (∀ b ∈ bs, b.Within σ) →
      σ.Yields (fun _ => True) (orderedAll s op as bs)
  | a :: as, b :: bs, ha, hb => by
    obtain ⟨hb, hbs⟩ := List.forall_mem_cons.mp hb
    -- equal elements are passed over, the first others decide
    have hrest : ∀ equal : Bool, σ.Yields (fun _ => True)
        (if equal then orderedAll s op as bs else ordered s op a b) := by
      intro equal
      split
      · exact yields_orderedAll hs op as bs ha.2 hbs
      · exact yields_ordered hs op a b ha.1 hb
    rw [orderedAll]
    split
    · exact hrest true
    · exact (Store.yields_equal hs ha.1 hb).bind fun equal _ => hrest equal
  | [], _, _, _ | _ :: _, [], _, _ => by simp [orderedAll, Reach.Yields]

end

theorem yields_related (hs : σ.rules → s.Within σ) (op : Relation) (ha : a.Within σ)
    (hb : b.Within σ) : σ.Yields (fun _ => True) (related s op a b) := by
  unfold related
  split
  · exact Store.yields_equal hs ha hb
  · exact (Store.yields_equal hs ha hb).map fun _ _ => trivial
  · exact yields_ordered hs op a b ha hb

theorem stays_compare (op : Relation) (ha : a.Within σ) (hb : b.Within σ) :
    (compare op a b).Stays σ (·.Within σ) := by
  unfold Build.compare
  split
  · exact stays_fresh.then fun _ => stays_pure ⟨ha, hb⟩
  · exact stays_fresh.then fun _ => stays_pure ⟨hb, ha⟩
  · exact (stays_fromStore fun s hs => yields_related hs op ha hb).bind fun _ _ =>
      stays_pure trivial

/-! ## Membership -/

theorem stays_among (hv : v.Within σ) (h : ∀ x ∈ xs, x.Within σ) :
    (among v xs).Stays σ fun _ => True := by
  induction xs with
  | nil => exact stays_pure trivial
  | cons x xs ih =>
    obtain ⟨hx, hrest⟩ := List.forall_mem_cons.mp h
    have hgo : ∀ here : Bool, (if here then pure true else among v xs).Stays σ fun _ => True := by
      intro here
      split
      · exact stays_pure trivial
      · exact ih hrest
    unfold among
    split
    · exact hgo true
    · exact (stays_compare .eq hx hv).bind fun _ h => (stays_truth h).then hgo

theorem stays_bytesContain (bytes : String) (v : Value) :
    (bytesContain bytes v).Stays σ fun _ => True := by
  unfold bytesContain
  split
  · exact stays_pure trivial
  · split
    · exact stays_pure trivial
    · exact stays_plain rfl
  · exact stays_failOn (fun _ => rfl) _

theorem stays_foreignContains (container : Value) (kind : String) (hv : v.Within σ) :
    (foreignContains container kind v).Stays σ fun _ => True := by
  unfold foreignContains
  split
  · exact stays_failOn (fun _ => rfl) _
  · rename_i xs hxs
    have hxs := forall_mem_foreignElements (σ := σ) hxs
    split
    · exact stays_bytesContain _ v
    split
    · exact stays_among hv hxs
    split
    · exact stays_pure trivial
    · exact (stays_checkKey _).then fun _ => stays_among hv hxs

theorem stays_contains (hv : v.Within σ) {container : Value} (h : container.Within σ) :
    (contains v container).Stays σ fun _ => True := by
  unfold contains
  split
  · exact stays_among hv (Value.within_list.mp h)
  · exact stays_among hv (Value.within_tuple.mp h)
  · split
    · exact stays_pure trivial
    · exact stays_failOn (fun _ => rfl) _
  · exact stays_bytesContain _ v
  · exact (stays_checkKey v).then fun _ => stays_pure trivial
  · exact stays_refuse_selector rfl
  · exact stays_foreignContains _ _ hv
  · exact stays_failOn (fun _ => rfl) _

/-! ## Arithmetic -/

theorem stays_failOperands (op : Arithmetic) (a b : Value) {Q : Value → Prop} :
    (failOperands op a b).Stays σ Q :=
  (stays_kindName a).then fun _ => (stays_kindName b).then fun _ => stays_plain rfl

theorem stays_wholePower (m : Int) (n : Nat) : (wholePower m n).Stays σ (·.Within σ) := by
  unfold wholePower
  split
  · exact stays_pure trivial
  split
  · exact stays_pure trivial
  · exact stays_plain rfl

theorem stays_floatPower (x y : Binary64) : (floatPower x y).Stays σ (·.Within σ) := by
  unfold floatPower
  split
  · exact stays_float _
  · exact stays_plain rfl
  · exact stays_plain rfl
  · exact stays_foreign _
  · exact stays_plain rfl

theorem stays_wholeArithmetic (op : Arithmetic) (m n : Int) :
    (wholeArithmetic op m n).Stays σ (·.Within σ) := by
  unfold wholeArithmetic
  split
  case h_4 =>
    split
    · exact stays_plain rfl
    · dsimp only
      split
      · exact stays_pure trivial
      · exact stays_plain rfl
  case h_5 | h_6 =>
    split
    · exact stays_plain rfl
    · exact stays_pure trivial
  case h_7 =>
    split
    · exact stays_wholePower m _
    · split
      · exact stays_floatPower _ _
      · exact stays_plain rfl
  all_goals exact stays_pure trivial

theorem stays_floatArithmetic (op : Arithmetic) (x y : Binary64) :
    (floatArithmetic op x y).Stays σ (·.Within σ) := by
  unfold floatArithmetic
  split
  case h_4 | h_5 | h_6 =>
    split
    · exact stays_plain rfl
    · exact stays_float _
  case h_7 => exact stays_floatPower x y
  case h_8 => exact stays_failOperands _ _ _
  all_goals exact stays_float _

theorem stays_toFloat (v : Value) : (toFloat v).Stays σ fun _ => True := by
  unfold toFloat
  split
  · exact stays_pure trivial
  · split
    · exact stays_pure trivial
    · split
      · exact stays_pure trivial
      · exact stays_plain rfl

theorem mem_of_mem_repeated {α : Type} {xs : List α} {count : Int} {x : α}
    (h : x ∈ repeated xs count) : x ∈ xs := by
  unfold repeated at h
  split at h
  · cases h
  · obtain ⟨ys, hys, hx⟩ := List.mem_flatten.mp h
    exact List.eq_of_mem_replicate hys ▸ hx

theorem stays_times (hv : v.Within σ) (count : Int) : (times v count).Stays σ (·.Within σ) := by
  unfold times
  split
  · exact stays_pure trivial
  · exact stays_pure trivial
  · exact stays_list fun x hx => Value.within_list.mp hv x (mem_of_mem_repeated hx)
  · exact stays_pure (Value.within_tuple.mpr fun x hx =>
      Value.within_tuple.mp hv x (mem_of_mem_repeated hx))
  · exact stays_failOperands _ _ _

theorem isPlain_noRoom (v : Value) (length : Nat) : (noRoom v length).isPlain = true := by
  unfold noRoom
  split
  · rfl
  · split <;> rfl

theorem stays_product (ha : a.Within σ) (hb : b.Within σ) :
    (product a b).Stays σ (·.Within σ) := by
  unfold product
  split
  rename_i sequence count hpair
  have hsequence : sequence.Within σ := by
    split at hpair <;> cases hpair
    · exact ha
    · exact hb
  split
  · exact stays_failOperands _ _ _
  split
  · exact stays_failOn (fun _ => rfl) _
  dsimp only
  split
  · exact stays_plain rfl
  split
  · exact stays_plain (isPlain_noRoom _ _)
  · exact stays_times hsequence _

theorem stays_join (ha : a.Within σ) (hb : b.Within σ) : (join a b).Stays σ (·.Within σ) := by
  unfold join
  split
  · exact stays_pure trivial
  · exact stays_pure trivial
  · exact stays_list (List.forall_mem_append.mpr
      ⟨Value.within_list.mp ha, Value.within_list.mp hb⟩)
  · exact stays_pure (Value.within_tuple.mpr (List.forall_mem_append.mpr
      ⟨Value.within_tuple.mp ha, Value.within_tuple.mp hb⟩))
  · exact stays_failOn (fun _ => rfl) _
  · exact stays_failOn (fun _ => rfl) _
  · exact stays_failOn (fun _ => rfl) _
  · exact stays_failOn (fun _ => rfl) _
  · exact stays_failOperands _ _ _

theorem stays_formattedBytes (bytes : String) (v : Value) :
    (formattedBytes bytes v).Stays σ (·.Within σ) := by
  unfold formattedBytes
  split
  · exact stays_pure trivial
  · exact stays_ite (fun _ => stays_pure trivial) fun _ => stays_plain rfl

/-! ## Types -/

theorem yields_read (text : String) :
    σ.Yields (fun _ => True) (TypeExpression.read text) := by
  unfold TypeExpression.read
  dsimp only
  split
  · exact .plain rfl
  split
  · exact .plain rfl
  split
  · trivial
  · exact .plain rfl

theorem yields_member (s : Store) (context : String) (hv : v.Within σ) :
    σ.Yields (Value.TypeWithin σ) (Typing.member s context v) := by
  unfold Typing.member
  split
  · trivial
  · exact hv
  · exact (yields_read _).bind fun _ _ => trivial
  · exact (Reach.Yields.of_spellable (s.spellable_valueDetail _)).bind fun _ _ => .plain rfl
  · exact hv

theorem isPlain_of_unhashable {ts : List (TypeForm Value)} {f : Fault}
    (h : Typing.unhashable? s ts = some f) : f.isPlain = true := by
  induction ts with
  | nil => cases h
  | cons t ts ih =>
    unfold Typing.unhashable? at h
    split at h
    · cases h
      rfl
    · exact ih h

theorem yields_choice (s : Store) (ts : List (TypeForm Value)) :
    σ.Yields (· = Typing.union false ts) (Typing.choice s ts) := by
  unfold Typing.choice
  split
  · exact .plain rfl
  split
  · exact .plain (isPlain_of_unhashable ‹_›)
  · exact Eq.refl _

theorem typeWithin_joined (hv : v.Within σ) : Value.TypeWithin σ (Typing.joined v) := by
  unfold Typing.joined
  split
  · trivial
  · exact hv
  · exact hv

theorem forall_mem_pair {t u : TypeForm Value} (ht : Value.TypeWithin σ t)
    (hu : Value.TypeWithin σ u) : ∀ x ∈ [t, u], Value.TypeWithin σ x :=
  List.forall_mem_cons.mpr ⟨ht, List.forall_mem_singleton.mpr hu⟩

theorem yields_join (s : Store) (ha : a.Within σ) (hb : b.Within σ) {choice : Except Fault Value}
    (h : Typing.join? s a b = some choice) : σ.Yields (·.Within σ) choice := by
  unfold Typing.join? at h
  split at h
  · split at h
    · cases h
    · cases h
      exact Value.within_ofType (Value.typeWithin_union
        (forall_mem_pair (typeWithin_joined ha) (typeWithin_joined hb)))
  split at h
  · cases h
    refine (yields_member s _ ha).bind fun t ht => (yields_member s _ hb).bind fun u hu => ?_
    refine (yields_choice s [t, u]).bind fun choice hchoice => Value.within_ofType ?_
    exact hchoice ▸ Value.typeWithin_union (forall_mem_pair ht hu)
  · cases h

theorem stays_either (ha : a.Within σ) (hb : b.Within σ) : (either a b).Stays σ (·.Within σ) := by
  unfold either
  split
  · exact stays_pure trivial
  split
  · exact stays_wholeArithmetic _ _ _
  · refine stays_store.bind fun s _ => ?_
    split
    · exact stays_ofExcept (yields_join s ha hb ‹_›)
    · exact stays_failOperands _ _ _

theorem stays_mixedArithmetic (op : Arithmetic) (ha : a.Within σ) (hb : b.Within σ) :
    (mixedArithmetic op a b).Stays σ (·.Within σ) := by
  unfold mixedArithmetic
  split
  · refine (stays_toFloat a).then fun x => (stays_toFloat b).then fun y => ?_
    split
    · exact stays_floatArithmetic _ _ _
    · exact stays_failOperands _ _ _
  split
  · exact stays_join ha hb
  · exact stays_product ha hb
  · exact stays_formatted _ hb
  · exact stays_formattedBytes _ b
  · exact stays_failOperands _ _ _

theorem stays_arithmetic (op : Arithmetic) (ha : a.Within σ) (hb : b.Within σ) :
    (arithmetic op a b).Stays σ (·.Within σ) := by
  unfold arithmetic
  split
  · exact stays_either ha hb
  split
  · exact stays_wholeArithmetic _ _ _
  · exact stays_mixedArithmetic _ ha hb

theorem stays_negate (v : Value) : (negate v).Stays σ (·.Within σ) := by
  unfold negate
  split
  · exact stays_float _
  split
  · exact stays_pure trivial
  · exact stays_failOn (fun _ => rfl) _

theorem stays_absolute (v : Value) : (absolute v).Stays σ (·.Within σ) := by
  unfold absolute
  split
  · exact stays_float _
  split
  · exact stays_pure trivial
  · exact stays_failOn (fun _ => rfl) _

/-! ## Conversions -/

theorem yields_wholeNumeral (shown : String) (numeral : List Char) :
    σ.Yields (fun _ => True) (wholeNumeral shown numeral) := by
  unfold wholeNumeral
  dsimp only
  split
  · split
    · exact .plain rfl
    · trivial
  · exact .plain rfl

theorem stays_spelled (text : String) : (spelled text).Stays σ (·.Within σ) :=
  (stays_ofExcept (yields_wholeNumeral _ _)).then fun _ => stays_pure trivial

theorem stays_toWhole (v : Value) : (toWhole v).Stays σ (·.Within σ) := by
  unfold toWhole
  split
  · split
    · exact stays_pure trivial
    · exact stays_plain rfl
    · exact stays_plain rfl
  · exact stays_spelled _
  · exact (stays_ofExcept (yields_wholeNumeral _ _)).then fun _ => stays_pure trivial
  · split
    · exact stays_pure trivial
    · exact stays_failOn (fun _ => rfl) _

theorem stays_toReal (v : Value) : (toReal v).Stays σ (·.Within σ) := by
  unfold toReal
  dsimp only
  split
  case h_3 =>
    refine (stays_toFloat v).then fun x => ?_
    split
    · exact stays_pure trivial
    · exact stays_failOn (fun _ => rfl) _
  all_goals
    -- how a numeral is read does not matter, and is kept from being tried
    generalize Binary64.ofText? = parse
    refine stays_fresh.then fun n => ?_
    split
    · exact stays_pure trivial
    · exact stays_plain rfl

theorem stays_convert (name : String) (hv : v.Within σ) :
    (convert name v).Stays σ (·.Within σ) := by
  unfold convert
  split
  · exact (stays_valueText v).map fun _ _ => trivial
  · exact (stays_truth hv).then fun _ => stays_pure trivial
  · exact stays_toWhole v
  · exact stays_toReal v
  · exact (stays_elements hv).bind fun xs hxs => stays_list hxs
  · exact (stays_elements hv).bind fun xs hxs => stays_pure (Value.within_tuple.mpr hxs)
  · exact (stays_entriesOf hv).bind fun es hes => stays_dict hes
  · exact stays_store.bind fun s _ => stays_pure (within_classOf hv)
  · exact stays_plain rfl
  · exact stays_plain rfl
  · split
    · exact (stays_elements hv).bind fun xs hxs => stays_recorder hxs
    · exact stays_foreign _

theorem stays_initial (name : String) : (initial name).Stays σ (·.Within σ) := by
  unfold initial
  split
  case h_5 => exact stays_list (by simp)
  case h_6 => exact stays_pure (Value.within_tuple.mpr (by simp))
  case h_7 => exact stays_dict (by simp)
  case h_9 => exact stays_plain rfl
  case h_10 =>
    split
    · exact stays_recorder (by simp)
    · exact stays_foreign _
  all_goals exact stays_pure trivial

theorem stays_instantiate {args : List Value} (hargs : ∀ x ∈ args, x.Within σ) :
    (t : TypeForm Value) → (instantiate args t).Stays σ (·.Within σ)
  | .basic name | .generic name _ => by
    unfold instantiate
    split
    · exact stays_initial name
    · exact stays_convert name (hargs _ List.mem_cons_self)
    · exact stays_plain rfl
  | .model m => by
    unfold instantiate
    split
    · exact stays_foreign _
    · exact stays_plain rfl
  | .annotated t _ => stays_instantiate hargs t
  | .union barred ts => by
    cases barred
    · exact stays_plain rfl
    · exact stays_failOn (fun _ => rfl) _
  | .any | .list _ | .dict .. => stays_plain rfl
  | .reference _ | .other _ => stays_failOn (fun _ => rfl) _

theorem stays_applyBuiltin (name : String) (args : List Value) :
    (applyBuiltin name args).Stays σ (·.Within σ) := by
  unfold applyBuiltin
  split
  · exact stays_length _
  · exact stays_absolute _
  · exact stays_plain rfl

end Build

end DraftSchema
