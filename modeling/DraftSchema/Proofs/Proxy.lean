import DraftSchema.Proofs.Compilation
import DraftSchema.Proofs.Conflict

/-!
# What proxies meet

Selectors are read by a recorder, predicates by an operand, which makes a record of a comparison.
Whatever is done with one of these, as a value by itself or beside another one, a fault that comes of
it is one that reading turns into a refusal. Only a text into which one is put may need more room
than there is.
-/

namespace DraftSchema

/-- Whether a value stands for the argument of a function that is only read, or for what was recorded
of it. -/
def Value.isProxy : Value → Bool
  | .recorder .. | .operand .. | .comparison .. => true
  | _ => false

namespace Build

variable {α β : Type} {p v : Value}

/-- A build meets only faults that reading a function makes refusals of. -/
abbrev Recovers (b : Build α) : Prop := b.FailsOnly fun f => f.kind.isRecoverable = true

theorem recovers_refuse (r : Refusal) : (refuse r : Build α).Recovers := by
  refine failsOnly_fail ?_
  show r.code.kind.isRecoverable = true
  cases r.code <;> rfl

theorem recovers_fresh : fresh.Recovers := by
  intro w f w' h
  cases h

theorem recovers_store : store.Recovers := by
  intro w f w' h
  cases h

theorem recovers_failOn {fault : String → Fault}
    (h : ∀ type, (fault type).kind.isRecoverable = true) (v : Value) :
    (failOn fault v : Build α).Recovers :=
  (recovers_store.bind fun _ => failsOnly_pure _).bind fun type => failsOnly_fail (h type)

theorem recovers_ite {c : Prop} [Decidable c] {b b' : Build α} (h : b.Recovers) (h' : b'.Recovers) :
    (if c then b else b').Recovers := by
  split
  · exact h
  · exact h'

theorem recovers_spellable {g : Store → Except Fault String} (h : ∀ s, Spellable False (g s)) :
    (fromStore g).Recovers := by
  refine recovers_store.bind fun s => ?_
  cases hs : g s with
  | ok text => exact failsOnly_pure _
  | error f =>
    obtain rfl := (h s f hs).resolve_right And.right
    exact failsOnly_fail rfl

/-- A proxy can be shown. -/
theorem recovers_valueText (hp : p.isProxy = true) : (fromStore fun s => s.valueText p).Recovers :=
  recovers_spellable fun s => by
    cases p with
    | recorder | operand | comparison => exact .ok _
    | _ => cases hp

theorem recovers_valueDetail (hp : p.isProxy = true) :
    (fromStore fun s => s.valueDetail p).Recovers :=
  recovers_spellable fun s => by
    cases p with
    | recorder | operand | comparison => exact .ok _
    | _ => cases hp

/-! ## Parts of values -/

theorem recovers_missing (s : Store) (v : Value) (name : String) :
    (fail (s.missing v name) : Build α).Recovers := by
  refine failsOnly_fail ?_
  rw [Fault.kind_of_sort (g := .reserved name) (sort_missing s v name)]
  rfl

theorem recovers_recorder (path : List Value) : (recorder path).Recovers :=
  recovers_fresh.bind fun _ => failsOnly_pure _

theorem recovers_keptAttribute (v : Value) (name : String) : (keptAttribute v name).Recovers := by
  refine recovers_store.bind fun s => ?_
  split
  · exact failsOnly_pure _
  · exact recovers_missing s v name

theorem recovers_attr (v : Value) (name : String) : (attr v name).Recovers := by
  unfold attr
  split
  · unfold recorderAttribute
    exact recovers_ite (failsOnly_pure _) <| recovers_ite (failsOnly_pure _) <|
      recovers_ite (failsOnly_pure _) <| recovers_ite (failsOnly_pure _) <|
      recovers_ite (failsOnly_pure _) <| recovers_ite (failsOnly_pure _) <|
      recovers_ite (failsOnly_fail rfl) (recovers_recorder _)
  · have hlength : ∀ ofLength : Bool,
        (if ofLength then refuse .notAComparison else operand true).Recovers :=
      fun _ => recovers_ite (recovers_refuse _) (recovers_fresh.bind fun _ => failsOnly_pure _)
    exact recovers_ite (hlength _) <| recovers_ite (failsOnly_pure _) <|
      recovers_ite (failsOnly_pure _) <| recovers_ite (failsOnly_pure _) <|
      recovers_failOn (fun _ => rfl) _
  · exact recovers_ite (recovers_fresh.bind fun _ => failsOnly_pure _) (recovers_keptAttribute _ _)
  · exact recovers_keptAttribute _ _

theorem recovers_checkKey (v : Value) : (checkKey v).Recovers := by
  unfold checkKey
  split
  · exact recovers_failOn (fun _ => rfl) _
  · exact failsOnly_pure _

theorem recovers_itemAt (owner : String) (xs : List Value) (key : Value) :
    (itemAt owner xs key).Recovers := by
  unfold itemAt
  split
  · exact recovers_failOn (fun _ => rfl) _
  split
  · exact failsOnly_pure _
  · refine failsOnly_fail ?_
    split <;> rfl

theorem recovers_lookup (entries : Entries Value Value) (key : Value) :
    (lookup entries key).Recovers := by
  refine (recovers_checkKey key).bind fun _ => ?_
  split
  · exact failsOnly_pure _
  · refine recovers_store.bind fun s => failsOnly_fail ?_
    unfold absentKey
    split <;> rfl

theorem not_type_of_isProxy (hp : p.isProxy = true) (t : TypeForm Value) : p ≠ .type t := by
  rintro rfl
  cases hp

/-- What is no type is asked for a part. -/
theorem recovers_item (h : ∀ t, v ≠ .type t) (key : Value) : (item v key).Recovers := by
  unfold item
  split
  · split
    · exact recovers_recorder _
    · exact (failsOnly_typeName _).bind fun _ => recovers_refuse _
  · exact recovers_itemAt _ _ _
  · exact recovers_itemAt _ _ _
  · exact recovers_itemAt _ _ _
  · exact recovers_itemAt _ _ _
  · exact recovers_fresh.bind fun _ => recovers_lookup _ _
  · exact absurd rfl (h _)
  · exact failsOnly_fail rfl
  · exact recovers_failOn (fun _ => rfl) _

/-- A type is asked for a part. Only where it is shown, and a rule in it contains itself, the fault is
none that recovers. -/
theorem item_type_error {t : TypeForm Value} {key : Value} {w w' : Workspace} {f : Fault}
    (h : item (.type t) key w = .error f w') : f.kind.isRecoverable = true ∨
      f = .tooDeep ∧ ∃ c ∈ Value.typeNodes t, ¬ w.store.Whole c := by
  cases hsubscript : Typing.subscript w.store t key with
  | ok v =>
    rw [item, fromStore_of_ok hsubscript] at h
    cases h
  | error g =>
    rw [item, fromStore_of_error hsubscript] at h
    cases h
    unfold Typing.subscript at hsubscript
    dsimp only at hsubscript
    split at hsubscript
    · split at hsubscript
      · cases hsubscript
      · cases hsubscript
        exact .inl rfl
    · cases hsubscript
      exact .inl rfl
    · cases hsubscript
      exact .inl rfl
    · cases hsubscript
      exact .inl rfl
    · cases hsubscript
      exact .inl rfl
    · -- the type is shown, as one that takes no parts
      cases hshown : w.store.valueText (.type t) with
      | ok shown =>
        rw [hshown] at hsubscript
        cases hsubscript
        exact .inl rfl
      | error g =>
        rw [hshown] at hsubscript
        cases hsubscript
        rcases w.store.spellable_valueText _ _ hshown with rfl | ⟨rfl, hendless⟩
        · exact .inl rfl
        · exact .inr ⟨rfl, hendless⟩

theorem recovers_slice (h : ∀ t, v ≠ .type t) (start stop : Option Int) :
    (slice v start stop).Recovers := by
  unfold slice
  split
  · exact recovers_refuse _
  · exact failsOnly_list _
  · exact failsOnly_pure _
  · exact failsOnly_pure _
  · exact failsOnly_pure _
  · exact failsOnly_fail rfl
  · exact recovers_fresh.bind fun _ => recovers_item h _
  · exact recovers_fresh.bind fun _ => recovers_item h _
  · exact recovers_failOn (fun _ => rfl) _

theorem recovers_elements (v : Value) : (elements v).Recovers := by
  unfold elements
  split
  case h_6 => exact recovers_refuse _
  case h_7 =>
    split
    · exact failsOnly_pure _
    · exact recovers_failOn (fun _ => rfl) _
  case h_8 => exact recovers_failOn (fun _ => rfl) _
  all_goals exact failsOnly_pure _

theorem recovers_length (v : Value) : (length v).Recovers := by
  unfold Build.length
  split
  case h_6 =>
    split
    · exact failsOnly_pure _
    · exact recovers_failOn (fun _ => rfl) _
  case h_7 => exact recovers_failOn (fun _ => rfl) _
  all_goals exact failsOnly_pure _

theorem recovers_truth (v : Value) : (truth v).Recovers := by
  unfold Build.truth
  split
  · exact failsOnly_pure _
  · exact recovers_refuse _

/-! ## Comparisons -/

theorem equalWith_of_isProxy {nodes : NodeId → NodeId → Except Fault Bool}
    (h : p.isProxy = true ∨ v.isProxy = true) : p.equalWith nodes v = p.equalWhole v := by
  rcases h with h | h
  · cases p with
    | recorder | operand | comparison => rw [Value.equalWith] <;> simp
    | _ => cases h
  · cases v with
    | recorder | operand | comparison => rw [Value.equalWith] <;> simp
    | _ => cases h

theorem ordered_of_isProxy (s : Store) (op : Relation) (h : p.isProxy = true ∨ v.isProxy = true) :
    ordered s op p v = .error (.unordered op (s.kindName p) (s.kindName v)) := by
  rcases h with h | h
  · cases p with
    | recorder | operand | comparison => rw [ordered] <;> simp [Value.denote?]
    | _ => cases h
  · cases v with
    | recorder | operand | comparison => rw [ordered] <;> simp [Value.denote?]
    | _ => cases h

theorem recovers_equalWhole (v w : Value) : (ofExcept (v.equalWhole w)).Recovers := by
  unfold Value.equalWhole
  split
  · exact failsOnly_fail rfl
  · split <;> exact failsOnly_pure _

theorem recovers_related (s : Store) (op : Relation) (h : p.isProxy = true ∨ v.isProxy = true) :
    (ofExcept (related s op p v)).Recovers := by
  -- equality with a proxy never comes to comparing rules
  have hequal : (ofExcept (s.equal p v)).Recovers := by
    unfold Store.equal
    rw [equalWith_of_isProxy h]
    exact recovers_equalWhole p v
  cases op with
  | eq => exact hequal
  | ne =>
    show (ofExcept ((!·) <$> s.equal p v)).Recovers
    cases hs : s.equal p v with
    | ok equal => exact failsOnly_pure _
    | error f =>
      rw [hs] at hequal
      exact hequal
  | lt | le | gt | ge =>
    show (ofExcept (ordered s _ p v)).Recovers
    rw [ordered_of_isProxy s _ h]
    exact failsOnly_fail rfl

theorem recovers_compare (op : Relation) (h : p.isProxy = true ∨ v.isProxy = true) :
    (compare op p v).Recovers := by
  unfold Build.compare
  split
  · exact recovers_fresh.bind fun _ => failsOnly_pure _
  · exact recovers_fresh.bind fun _ => failsOnly_pure _
  · exact (recovers_store.bind fun s => recovers_related s op h).bind fun _ => failsOnly_pure _

/-! ## Membership -/

theorem recovers_among (hp : p.isProxy = true) (xs : List Value) : (among p xs).Recovers := by
  induction xs with
  | nil => exact failsOnly_pure _
  | cons x xs ih =>
    have hrest : ∀ here : Bool, (if here then pure true else among p xs).Recovers := fun _ =>
      recovers_ite (failsOnly_pure _) ih
    unfold among
    split
    · exact hrest true
    · exact (recovers_compare .eq (.inr hp)).bind fun _ => (recovers_truth _).bind hrest

theorem toInt?_of_isProxy (hp : p.isProxy = true) : p.toInt? = none := by
  cases p with
  | recorder | operand | comparison => rfl
  | _ => cases hp

theorem denote?_of_isProxy (hp : p.isProxy = true) : p.denote? = none := by
  cases p with
  | recorder | operand | comparison => rfl
  | _ => cases hp

theorem recovers_bytesContain (bytes : String) (hp : p.isProxy = true) :
    (bytesContain bytes p).Recovers := by
  cases p with
  | recorder | operand | comparison => exact recovers_failOn (fun _ => rfl) _
  | _ => cases hp

theorem recovers_foreignContains (container : Value) (kind : String) (hp : p.isProxy = true) :
    (foreignContains container kind p).Recovers := by
  unfold foreignContains
  split
  · exact recovers_failOn (fun _ => rfl) _
  · refine recovers_ite (recovers_bytesContain _ hp) (recovers_ite (recovers_among hp _) ?_)
    split
    · exact failsOnly_pure _
    · exact (recovers_checkKey _).bind fun _ => recovers_among hp _

/-- A proxy is looked for in anything. -/
theorem recovers_contains (hp : p.isProxy = true) (container : Value) :
    (contains p container).Recovers := by
  unfold contains
  split
  · exact recovers_among hp _
  · exact recovers_among hp _
  · split
    · cases hp
    · exact recovers_failOn (fun _ => rfl) _
  · exact recovers_bytesContain _ hp
  · exact (recovers_checkKey _).bind fun _ => failsOnly_pure _
  · exact recovers_refuse _
  · exact recovers_foreignContains _ _ hp
  · exact recovers_failOn (fun _ => rfl) _

/-- Anything is looked for in a proxy. -/
theorem recovers_contains_in (v : Value) (hp : p.isProxy = true) : (contains v p).Recovers := by
  cases p with
  | recorder => exact recovers_refuse _
  | operand | comparison => exact recovers_failOn (fun _ => rfl) _
  | _ => cases hp

/-! ## Arithmetic -/

theorem recovers_failOperands (op : Arithmetic) (v w : Value) : (failOperands op v w).Recovers :=
  (recovers_store.bind fun _ => failsOnly_pure _).bind fun _ =>
    (recovers_store.bind fun _ => failsOnly_pure _).bind fun _ => failsOnly_fail rfl

theorem recovers_join (h : p.isProxy = true ∨ v.isProxy = true) : (join p v).Recovers := by
  unfold Build.join
  split
  case h_1 | h_2 | h_3 | h_4 => rcases h with h | h <;> cases h
  case h_5 | h_6 | h_7 | h_8 => exact recovers_failOn (fun _ => rfl) _
  case h_9 => exact recovers_failOperands _ _ _

theorem isSequence_of_isProxy (hp : p.isProxy = true) : isSequence p = false := by
  cases p with
  | recorder | operand | comparison => rfl
  | _ => cases hp

theorem recovers_product (h : p.isProxy = true ∨ v.isProxy = true) : (product p v).Recovers := by
  unfold product
  cases hp : isSequence p with
  | true =>
    have hv : v.isProxy = true := h.resolve_left fun h => by simp [isSequence_of_isProxy h] at hp
    simp only [if_true, hp, Bool.not_true, Bool.false_eq_true, if_false, toInt?_of_isProxy hv]
    exact recovers_failOn (fun _ => rfl) _
  | false =>
    cases hv : isSequence v with
    | true =>
      have hproxy : p.isProxy = true :=
        h.resolve_right fun h => by simp [isSequence_of_isProxy h] at hv
      simp only [Bool.false_eq_true, if_false, hv, Bool.not_true, toInt?_of_isProxy hproxy]
      exact recovers_failOn (fun _ => rfl) _
    | false =>
      simp only [Bool.false_eq_true, if_false, hv, Bool.not_false, if_true]
      exact recovers_failOperands _ _ _

theorem kind_of_unhashable {s : Store} {ts : List (TypeForm Value)} {f : Fault}
    (h : Typing.unhashable? s ts = some f) : f.kind = .type := by
  induction ts with
  | nil => cases h
  | cons t ts ih =>
    unfold Typing.unhashable? at h
    split at h
    · cases h
      rfl
    · exact ih h

theorem kind_of_choice {s : Store} {ts : List (TypeForm Value)} {f : Fault}
    (h : Typing.choice s ts = .error f) : f.kind = .type := by
  unfold Typing.choice at h
  split at h
  · cases h
    rfl
  split at h
  · cases h
    exact kind_of_unhashable ‹_›
  · cases h

theorem member_of_isProxy (s : Store) (context : String) (hp : p.isProxy = true) :
    Typing.member s context p = .ok (.other p) := by
  cases p with
  | recorder | operand | comparison => rfl
  | _ => cases hp

theorem isJoinable_of_isProxy (hp : p.isProxy = true) :
    Typing.isJoinable p = false ∧ Typing.isNamed p = false := by
  cases p with
  | recorder | operand | comparison => exact ⟨rfl, rfl⟩
  | _ => cases hp

theorem exists_type_of_isNamed (h : Typing.isNamed v = true) : ∃ t, v = .type t := by
  cases v with
  | type t => exact ⟨t, rfl⟩
  | _ => cases h

/-- A proxy is joined with nothing but a type made by name. -/
theorem recovers_join? {s : Store} {choice : Except Fault Value}
    (h : p.isProxy = true ∨ v.isProxy = true) (hjoin : Typing.join? s p v = some choice) :
    (ofExcept choice).Recovers := by
  have hmembers : ∃ t u, Typing.member s Typing.choiceContext p = .ok t ∧
      Typing.member s Typing.choiceContext v = .ok u ∧
      choice = (do return .ofType (← Typing.choice s [t, u])) := by
    unfold Typing.join? at hjoin
    rcases h with h | h
    all_goals
      simp only [(isJoinable_of_isProxy h).1, (isJoinable_of_isProxy h).2, Bool.false_and,
        Bool.and_false, Bool.false_or, Bool.or_false, Bool.false_eq_true, if_false] at hjoin
      split at hjoin
      · obtain ⟨t, rfl⟩ := exists_type_of_isNamed ‹_›
        cases hjoin
        rw [member_of_isProxy s _ h]
        exact ⟨_, _, rfl, rfl, rfl⟩
      · cases hjoin
  obtain ⟨t, u, -, -, rfl⟩ := hmembers
  cases hchoice : Typing.choice s [t, u] with
  | ok choice => exact failsOnly_pure _
  | error f =>
    refine failsOnly_fail ?_
    rw [kind_of_choice hchoice]
    rfl

theorem recovers_either (h : p.isProxy = true ∨ v.isProxy = true) : (either p v).Recovers := by
  unfold either
  split
  · rcases h with h | h <;> cases h
  split
  · rename_i hm hn
    rcases h with h | h
    · rw [toInt?_of_isProxy h] at hm
      cases hm
    · rw [toInt?_of_isProxy h] at hn
      cases hn
  · refine recovers_store.bind fun s => ?_
    split
    · exact recovers_join? h ‹_›
    · exact recovers_failOperands _ _ _

theorem recovers_negate (hp : p.isProxy = true) : (negate p).Recovers := by
  cases p with
  | recorder | operand | comparison => exact recovers_failOn (fun _ => rfl) _
  | _ => cases hp

theorem recovers_absolute (hp : p.isProxy = true) : (absolute p).Recovers := by
  cases p with
  | recorder | operand | comparison => exact recovers_failOn (fun _ => rfl) _
  | _ => cases hp

/-- Arithmetic with a proxy, save for texts with marks that it is put in place of. -/
theorem recovers_arithmetic (op : Arithmetic) (h : p.isProxy = true ∨ v.isProxy = true)
    (htext : ∀ text, ¬ (op = .mod ∧ p = .text text)) : (arithmetic op p v).Recovers := by
  have hmixed : ∀ op, (∀ text, ¬ (op = .mod ∧ p = .text text)) →
      (mixedArithmetic op p v).Recovers := by
    intro op htext
    have hdenote : (p.denote?.isSome && v.denote?.isSome) = false := by
      rcases h with h | h <;> simp [denote?_of_isProxy h]
    unfold mixedArithmetic
    simp only [hdenote, Bool.false_eq_true, if_false]
    split
    · exact recovers_join h
    · exact recovers_product h
    · exact absurd ⟨rfl, rfl⟩ (htext _)
    · unfold formattedBytes
      split
      · rcases h with h | h <;> cases h
      · exact recovers_ite (failsOnly_pure _) (failsOnly_fail rfl)
    · exact recovers_failOperands _ _ _
  have hnone : p.toInt? = none ∨ v.toInt? = none :=
    h.imp toInt?_of_isProxy toInt?_of_isProxy
  unfold arithmetic
  split
  · exact recovers_either h
  · split
    · rename_i hm hn
      rcases hnone with h | h
      · rw [h] at hm
        cases hm
      · rw [h] at hn
        cases hn
    · exact hmixed _ htext

/-! ## Conversions and calls -/

theorem recovers_toReal (hp : p.isProxy = true) : (toReal p).Recovers := by
  cases p with
  | recorder | operand | comparison =>
    refine FailsOnly.bind (failsOnly_pure none) fun x => ?_
    split
    · exact failsOnly_pure _
    · exact recovers_failOn (fun _ => rfl) _
  | _ => cases hp

theorem recovers_toWhole (hp : p.isProxy = true) : (toWhole p).Recovers := by
  cases p with
  | recorder | operand | comparison => exact recovers_failOn (fun _ => rfl) _
  | _ => cases hp

theorem recovers_entriesOf (hp : p.isProxy = true) : (entriesOf p).Recovers := by
  cases p with
  | recorder => exact recovers_failOn (fun _ => rfl) _
  | operand | comparison =>
    refine FailsOnly.bind_of_ok (recovers_elements _) fun w xs w₁ h => ?_
    cases h
  | _ => cases hp

/-- A built-in class is called with a proxy. -/
theorem recovers_convert (name : String) (hp : p.isProxy = true) : (convert name p).Recovers := by
  unfold convert
  split
  · exact (recovers_valueText hp).map _
  · exact (recovers_truth p).bind fun _ => failsOnly_pure _
  · exact recovers_toWhole hp
  · exact recovers_toReal hp
  · exact (recovers_elements p).bind fun _ => failsOnly_list _
  · exact (recovers_elements p).bind fun _ => failsOnly_pure _
  · exact (recovers_entriesOf hp).bind fun _ => recovers_fresh.bind fun _ => failsOnly_pure _
  · exact recovers_store.bind fun _ => failsOnly_pure _
  · exact failsOnly_fail rfl
  · exact failsOnly_fail rfl
  · refine recovers_ite ?_ (recovers_fresh.bind fun _ => failsOnly_pure _)
    exact (recovers_elements p).bind fun _ => recovers_fresh.bind fun _ => failsOnly_pure _

theorem recovers_applyBuiltin (name : String) (hp : p.isProxy = true) :
    (applyBuiltin name [p]).Recovers := by
  unfold applyBuiltin
  split
  · rename_i h
    cases h
    exact recovers_length p
  · rename_i h
    cases h
    exact recovers_absolute hp
  · exact failsOnly_fail rfl

/-- A proxy is no function. -/
theorem recovers_call (hp : p.isProxy = true) (args : List Value) : (call p args).Recovers := by
  cases p with
  | recorder | operand | comparison => exact recovers_failOn (fun _ => rfl) _
  | _ => cases hp

/-- The operations that a recorder has itself. -/
theorem recovers_applyRecorder (id : Nat) (path : List Value) (name : String)
    (args : List Value) : (applyRecorder id path name args).Recovers := by
  unfold applyRecorder
  split
  · exact recovers_ite (failsOnly_fail rfl) (recovers_fresh.bind fun _ => failsOnly_pure _)
  · exact recovers_store.bind fun s => recovers_missing s _ _
  · exact recovers_item (not_type_of_isProxy rfl) _
  · exact (recovers_truth _).bind fun _ => failsOnly_pure _
  · exact failsOnly_pure _
  · exact recovers_fresh.bind fun _ => failsOnly_pure _

/-! ## Operations called by their names -/

theorem recovers_countOf (v : Value) : (countOf v).Recovers := by
  unfold countOf
  split
  · exact recovers_ite (failsOnly_pure _) (failsOnly_fail rfl)
  · exact recovers_failOn (fun _ => rfl) _

theorem recovers_unanswered : unanswered.Recovers :=
  recovers_fresh.bind fun _ => failsOnly_pure _

theorem recovers_namedArithmetic (op : Arithmetic) (turned : Bool) (hp : p.isProxy = true)
    (v : Value) : (namedArithmetic op turned p v).Recovers := by
  unfold namedArithmetic
  simp only [denote?_of_isProxy hp, Option.isSome_none, Bool.false_eq_true, if_false]
  split
  · exact recovers_join (.inl hp)
  · exact (recovers_countOf _).bind fun _ => recovers_product (.inl hp)
  · cases hp
  · cases hp
  · exact recovers_unanswered

theorem recovers_namedComparison (op : Relation) (hp : p.isProxy = true) (v : Value) :
    (namedComparison op p v).Recovers := by
  have hcompare : (compare op p v).Recovers := recovers_compare op (.inl hp)
  unfold namedComparison
  exact recovers_ite hcompare <| recovers_ite recovers_unanswered <| recovers_ite hcompare <|
    recovers_ite (failsOnly_pure _) recovers_unanswered

theorem recovers_roundedTo (round : Rat → Int) (v : Value) : (roundedTo round v).Recovers := by
  unfold roundedTo
  split
  · split
    · exact failsOnly_pure _
    · exact failsOnly_fail rfl
    · exact failsOnly_fail rfl
  · exact failsOnly_pure _

theorem recovers_applyUnary (hp : p.isProxy = true) (name : String) :
    (applyUnary p name).Recovers := by
  unfold applyUnary
  split
  · exact (recovers_valueText hp).map _
  · exact (recovers_valueDetail hp).map _
  · exact recovers_length p
  · exact (recovers_truth p).bind fun _ => failsOnly_pure _
  · exact recovers_negate hp
  · exact recovers_absolute hp
  · exact failsOnly_pure _
  · split <;> exact failsOnly_pure _
  · exact recovers_toWhole hp
  · exact recovers_toWhole hp
  · exact recovers_toWhole hp
  · exact recovers_roundedTo _ p
  · exact recovers_roundedTo _ p
  · exact recovers_roundedTo _ p
  · exact recovers_toReal hp
  · exact failsOnly_fail rfl

theorem recovers_applyBinary (hp : p.isProxy = true) (name : String) (v : Value) :
    (applyBinary p name v).Recovers := by
  unfold applyBinary
  split
  · exact recovers_item (not_type_of_isProxy hp) v
  · exact (recovers_contains_in v hp).bind fun _ => failsOnly_pure _
  · split
    · exact recovers_attr p _
    · exact recovers_failOn (fun _ => rfl) _
  · split
    · exact recovers_namedComparison _ hp v
    · exact recovers_namedArithmetic _ _ hp v
    · exact recovers_namedArithmetic _ _ hp v
    · exact failsOnly_fail rfl

theorem recovers_applyPlain (hp : p.isProxy = true) (name : String) (args : List Value) :
    (applyPlain p name args).Recovers := by
  have hnamed : (applyNamed p name args).Recovers := by
    cases p with
    | recorder | operand | comparison => exact failsOnly_fail rfl
    | _ => cases hp
  have hsign : (applySign p name args).Recovers := by
    unfold applySign
    split
    · split
      · exact recovers_applyUnary hp name
      · exact failsOnly_fail rfl
    · split
      · exact recovers_applyBinary hp name _
      · exact failsOnly_fail rfl
  refine (failsOnly_typeName p).bind fun type => ?_
  unfold applyOf
  dsimp only
  split
  · rename_i f hf
    obtain ⟨g, -, hg⟩ := Option.bind_eq_some_iff.mp hf
    split at hg
    · cases hg
      exact failsOnly_fail rfl
    · cases hg
  · exact recovers_ite hnamed hsign

/-- An operation of a proxy is called that was read off it. -/
theorem recovers_applyMethod (hp : p.isProxy = true) (name : String) (args : List Value) :
    (applyMethod call p name args).Recovers := by
  cases p with
  | recorder id path => exact recovers_applyRecorder id path name args
  | operand | comparison =>
    exact recovers_ite (recovers_call hp args) (recovers_applyPlain hp name args)
  | _ => cases hp

/-! ## Everything that is done with a proxy -/

/-- What the body of a function or something built in does with a value, by itself or beside another
one, save that it puts it into a text with marks or asks a type for it as a part. -/
inductive Handled (p : Value) : Build Value → Prop
  | attr (name : String) : Handled p (attr p name)
  | item (key : Value) : Handled p (item p key)
  | itemBy (container : Value) (h : ∀ t, container ≠ .type t) : Handled p (item container p)
  | slice (start stop : Option Int) : Handled p (slice p start stop)
  | compare (op : Relation) (v : Value) : Handled p (compare op p v)
  | compareWith (op : Relation) (v : Value) : Handled p (compare op v p)
  | arith (op : Arithmetic) (v : Value) : Handled p (arithmetic op p v)
  | arithWith (op : Arithmetic) (v : Value) (h : ∀ text, ¬ (op = .mod ∧ v = .text text)) :
    Handled p (arithmetic op v p)
  | neg : Handled p (negate p)
  | length : Handled p (length p)
  | elements : Handled p (do list (← elements p))
  | member (container : Value) : Handled p (do return .bool (← contains p container))
  | container (v : Value) : Handled p (do return .bool (← contains v p))
  | not : Handled p (do return .bool (!(← truth p)))
  | call (args : List Value) : Handled p (call p args)
  | method (name : String) (args : List Value) : Handled p (applyMethod Build.call p name args)
  | builtin (name : String) : Handled p (applyBuiltin name [p])
  | convert (name : String) : Handled p (convert name p)

theorem recovers_handled (hp : p.isProxy = true) {b : Build Value} (h : Handled p b) :
    b.Recovers := by
  -- with the proxy on the left, no text is formed
  have htext : ∀ op text, ¬ (op = Arithmetic.mod ∧ p = .text text) := by
    rintro op text ⟨-, rfl⟩
    cases hp
  cases h with
  | attr name => exact recovers_attr p name
  | item key => exact recovers_item (not_type_of_isProxy hp) key
  | itemBy container h => exact recovers_item h p
  | slice start stop => exact recovers_slice (not_type_of_isProxy hp) start stop
  | compare op v => exact recovers_compare op (.inl hp)
  | compareWith op v => exact recovers_compare op (.inr hp)
  | arith op v => exact recovers_arithmetic op (.inl hp) (htext op)
  | arithWith op v h => exact recovers_arithmetic op (.inr hp) h
  | neg => exact recovers_negate hp
  | length => exact recovers_length p
  | elements => exact (recovers_elements p).bind fun _ => failsOnly_list _
  | member container => exact (recovers_contains hp container).bind fun _ => failsOnly_pure _
  | container v => exact (recovers_contains_in v hp).bind fun _ => failsOnly_pure _
  | not => exact (recovers_truth p).bind fun _ => failsOnly_pure _
  | call args => exact recovers_call hp args
  | method name args => exact recovers_applyMethod hp name args
  | builtin name => exact recovers_applyBuiltin name hp
  | convert name => exact recovers_convert name hp

/-! ## Texts with marks -/

/-- A build meets no faults but those that a text with marks meets: what recovers, and too little
room. -/
abbrev Overflows (b : Build α) : Prop :=
  b.FailsOnly fun f => f.kind.isRecoverable = true ∨ f = .outOfMemory

section

variable {supply : Supply}

theorem Recovers.overflows {b : Build α} (h : b.Recovers) : b.Overflows :=
  fun w f w' hfail => .inl (h w f w' hfail)

/-- What a build gives is as it should be. -/
def Gives (Q : α → Prop) (b : Build α) : Prop := ∀ w a w', b w = .ok a w' → Q a

section

variable {P Q : α → Prop} {R : β → Prop} {b : Build α} {k : α → Build β}

theorem gives_pure {a : α} (h : Q a) : (pure a : Build α).Gives Q := by
  intro w a' w' ha
  cases ha
  exact h

theorem gives_fail (f : Fault) : (fail f : Build α).Gives Q := by
  intro w a w' h
  cases h

theorem Gives.bind (hb : b.Gives P) (hk : ∀ a, P a → (k a).Gives R) : (b >>= k).Gives R := by
  intro w c w' h
  obtain ⟨a, w₁, ha, hc⟩ := bind_eq_ok.mp h
  exact hk a (hb w a w₁ ha) w₁ c w' hc

theorem FailsOnly.bind_of_gives {allowed : Fault → Prop} (hb : b.FailsOnly allowed) (hgives : b.Gives P)
    (hk : ∀ a, P a → (k a).FailsOnly allowed) : (b >>= k).FailsOnly allowed :=
  hb.bind_of_ok fun w a w₁ ha => hk a (hgives w a w₁ ha) w₁

end

/-- What marks are replaced by are proxies. -/
structure Proxied (supply : Supply) : Prop where
  whole : supply.whole.isProxy = true
  parts : ∀ vs, supply.parts = some vs → ∀ v ∈ vs, v.isProxy = true

theorem recovers_next : (Supply.next supply).Recovers := by
  unfold Supply.next
  dsimp only
  split
  · exact failsOnly_pure _
  · exact failsOnly_fail rfl
  · exact recovers_ite (failsOnly_fail rfl) (failsOnly_pure _)

/-- The next value that a mark is replaced by is a proxy, and so are those after it. -/
theorem Proxied.next (h : Proxied supply) :
    (Supply.next supply).Gives fun r => r.1.isProxy = true ∧ Proxied r.2 := by
  unfold Supply.next
  dsimp only
  split
  · rename_i v vs hparts
    obtain ⟨hv, hvs⟩ := List.forall_mem_cons.mp (h.parts _ hparts)
    refine gives_pure ⟨hv, h.whole, fun us hus => ?_⟩
    cases hus
    exact hvs
  · exact gives_fail _
  · split
    · exact gives_fail _
    · exact gives_pure ⟨h.whole, h.whole, h.parts⟩

theorem recovers_readNumber (what : MarkNumber) (cs : List Char) :
    (readNumber what supply cs).Recovers := by
  unfold readNumber
  split
  · refine recovers_next.bind fun r => ?_
    dsimp only
    split
    · exact failsOnly_fail rfl
    · split
      · exact failsOnly_fail rfl
      · exact recovers_ite (failsOnly_pure _) (failsOnly_fail rfl)
  · exact recovers_ite (failsOnly_fail rfl) (failsOnly_pure _)

theorem Proxied.readNumber (h : Proxied supply) (what : MarkNumber) (cs : List Char) :
    (readNumber what supply cs).Gives fun r => Proxied r.2.1 := by
  unfold Build.readNumber
  split
  · refine h.next.bind fun r hr => ?_
    dsimp only
    split
    · exact gives_fail _
    · split
      · exact gives_fail _
      · split
        · exact gives_pure hr.2
        · exact gives_fail _
  · dsimp only
    split
    · exact gives_fail _
    · exact gives_pure h

theorem recovers_readMark (cs : List Char) : (readMark supply cs).Recovers := by
  unfold readMark
  dsimp only
  refine (recovers_readNumber _ _).bind fun r => ?_
  split
  · exact (recovers_readNumber _ _).bind fun _ => failsOnly_pure _
  · exact failsOnly_pure _

theorem Proxied.readMark (h : Proxied supply) (cs : List Char) :
    (readMark supply cs).Gives fun r => Proxied r.2.1 := by
  unfold Build.readMark
  dsimp only
  refine (h.readNumber _ _).bind fun r hr => ?_
  split
  · exact (hr.readNumber _ _).bind fun _ hrest => gives_pure hrest
  · exact gives_pure hr

theorem recovers_wholeOf (letter : Char) (v : Value) : (wholeOf letter v).Recovers := by
  unfold wholeOf
  dsimp only
  split
  · refine recovers_ite (recovers_failOn (fun _ => rfl) _) ?_
    split
    · exact failsOnly_pure _
    · exact failsOnly_fail rfl
    · exact failsOnly_fail rfl
  · split
    · exact failsOnly_pure _
    · exact recovers_failOn (fun _ => rfl) _

theorem recovers_realOf (v : Value) : (realOf v).Recovers := by
  unfold realOf
  split
  · exact failsOnly_pure _
  split
  · exact recovers_failOn (fun _ => rfl) _
  split
  · exact failsOnly_pure _
  · exact failsOnly_fail rfl

theorem recovers_characterOf (v : Value) : (characterOf v).Recovers := by
  unfold characterOf
  split
  · split
    · exact failsOnly_pure _
    · exact failsOnly_fail rfl
  · split
    · exact recovers_ite (failsOnly_pure _) (failsOnly_fail rfl)
    · exact failsOnly_fail rfl

/-- A proxy is put in place of a mark if its width leaves room. -/
theorem overflows_written (m : Mark) (letter : Char) (place : Nat) (hp : p.isProxy = true) :
    (written m letter place p).Overflows := by
  unfold written
  dsimp only
  split
  · exact failsOnly_fail (.inr rfl)
  refine Recovers.overflows ?_
  split
  case h_1 => exact (recovers_valueText hp).bind fun _ => failsOnly_pure _
  case h_2 | h_3 => exact (recovers_valueDetail hp).bind fun _ => failsOnly_pure _
  case h_4 => exact (recovers_characterOf p).bind fun _ => failsOnly_pure _
  case h_5 | h_6 | h_7 =>
    refine (recovers_wholeOf _ p).bind fun n => FailsOnly.bind ?_ fun _ => failsOnly_pure _
    cases hchars : Whole.chars n with
    | ok cs => exact failsOnly_pure _
    | error f =>
      obtain rfl := (spellable_chars False n f hchars).resolve_right And.right
      exact failsOnly_fail rfl
  case h_8 | h_9 | h_10 => exact (recovers_wholeOf _ p).bind fun _ => failsOnly_pure _
  case h_17 => exact failsOnly_fail rfl
  all_goals exact (recovers_realOf p).bind fun _ => failsOnly_pure _

theorem recovers_keyed (h : Proxied supply) (cs : List Char) : (keyed supply cs).Recovers := by
  have hwhole := not_type_of_isProxy h.whole
  unfold keyed
  split
  · split
    · exact failsOnly_fail rfl
    · exact failsOnly_fail rfl
    split
    · exact failsOnly_fail rfl
    split
    case h_5 => exact failsOnly_fail rfl
    all_goals exact (recovers_item hwhole _).bind fun _ => failsOnly_pure _
  · exact failsOnly_pure _

/-- What a mark's key stands for in a recorder is a recorder again. -/
theorem Proxied.keyed (h : Proxied supply) (cs : List Char) :
    (keyed supply cs).Gives fun r => Proxied r.1 := by
  have hwhole := h.whole
  unfold Build.keyed
  split
  · split
    · exact gives_fail _
    · exact gives_fail _
    split
    · exact gives_fail _
    split
    case h_2 hrecorder =>
      rw [hrecorder]
      refine Gives.bind (P := fun v => v.isProxy = true) ?_ fun v hv => gives_pure ⟨rfl, ?_⟩
      · intro w v w' hv
        cases hv
        rfl
      · intro vs hvs u hu
        cases hvs
        cases List.mem_singleton.mp hu
        exact hv
    case h_5 => exact gives_fail _
    all_goals simp_all [Value.isProxy]
  · exact gives_pure h

theorem overflows_replaceMarks (h : Proxied supply) (length fuel : Nat) (cs : List Char) :
    (replaceMarks length fuel supply cs).Overflows := by
  -- on the fuel; only what is written for a mark may need more room than there is
  induction fuel generalizing supply cs with
  | zero => exact failsOnly_pure _
  | succ fuel ih =>
    unfold replaceMarks
    split
    · exact failsOnly_pure _
    · exact (ih h _).bind fun _ => failsOnly_pure _
    · refine (recovers_keyed h _).overflows.bind_of_gives (h.keyed _) fun r hr =>
        (recovers_readMark _).overflows.bind_of_gives (hr.readMark _) fun r hr => ?_
      dsimp only
      split
      · exact failsOnly_fail (.inl rfl)
      · refine recovers_next.overflows.bind_of_gives hr.next fun r hr => ?_
        exact (overflows_written _ _ _ hr.1).bind fun _ =>
          (ih hr.2 _).bind fun _ => failsOnly_pure _
    · exact (ih h _).bind fun _ => failsOnly_pure _

/-- A text is formed with a proxy, if there is room. -/
theorem overflows_formatted (s : String) (hp : p.isProxy = true) : (formatted s p).Overflows := by
  have hsupply : Proxied { whole := p, parts := none } := ⟨hp, fun vs hvs => by cases hvs⟩
  cases p with
  | recorder | operand | comparison =>
    unfold formatted
    dsimp only
    refine (overflows_replaceMarks hsupply _ _ _).bind fun r => ?_
    split
    · exact failsOnly_fail (.inl rfl)
    · exact failsOnly_pure _
  | _ => cases hp

end

end Build

end DraftSchema
