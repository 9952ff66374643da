import DraftSchema.Proofs.InStep
import DraftSchema.Proofs.StayingAccess

/-!
# Reading parts in step

Items, slices, elements and lengths of a value are read in step from the value and from the one in which
the argument is turned round, and so are the texts that are formed with it.
-/

namespace DraftSchema

open Value

variable {σ : Outlook}

namespace Build

variable {v key : Value} {xs : List Value}

/-! ## Items -/

theorem agree_checkKey (key : Value) : Agree σ (checkKey key) (checkKey (key.turned σ.own)) := by
  unfold checkKey
  rw [unhashable?_turned]
  cases key.unhashable? with
  | none => exact inStep_pure trivial
  | some v => exact inStep_failOn _ v

theorem echo_itemAt (owner : String) (h : ∀ x ∈ xs, x.Blind σ) (key : Value) :
    Echo σ (itemAt owner xs key) (itemAt owner (turnedAll σ.own xs) (key.turned σ.own)) := by
  unfold itemAt
  rw [toInt?_turned]
  cases key.toInt? with
  | none => exact inStep_failOn _ key
  | some index =>
    dsimp only
    rw [at?_turned]
    cases hx : at? xs index with
    | none => exact inStep_fail _
    | some x => exact inStep_pure (h x (mem_of_at? hx))

theorem echo_lookup {entries : Entries Value Value}
    (h : ∀ e ∈ entries, e.1.Blind σ ∧ e.2.Blind σ) (key : Value) :
    Echo σ (lookup entries key) (lookup (turnedEntries σ.own entries) (key.turned σ.own)) := by
  refine (agree_checkKey key).then fun _ => ?_
  rw [Value.get?_turned]
  cases hx : Entries.get? entries key with
  | some x => exact inStep_pure (blind_of_get? (fun e he => (h e he).2) hx)
  | none =>
    refine inStep_store.then fun s => ?_
    rw [absentKey_turned]
    exact inStep_fail _

/-- Characters are texts, in which there is nothing to turn round. -/
theorem turnedAll_characters (cs : List Char) :
    turnedAll σ.own (cs.map fun c => Value.text (String.singleton c))
      = cs.map fun c => Value.text (String.singleton c) := by
  rw [turnedAll_eq_map, List.map_map]
  rfl

theorem turnedAll_byteValues (bytes : String) :
    turnedAll σ.own (byteValues bytes) = byteValues bytes := by
  rw [turnedAll_eq_map, byteValues, List.map_map]
  rfl

theorem blind_characters (cs : List Char) :
    ∀ x ∈ cs.map fun c => Value.text (String.singleton c), x.Blind σ := by
  simp

theorem blind_byteValues (bytes : String) : ∀ x ∈ byteValues bytes, x.Blind σ := by
  simp [byteValues]

theorem blind_membersOf (hv : v.Blind σ) : ∀ t ∈ Typing.membersOf v, TypeBlind σ t := by
  unfold Typing.membersOf
  split
  · intro t ht
    obtain ⟨x, hx, rfl⟩ := List.mem_map.mp ht
    have hblind := blind_tuple.mp hv x hx
    split <;> exact hblind
  · exact List.forall_mem_singleton.mpr hv
  · exact List.forall_mem_singleton.mpr hv

theorem blind_subscript {s : Store} {t : TypeForm Value} (hkey : key.Blind σ)
    (h : Typing.subscript s t key = .ok v) : v.Blind σ := by
  have hunder : (do
      throw (.stated .type ((← s.valueText (.type t)) ++ " is not a generic class")) :
      Except Fault Value) ≠ .ok v := by
    cases s.valueText (.type t) <;> simp [throw, throwThe, MonadExceptOf.throw, bind, Except.bind]
  cases t with
  | basic name =>
    unfold Typing.subscript at h
    dsimp only at h
    split at h
    · cases h
      exact typesBlind_iff.mpr (blind_membersOf hkey)
    · cases h
  | any | model | reference | other => cases h
  | _ => exact absurd h hunder

theorem echo_item (hv : v.Blind σ) (hkey : key.Blind σ) :
    Echo σ (item v key) (item (v.turned σ.own) (key.turned σ.own)) := by
  cases v with
  | recorder id path =>
    have hpath : ∀ name : String, Echo σ (recorder (path ++ [.text name]))
        (recorder (turnedAll σ.own path ++ [.text name])) := by
      intro name
      rw [show turnedAll σ.own path ++ [Value.text name] = turnedAll σ.own (path ++ [.text name])
        from (Store.turnedAll_append path [.text name]).symm]
      exact echo_recorder (List.forall_mem_append.mpr ⟨blind_recorder.mp hv, by simp⟩)
    have hother : Echo σ (do refuse (.pathKey (← typeName key)))
        (do refuse (.pathKey (← typeName (key.turned σ.own)))) :=
      (agree_typeName key).then fun _ => inStep_refuse _
    cases key with
    | text name => exact hpath name
    | _ => exact hother
  | list id xs => exact echo_itemAt _ (blind_list.mp hv) key
  | tuple xs => exact echo_itemAt _ (blind_tuple.mp hv) key
  | text s =>
    have hitem := echo_itemAt (σ := σ) "string" (blind_characters s.toList) key
    rwa [turnedAll_characters] at hitem
  | bytes s =>
    have hitem := echo_itemAt (σ := σ) "byte" (blind_byteValues s) key
    rwa [turnedAll_byteValues] at hitem
  | dict id es => exact inStep_fresh.then fun _ => echo_lookup (blind_dict.mp hv) key
  | type t =>
    exact inStep_fromStore (fun s => Typing.subscript_turned s t key)
      fun s v hsome => blind_subscript hkey hsome
  | nodeClass c => exact inStep_fail _
  | _ => exact inStep_failOn .notSubscriptable _

theorem echo_slice (hv : v.Blind σ) (start stop : Option Int) :
    Echo σ (slice v start stop) (slice (v.turned σ.own) start stop) := by
  cases v with
  | recorder id path => exact inStep_refuse _
  | list id xs =>
    have hlist := @echo_list σ (between xs start stop) fun x hx =>
      blind_list.mp hv x (mem_of_mem_between hx)
    rwa [← between_turned] at hlist
  | tuple xs =>
    exact inStep_pure_of_eq (congrArg Value.tuple (between_turned xs start stop))
      (blind_tuple.mpr fun x hx => blind_tuple.mp hv x (mem_of_mem_between hx))
  | text | bytes => exact inStep_pure trivial
  | dict => exact inStep_fail _
  | type | nodeClass => exact inStep_fresh.then fun id => @echo_item σ _ (.foreign id "slice") hv trivial
  | _ => exact inStep_failOn .notSubscriptable _

/-! ## Elements -/

theorem turnedAll_foreignElements {kind : String} (h : foreignElements? kind = some xs) :
    turnedAll σ.own xs = xs := by
  unfold foreignElements? at h
  split at h
  · cases h
    rfl
  split at h
  · cases h
    exact turnedAll_byteValues "bytes"
  split at h
  · cases h
    rfl
  · cases h

theorem blind_foreignElements {kind : String} (h : foreignElements? kind = some xs) :
    ∀ x ∈ xs, x.Blind σ := by
  unfold foreignElements? at h
  split at h
  · cases h
    simp
  split at h
  · cases h
    exact blind_byteValues _
  split at h
  · cases h
    simp
  · cases h

theorem inStep_elements (hv : v.Blind σ) :
    InStep σ (fun xs => ∀ x ∈ xs, x.Blind σ) (turnedAll σ.own) (elements v)
      (elements (v.turned σ.own)) := by
  cases v with
  | text s => exact inStep_pure_of_eq (turnedAll_characters _).symm (blind_characters _)
  | bytes s => exact inStep_pure_of_eq (turnedAll_byteValues _).symm (blind_byteValues _)
  | list id xs => exact inStep_pure (blind_list.mp hv)
  | tuple xs => exact inStep_pure (blind_tuple.mp hv)
  | dict id es =>
    refine inStep_pure_of_eq (keys_turnedEntries es) fun x hx => ?_
    obtain ⟨e, he, rfl⟩ := List.mem_map.mp hx
    exact (blind_dict.mp hv e he).1
  | recorder => exact inStep_refuse _
  | foreign id kind =>
    have hnone := inStep_failOn (σ := σ) (Q := fun xs => ∀ x ∈ xs, x.Blind σ)
      (g := turnedAll σ.own) .notIterable (.foreign id kind)
    unfold elements
    dsimp only [Value.turned]
    cases hxs : foreignElements? kind with
    | none => exact hnone
    | some xs =>
      exact inStep_pure_of_eq (turnedAll_foreignElements hxs).symm (blind_foreignElements hxs)
  | _ => exact inStep_failOn .notIterable _

theorem echo_length (v : Value) : Echo σ (length v) (length (v.turned σ.own)) := by
  have hcount : ∀ m n : Nat, m = n → Echo σ (pure (.int n)) (pure (.int m)) := by
    rintro m _ rfl
    exact inStep_pure trivial
  cases v with
  | text | bytes => exact inStep_pure trivial
  | list id xs | tuple xs => exact hcount _ _ (length_turnedAll xs)
  | dict id es => exact hcount _ _ (length_turnedEntries es)
  | foreign id kind =>
    have hnone : Echo σ (failOn .noLength (.foreign id kind)) (failOn .noLength (.foreign id kind)) :=
      inStep_failOn .noLength (.foreign id kind)
    unfold length
    dsimp only [Value.turned]
    cases foreignElements? kind with
    | none => exact hnone
    | some xs => exact inStep_pure trivial
  | _ => exact inStep_failOn .noLength _

theorem inStep_pairEntries (index : Nat) (found : Entries Value Value)
    (hfound : ∀ e ∈ found, e.1.Blind σ ∧ e.2.Blind σ) (h : ∀ x ∈ xs, x.Blind σ) :
    InStep σ (fun es => ∀ e ∈ es, e.1.Blind σ ∧ e.2.Blind σ) (turnedEntries σ.own)
      (pairEntries index found xs)
      (pairEntries index (turnedEntries σ.own found) (turnedAll σ.own xs)) := by
  -- along the pairs; what was found so far stays turned round
  induction xs generalizing index found with
  | nil => exact inStep_pure hfound
  | cons x xs ih =>
    obtain ⟨hx, hrest⟩ := List.forall_mem_cons.mp h
    refine (inStep_elements hx).attempt.bind fun r hr => ?_
    rcases r with f | _ | ⟨key, _ | ⟨v, _ | ⟨more, rest⟩⟩⟩
    · exact inStep_fail _
    · exact inStep_fail _
    · exact inStep_fail _
    · obtain ⟨hkey, hvalue⟩ : _ ∧ _ := by simpa using hr _ rfl
      refine (agree_checkKey key).then fun _ => ?_
      rw [set_turned]
      exact ih _ _ (blind_set hfound hkey hvalue) hrest
    · have hcount : (turnedAll σ.own (key :: v :: more :: rest)).length
          = (key :: v :: more :: rest).length := length_turnedAll _
      change InStep σ _ _ _
        (fail (.entryLength index (turnedAll σ.own (key :: v :: more :: rest)).length))
      rw [hcount]
      exact inStep_fail _

theorem inStep_entriesOf (hv : v.Blind σ) :
    InStep σ (fun es => ∀ e ∈ es, e.1.Blind σ ∧ e.2.Blind σ) (turnedEntries σ.own) (entriesOf v)
      (entriesOf (v.turned σ.own)) := by
  have hpairs := (inStep_elements hv).bind fun xs hxs =>
    inStep_pairEntries 0 [] (by simp) hxs
  cases v with
  | dict id es => exact inStep_pure (blind_dict.mp hv)
  | recorder => exact inStep_failOn .notCallable _
  | _ => exact hpairs

end Build

/-! ## Texts with marks -/

/-- What marks are replaced by, where an argument is turned round in it. -/
def Supply.turned (own : Nat) (supply : Supply) : Supply :=
  { supply with whole := supply.whole.turned own, parts := supply.parts.map (turnedAll own) }

/-- What marks are replaced by is blind. -/
def Supply.Blind (σ : Outlook) (supply : Supply) : Prop :=
  supply.whole.Blind σ ∧ ∀ vs ∈ supply.parts, ∀ v ∈ vs, v.Blind σ

namespace Build

variable {supply : Supply} {v : Value}

theorem inStep_next (h : supply.Blind σ) :
    InStep σ (fun r => r.1.Blind σ ∧ r.2.Blind σ) (Prod.map (Value.turned σ.own) (Supply.turned σ.own))
      (Supply.next supply) (Supply.next (supply.turned σ.own)) := by
  obtain ⟨whole, parts, used⟩ := supply
  rcases parts with _ | _ | ⟨v, vs⟩
  · cases used with
    | true => exact inStep_fail _
    | false => exact inStep_pure ⟨h.1, h⟩
  · exact inStep_fail _
  · obtain ⟨hv, hvs⟩ := List.forall_mem_cons.mp (h.2 _ rfl)
    exact inStep_pure ⟨hv, h.1, fun us hus => Option.some.inj hus ▸ hvs⟩

theorem inStep_readNumber (what : MarkNumber) (h : supply.Blind σ) (cs : List Char) :
    InStep σ (fun r => r.2.1.Blind σ) (Prod.map id (Prod.map (Supply.turned σ.own) id))
      (readNumber what supply cs) (readNumber what (supply.turned σ.own) cs) := by
  unfold readNumber
  split
  · rename_i rest
    refine (inStep_next h).bind fun r hr => ?_
    obtain ⟨v, supply⟩ := r
    cases v with
    | bool | int => exact inStep_ite (fun _ => inStep_pure hr.2) fun _ => inStep_fail _
    | _ => exact inStep_fail _
  · dsimp only
    split
    · exact inStep_fail _
    · exact inStep_pure h

theorem inStep_readMark (h : supply.Blind σ) (cs : List Char) :
    InStep σ (fun r => r.2.1.Blind σ) (Prod.map id (Prod.map (Supply.turned σ.own) id))
      (readMark supply cs) (readMark (supply.turned σ.own) cs) := by
  unfold readMark
  dsimp only
  refine (inStep_readNumber _ h _).bind fun r hr => ?_
  obtain ⟨width, supply, rest⟩ := r
  dsimp only [Prod.map, id_eq]
  split
  · exact (inStep_readNumber _ hr _).bind fun _ hr => inStep_pure hr
  · exact inStep_pure hr

theorem agree_wholeOf (letter : Char) (v : Value) :
    Agree σ (wholeOf letter v) (wholeOf letter (v.turned σ.own)) := by
  have hwanted : ∀ what : String, Agree σ
      (failOn (fun type => Fault.stated .type ("%" ++ String.singleton letter ++ " format: " ++ what
        ++ " is required, not " ++ type)) v : Build Int)
      (failOn (fun type => Fault.stated .type ("%" ++ String.singleton letter ++ " format: " ++ what
        ++ " is required, not " ++ type)) (v.turned σ.own)) := fun what => inStep_failOn _ v
  cases v with
  | float x =>
    unfold wholeOf
    dsimp only [Value.turned]
    split
    · exact hwanted _
    · split
      · exact inStep_pure trivial
      · exact inStep_fail _
      · exact inStep_fail _
  | bool | int => exact inStep_pure trivial
  | _ => exact hwanted _

theorem agree_realOf (v : Value) : Agree σ (realOf v) (realOf (v.turned σ.own)) := by
  cases v with
  | float => exact inStep_pure trivial
  | bool | int =>
    unfold realOf
    dsimp only [Value.turned, Value.toInt?]
    split
    · exact inStep_pure trivial
    · exact inStep_fail _
  | _ => exact inStep_failOn .notReal _

theorem agree_characterOf (v : Value) : Agree σ (characterOf v) (characterOf (v.turned σ.own)) := by
  have hwhole : ∀ n : Int, Agree σ
      (if 0 ≤ n ∧ n < 0x110000 then pure (Char.ofNat n.toNat)
        else fail (.stated .overflow "%c arg not in range(0x110000)"))
      (if 0 ≤ n ∧ n < 0x110000 then pure (Char.ofNat n.toNat)
        else fail (.stated .overflow "%c arg not in range(0x110000)")) :=
    fun n => inStep_ite (fun _ => inStep_pure trivial) fun _ => inStep_fail _
  cases v with
  | text s =>
    unfold characterOf
    dsimp only [Value.turned]
    split
    · exact inStep_pure trivial
    · exact inStep_fail _
  | bool | int => exact hwhole _
  | _ => exact inStep_fail _

theorem agree_valueText (v : Value) : Agree σ (fromStore fun s => s.valueText v)
    (fromStore fun s => s.valueText (v.turned σ.own)) :=
  agree_fromStore fun s => s.valueText_turned v

theorem agree_valueDetail (v : Value) : Agree σ (fromStore fun s => s.valueDetail v)
    (fromStore fun s => s.valueDetail (v.turned σ.own)) :=
  agree_fromStore fun s => s.valueDetail_turned v

theorem agree_ofExcept {α : Type} (r : Except Fault α) : Agree σ (ofExcept r) (ofExcept r) :=
  inStep_ofExcept (id_map r).symm fun _ _ => trivial

theorem agree_written (m : Mark) (letter : Char) (place : Nat) (v : Value) :
    Agree σ (written m letter place v) (written m letter place (v.turned σ.own)) := by
  unfold written
  dsimp only
  split
  · exact inStep_fail _
  split
  case h_1 => exact (agree_valueText v).then fun _ => inStep_pure trivial
  case h_2 | h_3 => exact (agree_valueDetail v).then fun _ => inStep_pure trivial
  case h_4 => exact (agree_characterOf v).then fun _ => inStep_pure trivial
  case h_5 | h_6 | h_7 =>
    exact (agree_wholeOf _ v).then fun n => (agree_ofExcept (Whole.chars n)).then fun _ =>
      inStep_pure trivial
  case h_8 | h_9 | h_10 => exact (agree_wholeOf _ v).then fun _ => inStep_pure trivial
  case h_17 => exact inStep_fail _
  all_goals exact (agree_realOf v).then fun _ => inStep_pure trivial

theorem inStep_keyed (h : supply.Blind σ) (cs : List Char) :
    InStep σ (fun r => r.1.Blind σ) (Prod.map (Supply.turned σ.own) id) (keyed supply cs)
      (keyed (supply.turned σ.own) cs) := by
  unfold keyed
  split
  · rename_i rest
    obtain ⟨whole, parts, used⟩ := supply
    have hkeyed : ∀ key : List Char, ∀ rest : List Char,
        InStep σ (fun r => r.1.Blind σ) (Prod.map (Supply.turned σ.own) id)
          (do
            let v ← item whole (.text (String.ofList key))
            return ({ whole, parts := some [v], used := true }, rest))
          (do
            let v ← item (whole.turned σ.own) (.text (String.ofList key))
            return ({ whole := whole.turned σ.own, parts := some [v], used := true }, rest)) :=
      fun key rest => (@echo_item σ _ (.text (String.ofList key)) h.1 trivial).bind fun v hv =>
        inStep_pure ⟨h.1, fun vs hvs => Option.some.inj hvs ▸ List.forall_mem_singleton.mpr hv⟩
    cases whole with
    | text | tuple => exact inStep_fail _
    | dict | recorder | list | bytes =>
      dsimp only [Supply.turned, Value.turned]
      split
      · exact inStep_fail _
      · exact hkeyed _ _
    | _ =>
      dsimp only [Supply.turned, Value.turned]
      split <;> exact inStep_fail _
  · exact inStep_pure h

theorem inStep_replaceMarks (length fuel : Nat) (h : supply.Blind σ) (cs : List Char) :
    InStep σ (fun r => r.2.Blind σ) (Prod.map id (Supply.turned σ.own))
      (replaceMarks length fuel supply cs) (replaceMarks length fuel (supply.turned σ.own) cs) := by
  -- on the fuel; any mark may take from what is left of the supply
  induction fuel generalizing supply cs with
  | zero => exact inStep_pure h
  | succ fuel ih =>
    unfold replaceMarks
    split
    · exact inStep_pure h
    · exact (ih h _).bind fun r hr => inStep_pure hr
    · refine (inStep_keyed h _).bind fun r hr => (inStep_readMark hr _).bind fun r hr => ?_
      obtain ⟨m, supply, rest⟩ := r
      dsimp only [Prod.map, id_eq]
      split
      · exact inStep_fail _
      · refine (inStep_next hr).bind fun r hr => (agree_written _ _ _ _).then fun _ => ?_
        exact (ih hr.2 _).bind fun r hr => inStep_pure hr
    · exact (ih h _).bind fun r hr => inStep_pure hr

/-- A text that is formed with a value. -/
theorem echo_formatted (s : String) (hv : v.Blind σ) :
    Echo σ (formatted s v) (formatted s (v.turned σ.own)) := by
  have hleft : ∀ supply : Supply, isLeft (supply.turned σ.own) = isLeft supply := by
    rintro ⟨whole, parts, used⟩
    unfold isLeft
    simp only [Supply.turned, hasItems_turned]
    rcases parts with _ | _ | ⟨x, xs⟩ <;> rfl
  have hformatted : ∀ supply : Supply, supply.Blind σ → Echo σ
      (do
        let r ← replaceMarks s.toList.length (s.toList.length + 1) supply s.toList
        if isLeft r.2 then
          fail (.stated .type "not all arguments converted during string formatting")
        else return .text (String.ofList r.1))
      (do
        let r ← replaceMarks s.toList.length (s.toList.length + 1) (supply.turned σ.own) s.toList
        if isLeft r.2 then
          fail (.stated .type "not all arguments converted during string formatting")
        else return .text (String.ofList r.1)) := by
    intro supply hsupply
    refine (inStep_replaceMarks _ _ hsupply _).bind fun r _ => ?_
    dsimp only [Prod.map]
    rw [hleft]
    exact inStep_ite (fun _ => inStep_fail _) fun _ => inStep_pure trivial
  have hwhole := hformatted { whole := v, parts := none } ⟨hv, by simp⟩
  cases v with
  | tuple vs =>
    exact hformatted { whole := .tuple vs, parts := some vs }
      ⟨hv, fun us hus => Option.some.inj hus ▸ blind_tuple.mp hv⟩
  | _ => exact hwhole

end Build

end DraftSchema
