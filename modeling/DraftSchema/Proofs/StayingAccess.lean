import DraftSchema.Proofs.StayingDocument

/-!
# Reading parts within reach

Attributes, items, slices and elements of a value within reach are within reach; so is a text that is
formed with it. What cannot be read is a fault that stems from asking for it.
-/

namespace DraftSchema

variable {σ : Reach}

namespace Build

variable {s : Store} {v key : Value} {xs path : List Value} {name : String}

/-! ## Attributes -/

theorem stays_recorderAttribute (id : Nat) (h : ∀ x ∈ path, x.Within σ) (name : String) :
    (recorderAttribute id path name).Stays σ (·.Within σ) := by
  have hself : (Value.recorder id path).Within σ := Value.within_recorder.mpr h
  unfold recorderAttribute
  split
  · exact stays_pure (Value.within_tuple.mpr h)
  split
  · exact stays_pure trivial
  split
  · exact stays_pure (Value.within_tuple.mpr (by simp))
  split
  · exact stays_pure trivial
  split
  · exact stays_pure trivial
  split
  · exact stays_pure hself
  split
  · exact stays_plain rfl
  · exact stays_recorder (List.forall_mem_append.mpr ⟨h, by simp⟩)

theorem within_classOf (hv : v.Within σ) : (classOf s v).Within σ := by
  unfold classOf
  split
  · split
    · exact hv
    · trivial
  · trivial

theorem within_nodeAttribute {node : Node} (hnode : node.Within σ) {part : Value}
    (h : node.attribute? name = some part) : part.Within σ := by
  unfold Node.attribute? at h
  split at h
  · cases h
    exact hnode.1
  · split at h
    · obtain ⟨text, -, rfl⟩ := Option.map_eq_some_iff.mp h
      trivial
    · exact Value.within_of_get? hnode.2 h

/-- What can be read off a value by a name is within reach as it is. -/
theorem within_plainAttribute (hs : σ.rules → s.Within σ) (hv : v.Within σ) {part : Value}
    (h : plainAttribute? s v name = some part) : part.Within σ := by
  unfold plainAttribute? at h
  split at h
  · cases h
    exact within_classOf hv
  split at h
  · cases h
    exact hv
  split at h
  case h_1 => 
    refine Value.within_of_get? ?_ h
    simpa [comparisonAttributes] using hv
  case h_2 => 
    refine Value.within_of_get? ?_ h
    simpa [boundsAttributes] using hv
  case h_3 => 
    obtain ⟨node, hnode, hpart⟩ := Option.bind_eq_some_iff.mp h
    exact within_nodeAttribute (hs hv node (List.mem_of_getElem? hnode)) hpart
  case h_4 =>
    refine Value.within_of_get? ?_ h
    unfold regexAttributes
    split <;> simp
  case h_5 => exact Value.within_of_get? (by simp [intAttributes]) h
  case h_6 => exact Value.within_of_get? (by simp [intAttributes]) h
  case h_7 => exact Value.within_of_get? (by simp) h
  case h_8 => 
    unfold typeAttribute? at h
    split at h
    · obtain ⟨text, -, rfl⟩ := Option.map_eq_some_iff.mp h
      trivial
    · cases h
  case h_9 =>
    split at h
    · cases h
      exact hv
    · refine Value.within_of_get? ?_ h
      unfold classAttributes
      dsimp only
      split <;> simp
  case h_10 =>
    split at h
    · cases h
      trivial
    · cases h
  case h_11 => cases h

theorem stays_keptAttribute (hv : v.Within σ) (name : String) :
    (keptAttribute v name).Stays σ (·.Within σ) := by
  refine stays_store.bind fun s hs => ?_
  split
  · rename_i part hpart
    exact stays_pure (within_plainAttribute hs hv hpart)
  · exact stays_plain (s.isPlain_missing v name)

theorem stays_attr (hv : v.Within σ) (name : String) : (attr v name).Stays σ (·.Within σ) := by
  unfold attr
  split
  · exact stays_recorderAttribute _ (Value.within_recorder.mp hv) name
  · split
    · split
      · exact stays_refuse hv
      · exact stays_operand hv true
    split
    · exact stays_pure trivial
    split
    · exact stays_pure trivial
    split
    · exact stays_pure hv
    · exact stays_failOn (fun _ => rfl) _
  · split
    · exact stays_fresh.then fun _ => stays_pure trivial
    · exact stays_keptAttribute hv name
  · exact stays_keptAttribute hv name

/-! ## Items -/

theorem stays_checkKey (key : Value) : (checkKey key).Stays σ fun _ => True := by
  unfold checkKey
  split
  · exact stays_failOn (fun _ => rfl) _
  · exact stays_pure trivial

theorem mem_of_at? {α : Type} {xs : List α} {index : Int} {x : α} (h : at? xs index = some x) :
    x ∈ xs := by
  simp only [at?] at h
  generalize (if index < 0 then index + (xs.length : Int) else index) = position at h
  split at h
  · cases h
  · exact List.mem_of_getElem? h

theorem stays_itemAt (owner : String) (h : ∀ x ∈ xs, x.Within σ) (key : Value) :
    (itemAt owner xs key).Stays σ (·.Within σ) := by
  unfold itemAt
  split
  · exact stays_failOn (fun _ => rfl) key
  · split
    · rename_i x hx
      exact stays_pure (h x (mem_of_at? hx))
    · refine stays_plain ?_
      split <;> rfl

theorem stays_absentKey {α : Type} {Q : α → Prop} (key : Value) :
    (do fail (absentKey (← store) key) : Build α).Stays σ Q := by
  refine stays_store.bind fun s _ => stays_plain ?_
  unfold absentKey
  split <;> rfl

theorem stays_lookup {entries : Entries Value Value}
    (h : ∀ e ∈ entries, e.1.Within σ ∧ e.2.Within σ) (key : Value) :
    (lookup entries key).Stays σ (·.Within σ) := by
  refine (stays_checkKey key).then fun _ => ?_
  split
  · rename_i x hx
    exact stays_pure (Value.within_of_get? (fun e he => (h e he).2) hx)
  · exact stays_absentKey key

theorem forall_mem_characters {cs : List Char} :
    ∀ x ∈ cs.map fun c => Value.text (String.singleton c), x.Within σ := by
  simp

theorem forall_mem_byteValues {bytes : String} : ∀ x ∈ byteValues bytes, x.Within σ := by
  simp [byteValues]

theorem typeWithin_membersOf (hv : v.Within σ) : ∀ t ∈ Typing.membersOf v, Value.TypeWithin σ t := by
  unfold Typing.membersOf
  split
  · intro t ht
    obtain ⟨x, hx, rfl⟩ := List.mem_map.mp ht
    have hwithin := Value.within_tuple.mp hv x hx
    split <;> exact hwithin
  · exact List.forall_mem_singleton.mpr hv
  · exact List.forall_mem_singleton.mpr hv

theorem yields_subscript (s : Store) (t : TypeForm Value) (hkey : key.Within σ) :
    σ.Yields (·.Within σ) (Typing.subscript s t key) := by
  unfold Typing.subscript
  dsimp only
  split
  · split
    · exact Value.typesWithin_iff.mpr (typeWithin_membersOf hkey)
    · exact .plain rfl
  · exact .plain rfl
  · exact .plain rfl
  · exact .plain rfl
  · exact .plain rfl
  · exact (Reach.Yields.of_spellable (s.spellable_valueText _)).bind fun _ _ => .plain rfl

theorem stays_item (hv : v.Within σ) (hkey : key.Within σ) : (item v key).Stays σ (·.Within σ) := by
  unfold item
  split
  · split
    · exact stays_recorder (List.forall_mem_append.mpr ⟨Value.within_recorder.mp hv, by simp⟩)
    · exact (stays_typeName _).then fun _ => stays_refuse_selector rfl
  · exact stays_itemAt _ (Value.within_list.mp hv) key
  · exact stays_itemAt _ (Value.within_tuple.mp hv) key
  · exact stays_itemAt _ forall_mem_characters key
  · exact stays_itemAt _ forall_mem_byteValues key
  · exact stays_fresh.then fun _ => stays_lookup (Value.within_dict.mp hv) key
  · exact stays_fromStore fun s _ => yields_subscript s _ hkey
  · exact stays_plain rfl
  · exact stays_failOn (fun _ => rfl) _

theorem mem_of_mem_between {α : Type} {xs : List α} {start stop : Option Int} {x : α}
    (h : x ∈ between xs start stop) : x ∈ xs :=
  List.mem_of_mem_take (List.mem_of_mem_drop h)

theorem stays_slice (hv : v.Within σ) (start stop : Option Int) :
    (slice v start stop).Stays σ (·.Within σ) := by
  unfold slice
  split
  · exact stays_refuse_selector rfl
  · exact stays_list fun x hx => Value.within_list.mp hv x (mem_of_mem_between hx)
  · exact stays_pure (Value.within_tuple.mpr fun x hx =>
      Value.within_tuple.mp hv x (mem_of_mem_between hx))
  · exact stays_pure trivial
  · exact stays_pure trivial
  · exact stays_plain rfl
  · exact stays_fresh.then fun _ => stays_item hv trivial
  · exact stays_fresh.then fun _ => stays_item hv trivial
  · exact stays_failOn (fun _ => rfl) _

/-! ## Elements -/

theorem forall_mem_foreignElements {kind : String} (h : foreignElements? kind = some xs) :
    ∀ x ∈ xs, x.Within σ := by
  unfold foreignElements? at h
  split at h
  · cases h
    simp
  split at h
  · cases h
    exact forall_mem_byteValues
  split at h
  · cases h
    simp
  · cases h

theorem stays_elements (hv : v.Within σ) :
    (elements v).Stays σ fun xs => ∀ x ∈ xs, x.Within σ := by
  unfold elements
  split
  · exact stays_pure forall_mem_characters
  · exact stays_pure forall_mem_byteValues
  · exact stays_pure (Value.within_list.mp hv)
  · exact stays_pure (Value.within_tuple.mp hv)
  · refine stays_pure fun x hx => ?_
    obtain ⟨e, he, rfl⟩ := List.mem_map.mp hx
    exact (Value.within_dict.mp hv e he).1
  · exact stays_refuse_selector rfl
  · split
    · rename_i xs hxs
      exact stays_pure (forall_mem_foreignElements hxs)
    · exact stays_failOn (fun _ => rfl) _
  · exact stays_failOn (fun _ => rfl) _

theorem stays_length (v : Value) : (length v).Stays σ (·.Within σ) := by
  unfold Build.length
  split
  case h_6 =>
    split
    · exact stays_pure trivial
    · exact stays_failOn (fun _ => rfl) _
  case h_7 => exact stays_failOn (fun _ => rfl) _
  all_goals exact stays_pure trivial

theorem stays_pairEntries (index : Nat) {found : Entries Value Value}
    (hfound : ∀ e ∈ found, e.1.Within σ ∧ e.2.Within σ) (h : ∀ x ∈ xs, x.Within σ) :
    (pairEntries index found xs).Stays σ fun es => ∀ e ∈ es, e.1.Within σ ∧ e.2.Within σ := by
  -- along the pairs; what was found so far stays within reach
  induction xs generalizing index found with
  | nil => exact stays_pure hfound
  | cons x xs ih =>
    obtain ⟨hx, hrest⟩ := List.forall_mem_cons.mp h
    refine (stays_elements hx).attempt.bind fun r hr => ?_
    split
    · refine stays_fail ?_
      split
      · exact .plain rfl
      · exact hr
    · obtain ⟨hkey, hvalue⟩ : _ ∧ _ := by simpa [Reach.Yields] using hr
      exact (stays_checkKey _).then fun _ => ih _ (Value.entries_set hfound hkey hvalue) hrest
    · exact stays_plain rfl

theorem stays_entriesOf (hv : v.Within σ) :
    (entriesOf v).Stays σ fun es => ∀ e ∈ es, e.1.Within σ ∧ e.2.Within σ := by
  unfold entriesOf
  split
  · exact stays_pure (Value.within_dict.mp hv)
  · exact stays_failOn (fun _ => rfl) _
  · exact (stays_elements hv).bind fun xs hxs => stays_pairEntries 0 (by simp) hxs

end Build

/-! ## Texts with marks -/

/-- What marks are replaced by is within reach. -/
def Supply.Within (σ : Reach) (supply : Supply) : Prop :=
  supply.whole.Within σ ∧ ∀ vs ∈ supply.parts, ∀ v ∈ vs, v.Within σ

namespace Build

variable {supply : Supply} {v : Value}

theorem stays_next (h : supply.Within σ) :
    (Supply.next supply).Stays σ fun r => r.1.Within σ ∧ r.2.Within σ := by
  unfold Supply.next
  dsimp only
  split
  · rename_i v vs hparts
    obtain ⟨hv, hvs⟩ := List.forall_mem_cons.mp (h.2 _ hparts)
    exact stays_pure ⟨hv, h.1, fun us hus => Option.some.inj hus ▸ hvs⟩
  · exact stays_plain rfl
  · split
    · exact stays_plain rfl
    · exact stays_pure ⟨h.1, h⟩

theorem stays_readNumber (what : MarkNumber) (h : supply.Within σ) (cs : List Char) :
    (readNumber what supply cs).Stays σ fun r => r.2.1.Within σ := by
  unfold readNumber
  split
  · refine (stays_next h).bind fun r hr => ?_
    dsimp only
    split
    · exact stays_plain rfl
    · split
      · exact stays_plain rfl
      · split
        · exact stays_pure hr.2
        · exact stays_plain rfl
  · dsimp only
    split
    · exact stays_plain rfl
    · exact stays_pure h

theorem stays_readMark (h : supply.Within σ) (cs : List Char) :
    (readMark supply cs).Stays σ fun r => r.2.1.Within σ := by
  unfold readMark
  dsimp only
  refine (stays_readNumber _ h _).bind fun r hr => ?_
  split
  · exact (stays_readNumber _ hr _).bind fun _ hr => stays_pure hr
  · exact stays_pure hr

theorem stays_wholeOf (letter : Char) (v : Value) : (wholeOf letter v).Stays σ fun _ => True := by
  unfold wholeOf
  dsimp only
  split
  · split
    · exact stays_failOn (fun _ => rfl) _
    · split
      · exact stays_pure trivial
      · exact stays_plain rfl
      · exact stays_plain rfl
  · split
    · exact stays_pure trivial
    · exact stays_failOn (fun _ => rfl) _

theorem stays_realOf (v : Value) : (realOf v).Stays σ fun _ => True := by
  unfold realOf
  split
  · exact stays_pure trivial
  · split
    · exact stays_failOn (fun _ => rfl) _
    · split
      · exact stays_pure trivial
      · exact stays_plain rfl

theorem stays_characterOf (v : Value) : (characterOf v).Stays σ fun _ => True := by
  unfold characterOf
  split
  · split
    · exact stays_pure trivial
    · exact stays_plain rfl
  · split
    · split
      · exact stays_pure trivial
      · exact stays_plain rfl
    · exact stays_plain rfl

/-- A text that is formed from a value. -/
theorem stays_spellable {endless : Store → Prop} {g : Store → Except Fault String}
    (h : ∀ s, Spellable (endless s) (g s)) :
    (fromStore g).Stays σ fun _ => True :=
  stays_fromStore fun s _ => .of_spellable (h s)

theorem stays_valueText (v : Value) : (fromStore fun s => s.valueText v).Stays σ fun _ => True :=
  stays_spellable fun s => s.spellable_valueText v

theorem stays_valueDetail (v : Value) :
    (fromStore fun s => s.valueDetail v).Stays σ fun _ => True :=
  stays_spellable fun s => s.spellable_valueDetail v

theorem stays_written (m : Mark) (letter : Char) (place : Nat) (v : Value) :
    (written m letter place v).Stays σ fun _ => True := by
  unfold written
  dsimp only
  split
  · exact stays_plain_bind rfl _
  split
  case h_1 => exact (stays_valueText v).then fun _ => stays_pure trivial
  case h_2 | h_3 => exact (stays_valueDetail v).then fun _ => stays_pure trivial
  case h_4 => exact (stays_characterOf v).then fun _ => stays_pure trivial
  case h_5 | h_6 | h_7 =>
    refine (stays_wholeOf _ v).then fun n => ?_
    exact (stays_ofExcept (.of_spellable (spellable_chars False n))).then fun _ => stays_pure trivial
  case h_8 | h_9 | h_10 => exact (stays_wholeOf _ v).then fun _ => stays_pure trivial
  case h_17 => exact stays_plain rfl
  all_goals exact (stays_realOf v).then fun _ => stays_pure trivial

theorem stays_keyed (h : supply.Within σ) (cs : List Char) :
    (keyed supply cs).Stays σ fun r => r.1.Within σ := by
  unfold keyed
  split
  · split
    · exact stays_plain rfl
    · exact stays_plain rfl
    · split
      · exact stays_plain rfl
      · split
        case h_5 => exact stays_plain rfl
        all_goals
          refine (stays_item h.1 (Value.within_text _)).bind fun v hv => stays_pure ⟨h.1, ?_⟩
          exact fun vs hvs => Option.some.inj hvs ▸ List.forall_mem_singleton.mpr hv
  · exact stays_pure h

theorem stays_replaceMarks (length fuel : Nat) (h : supply.Within σ) (cs : List Char) :
    (replaceMarks length fuel supply cs).Stays σ fun r => r.2.Within σ := by
  -- on the fuel; what is left of the supply stays within reach, so that any mark may take from it
  induction fuel generalizing supply cs with
  | zero => exact stays_pure h
  | succ fuel ih =>
    unfold replaceMarks
    split
    · exact stays_pure h
    · exact (ih h _).bind fun r hr => stays_pure hr
    · refine (stays_keyed h _).bind fun r hr => (stays_readMark hr _).bind fun r hr => ?_
      dsimp only
      split
      · exact stays_plain rfl
      · refine (stays_next hr).bind fun r hr => (stays_written _ _ _ _).then fun _ => ?_
        exact (ih hr.2 _).bind fun r hr => stays_pure hr
    · exact (ih h _).bind fun r hr => stays_pure hr

/-- A text that is formed with a value. -/
theorem stays_formatted (s : String) : v.Within σ → (formatted s v).Stays σ (·.Within σ) := by
  intro hv
  unfold formatted
  dsimp only
  refine (stays_replaceMarks _ _ ?_ _).bind fun r _ => ?_
  · split
    · exact ⟨hv, fun us hus => Option.some.inj hus ▸ Value.within_tuple.mp hv⟩
    · exact ⟨hv, fun us hus => by cases hus⟩
  split
  · exact stays_plain rfl
  · exact stays_pure trivial

end Build

end DraftSchema
