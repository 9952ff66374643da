import DraftSchema.Proofs.StayingOperation
import DraftSchema.Proofs.Tree

/-!
# Methods within reach

The operations that texts, numbers, lists and mappings have under names of their own, and those behind
signs. What changes a list or a mapping puts nothing into it that was not within reach, so the
workspace stays there wherever the object is held.
-/

namespace DraftSchema

variable {σ : Reach}

namespace Build

variable {v w : Value} {xs args : List Value} {es : Entries Value Value}

/-! ## Texts -/

theorem stays_countOf (v : Value) : (countOf v).Stays σ fun _ => True := by
  unfold countOf
  split
  · split
    · exact stays_pure trivial
    · exact stays_plain rfl
  · exact stays_failOn (fun _ => rfl) _

theorem stays_limitOf (limit : Option Value) : (limitOf limit).Stays σ fun _ => True := by
  unfold limitOf
  split
  · exact stays_pure trivial
  · exact (stays_countOf _).then fun _ => stays_pure trivial

theorem stays_positionOf (length absent : Nat) {refused : Fault} (h : refused.isPlain = true)
    (position : Option Value) :
    (positionOf length absent refused position).Stays σ fun _ => True := by
  unfold positionOf
  split
  · exact stays_pure trivial
  · split
    · exact stays_pure trivial
    · exact stays_plain h

theorem stays_window (cs : List Char) (args : List Value) :
    (window cs args).Stays σ fun _ => True :=
  (stays_positionOf _ _ rfl _).then fun _ => (stays_positionOf _ _ rfl _).then fun _ =>
    stays_pure trivial

theorem stays_charsOf {refused : String → Fault} (h : ∀ type, (refused type).isPlain = true)
    (v : Value) : (charsOf refused v).Stays σ fun _ => True := by
  unfold charsOf
  split
  · exact stays_pure trivial
  · exact stays_failOn h _

theorem stays_namedChars (argument : String) (v : Value) :
    (namedChars argument v).Stays σ fun _ => True := by
  unfold namedChars
  dsimp only
  split
  · exact stays_plain rfl
  · exact stays_charsOf (fun _ => rfl) _

theorem stays_placeIn (place? : List Char → List Char → Option Nat) (cs : List Char)
    (part : Value) (args : List Value) : (placeIn place? cs part args).Stays σ fun _ => True :=
  (stays_window cs args).then fun _ => (stays_charsOf (fun _ => rfl) part).then fun _ =>
    stays_pure trivial

theorem within_found (place : Option Nat) : (found place).Within σ := by
  cases place <;> trivial

theorem stays_needed (place : Option Nat) : (needed place).Stays σ (·.Within σ) := by
  cases place with
  | none => exact stays_plain rfl
  | some n => exact stays_pure trivial

theorem stays_countIn (cs : List Char) (part : Value) (args : List Value) :
    (countIn cs part args).Stays σ (·.Within σ) :=
  (stays_window cs args).then fun _ => (stays_charsOf (fun _ => rfl) part).then fun _ =>
    stays_pure trivial

theorem stays_hasOneOf (name : String) (at? : List Char → List Char → Bool) (cs : List Char)
    (parts : List Value) : (hasOneOf name at? cs parts).Stays σ fun _ => True := by
  induction parts with
  | nil => exact stays_pure trivial
  | cons v vs ih =>
    refine (stays_charsOf (fun _ => rfl) v).then fun part => ?_
    split
    · exact stays_pure trivial
    · exact ih

theorem stays_hasAtEnd (name : String) (at? : List Char → List Char → Bool) (cs : List Char)
    (part : Value) (args : List Value) :
    (hasAtEnd name at? cs part args).Stays σ (·.Within σ) := by
  refine (stays_window cs args).then fun chosen => ?_
  dsimp only
  split
  · exact (stays_hasOneOf _ _ _ _).then fun _ => stays_pure trivial
  · exact (stays_charsOf (fun _ => rfl) _).then fun _ => stays_pure trivial

theorem stays_droppedBy (name : String) (chars : Option Value) :
    (droppedBy name chars).Stays σ fun _ => True := by
  unfold droppedBy
  split
  · exact stays_pure trivial
  · exact stays_pure trivial
  · exact stays_plain rfl

theorem forall_mem_textValues {css : List (List Char)} :
    ∀ x ∈ css.map textValue, x.Within σ := by
  simp [textValue]

theorem stays_pieces (back : Bool) (cs : List Char) (args : List Value) :
    (pieces back cs args).Stays σ (·.Within σ) := by
  refine (stays_limitOf _).then fun limit => ?_
  split
  · exact stays_list forall_mem_textValues
  · refine (stays_charsOf (fun _ => rfl) _).then fun part => ?_
    split
    · exact stays_plain rfl
    · exact stays_list forall_mem_textValues

theorem stays_partition (back : Bool) (cs : List Char) (part : Value) :
    (partition back cs part).Stays σ (·.Within σ) := by
  refine (stays_charsOf (fun _ => rfl) part).then fun part => ?_
  dsimp only
  split
  · exact stays_plain_bind rfl _
  split
  · exact stays_pure (Value.within_tuple.mpr (by simp [textValue]))
  · refine stays_pure (Value.within_tuple.mpr ?_)
    split <;> simp [textValue]

theorem stays_replaced (cs : List Char) (part new : Value) (limit : Option Value) :
    (replaced cs part new limit).Stays σ (·.Within σ) :=
  (stays_namedChars _ part).then fun _ => (stays_namedChars _ new).then fun _ =>
    (stays_limitOf limit).then fun _ => stays_pure trivial

theorem stays_trimmed (name : String) (at? : List Char → List Char → Bool)
    (cut : Nat → List Char → List Char) (cs : List Char) (part : Value) :
    (trimmed name at? cut cs part).Stays σ (·.Within σ) :=
  (stays_namedChars _ part).then fun _ => stays_pure trivial

theorem stays_textsOf (index : Nat) (vs : List Value) :
    (textsOf index vs).Stays σ fun _ => True := by
  induction vs generalizing index with
  | nil => exact stays_pure trivial
  | cons v vs ih =>
    exact (stays_charsOf (fun _ => rfl) v).then fun _ => (ih _).then fun _ => stays_pure trivial

theorem stays_joined (cs : List Char) (hv : v.Within σ) :
    (joined cs v).Stays σ (·.Within σ) := by
  refine (stays_elements hv).attempt.bind fun r hr => ?_
  split
  · refine stays_fail ?_
    split
    · exact .plain rfl
    · exact hr
  · exact (stays_textsOf 0 _).then fun _ => stays_pure trivial

theorem stays_wanting (cs : List Char) (width : Value) :
    (wanting cs width).Stays σ fun _ => True := by
  refine (stays_countOf width).then fun width => ?_
  dsimp only
  split
  · exact stays_plain_bind rfl _
  · exact stays_pure trivial

theorem stays_fillerOf (filler : Option Value) : (fillerOf filler).Stays σ fun _ => True := by
  unfold fillerOf
  split
  · exact stays_pure trivial
  · split
    · exact stays_pure trivial
    · exact stays_plain rfl
  · exact stays_failOn (fun _ => rfl) _

theorem stays_filled (before : Nat → Nat) (cs : List Char) (width : Value)
    (filler : Option Value) : (filled before cs width filler).Stays σ (·.Within σ) :=
  (stays_wanting cs width).then fun _ => (stays_fillerOf filler).then fun _ => stays_pure trivial

theorem stays_zeroFilled (cs : List Char) (width : Value) :
    (zeroFilled cs width).Stays σ (·.Within σ) := by
  refine (stays_wanting cs width).then fun n => ?_
  dsimp only
  split <;> exact stays_pure trivial

theorem stays_applyText (cs : List Char) (name : String) (h : ∀ x ∈ args, x.Within σ) :
    (applyText cs name args).Stays σ (·.Within σ) := by
  unfold applyText
  split
  -- the methods before and `encode` take nothing and make a text or an answer
  case h_19 => exact stays_countIn _ _ _
  case h_20 | h_21 => exact (stays_placeIn _ _ _ _).map fun place _ => within_found place
  case h_22 | h_23 => exact (stays_placeIn _ _ _ _).then fun place => stays_needed place
  case h_24 | h_25 => exact stays_hasAtEnd _ _ _ _ _
  case h_26 | h_27 | h_28 => exact (stays_droppedBy _ _).then fun _ => stays_pure trivial
  case h_29 | h_30 => exact stays_pieces _ _ _
  case h_31 | h_32 => exact stays_partition _ _ _
  case h_33 => exact stays_replaced _ _ _ _
  case h_34 | h_35 => exact stays_trimmed _ _ _ _ _
  case h_36 => exact stays_joined _ (h _ List.mem_cons_self)
  case h_37 => exact stays_zeroFilled _ _
  case h_38 | h_39 => exact stays_filled _ _ _ _
  case h_40 => exact (stays_countOf _).then fun _ => stays_filled _ _ _ _
  case h_42 => exact stays_plain rfl
  all_goals exact stays_pure trivial

/-! ## Numbers -/

theorem stays_applyWhole (n : Int) (name : String) (args : List Value) :
    (applyWhole n name args).Stays σ (·.Within σ) := by
  unfold applyWhole
  split
  case h_4 => exact stays_pure (Value.within_tuple.mpr (by simp))
  case h_5 => exact stays_plain rfl
  all_goals exact stays_pure trivial

theorem stays_quotientOf (x : Binary64) : (quotientOf x).Stays σ (·.Within σ) := by
  unfold quotientOf
  split
  · exact stays_pure (Value.within_tuple.mpr (by simp))
  · exact stays_plain rfl
  · exact stays_plain rfl

theorem stays_applyReal (x : Binary64) (name : String) (args : List Value) :
    (applyReal x name args).Stays σ (·.Within σ) := by
  unfold applyReal
  split
  · exact stays_pure trivial
  · exact stays_pure trivial
  · exact stays_quotientOf x
  · exact stays_plain rfl

theorem stays_roundedTo (round : Rat → Int) (v : Value) :
    (roundedTo round v).Stays σ (·.Within σ) := by
  unfold roundedTo
  split
  · split
    · exact stays_pure trivial
    · exact stays_plain rfl
    · exact stays_plain rfl
  · exact stays_pure trivial

/-! ## Sequences -/

theorem stays_isElement {x : Value} (hv : v.Within σ) (hx : x.Within σ) :
    (isElement v x).Stays σ fun _ => True := by
  unfold isElement
  split
  · exact stays_pure trivial
  · exact (stays_compare .eq hx hv).bind fun _ h => stays_truth h

theorem stays_countAmong (hv : v.Within σ) (h : ∀ x ∈ xs, x.Within σ) :
    (countAmong v xs).Stays σ fun _ => True := by
  induction xs with
  | nil => exact stays_pure trivial
  | cons x xs ih =>
    obtain ⟨hx, hrest⟩ := List.forall_mem_cons.mp h
    exact (stays_isElement hv hx).then fun _ => (ih hrest).then fun _ => stays_pure trivial

theorem stays_indexAmong (hv : v.Within σ) (h : ∀ x ∈ xs, x.Within σ) :
    (indexAmong v xs).Stays σ fun _ => True := by
  induction xs with
  | nil => exact stays_pure trivial
  | cons x xs ih =>
    obtain ⟨hx, hrest⟩ := List.forall_mem_cons.mp h
    refine (stays_isElement hv hx).then fun here => ?_
    split
    · exact stays_pure trivial
    · exact (ih hrest).then fun _ => stays_pure trivial

theorem stays_indexOf (h : ∀ x ∈ xs, x.Within σ) (hv : v.Within σ) (args : List Value)
    {absent : Build Fault} (habsent : absent.Stays σ σ.Allows) :
    (indexOf xs v args absent).Stays σ (·.Within σ) := by
  refine (stays_positionOf _ _ rfl _).then fun first =>
    (stays_positionOf _ _ rfl _).then fun last => ?_
  have hpart : ∀ x ∈ (xs.take last).drop first, x.Within σ := fun x hx =>
    h x (List.mem_of_mem_take (List.mem_of_mem_drop hx))
  refine (stays_indexAmong hv hpart).then fun place => ?_
  split
  · exact stays_pure trivial
  · exact habsent.bind fun f hf => stays_fail hf

theorem stays_applyTuple (h : ∀ x ∈ xs, x.Within σ) (name : String)
    (hargs : ∀ x ∈ args, x.Within σ) : (applyTuple xs name args).Stays σ (·.Within σ) := by
  unfold applyTuple
  split
  · exact (stays_countAmong (hargs _ List.mem_cons_self) h).then fun _ => stays_pure trivial
  · exact stays_indexOf h (hargs _ List.mem_cons_self) _ (stays_pure (.plain rfl))
  · exact stays_plain rfl

end Build

/-! ## Changes -/

section

variable {f : Value → Value} (hf : ∀ v : Value, v.Within σ → (f v).Within σ)

include hf

theorem within_map_part {part : Option Value} (h : ∀ v ∈ part, v.Within σ) :
    ∀ v ∈ part.map f, v.Within σ := by
  intro v hv
  obtain ⟨u, hu, rfl⟩ := Option.map_eq_some_iff.mp hv
  exact hf u (h u hu)

theorem within_map_list {part : Option (List Value)} (h : ∀ xs ∈ part, ∀ x ∈ xs, x.Within σ) :
    ∀ xs ∈ part.map (·.map f), ∀ x ∈ xs, x.Within σ := by
  intro xs hxs x hx
  obtain ⟨ys, hys, rfl⟩ := Option.map_eq_some_iff.mp hxs
  obtain ⟨y, hy, rfl⟩ := List.mem_map.mp hx
  exact hf y (h ys hys y hy)

theorem Rule.within_mapValues {rule : Rule} (h : ∀ e ∈ rule.attributes, e.2.Within σ) :
    ∀ e ∈ (rule.mapValues f).attributes, e.2.Within σ := by
  cases rule with
  | string r =>
    simp only [Rule.attributes, Rule.mapValues, StringRule.attributes, List.forall_mem_cons,
      within_partValue, within_listValue] at h ⊢
    obtain ⟨hformat, hpattern, hleast, hmost, hallowed, hnil⟩ := h
    exact ⟨within_map_part hf hformat, within_map_part hf hpattern, within_map_part hf hleast,
      within_map_part hf hmost, within_map_list hf hallowed, hnil⟩
  | number r =>
    simp only [Rule.attributes, Rule.mapValues, NumberRule.attributes, List.forall_mem_cons,
      within_partValue] at h ⊢
    obtain ⟨hmultiple, hmin, hmax, hminExclusive, hmaxExclusive, hnil⟩ := h
    exact ⟨within_map_part hf hmultiple, within_map_part hf hmin, within_map_part hf hmax,
      within_map_part hf hminExclusive, within_map_part hf hmaxExclusive, hnil⟩
  | boolean allowed =>
    simp only [Rule.attributes, Rule.mapValues, List.forall_mem_cons, within_listValue] at h ⊢
    exact ⟨within_map_list hf h.1, h.2⟩
  | array r =>
    simp only [Rule.attributes, Rule.mapValues, ArrayRule.attributes, List.forall_mem_cons,
      within_partValue] at h ⊢
    obtain ⟨hleast, hmost, hunique, hitems, hadditional, hrest⟩ := h
    exact ⟨within_map_part hf hleast, within_map_part hf hmost, within_map_part hf hunique, hitems,
      within_map_part hf hadditional, hrest⟩
  | object r =>
    obtain ⟨hproperties, hrequired, hadditional, hmodel⟩ := ObjectRule.within_attributes.mp h
    refine ObjectRule.within_attributes.mpr ⟨List.forall_mem_map.mpr fun e he => ?_,
      List.forall_mem_map.mpr fun v hv => hf v (hrequired v hv), within_map_part hf hadditional,
      fun hkind => hf _ (hmodel hkind)⟩
    exact ⟨(hproperties e he).1, hf _ (hproperties e he).2⟩
  | combinator kind children => exact h
  | negation child => exact h

end

/-- A change of lists and mappings keeps a workspace within reach. -/
theorem Workspace.within_mapValues {onList : Nat → List Value → List Value}
    {onDict : Nat → Entries Value Value → Entries Value Value}
    (hk : Value.Keeping σ onList onDict) {w : Workspace} (hw : w.Within σ) :
    (w.mapValues (Value.mapObjects onList onDict)).Within σ := by
  have hf := Value.within_mapObjects hk
  constructor
  · intro name v hname hv
    have hget := Entries.get?_map
      (fun v : Variable => { v with value := v.value.mapObjects onList onDict }) w.vars name
    obtain ⟨u, hu, rfl⟩ := Option.map_eq_some_iff.mp (hget.symm.trans hv)
    exact hf _ (hw.vars name u hname hu)
  · intro hrules node hnode
    obtain ⟨n, hn, rfl⟩ := List.mem_map.mp hnode
    have hold := hw.store hrules n hn
    exact ⟨hf _ hold.1, Rule.within_mapValues hf hold.2⟩

namespace Build

variable {v w : Value} {xs args : List Value} {es : Entries Value Value}

theorem stays_refill (id : Nat) (h : ∀ x ∈ xs, x.Within σ) :
    (refill id xs).Stays σ fun _ => True := by
  refine fun w hw => ⟨trivial, Workspace.within_mapValues ⟨fun i ys hys => ?_, fun _ _ h => h⟩ hw⟩
  split
  · exact h
  · exact hys

theorem stays_remap (id : Nat) (h : ∀ e ∈ es, e.1.Within σ ∧ e.2.Within σ) :
    (remap id es).Stays σ fun _ => True := by
  refine fun w hw => ⟨trivial, Workspace.within_mapValues ⟨fun _ _ h => h, fun i ds hds => ?_⟩ hw⟩
  split
  · exact h
  · exact hds

theorem stays_changed (id : Nat) (h : ∀ x ∈ xs, x.Within σ) :
    (changed id xs).Stays σ (·.Within σ) :=
  (stays_refill id h).then fun _ => stays_pure trivial

theorem stays_changedEntries (id : Nat) (h : ∀ e ∈ es, e.1.Within σ ∧ e.2.Within σ) :
    (changedEntries id es).Stays σ (·.Within σ) :=
  (stays_remap id h).then fun _ => stays_pure trivial

/-! ## Lists -/

theorem stays_takeOut (id : Nat) (h : ∀ x ∈ xs, x.Within σ) (position : Option Value) :
    (takeOut id xs position).Stays σ (·.Within σ) := by
  have hindex : (position.elim (pure (-1)) countOf : Build Int).Stays σ fun _ => True := by
    cases position with
    | none => exact stays_pure trivial
    | some v => exact stays_countOf v
  refine hindex.then fun index => ?_
  dsimp only
  split
  · exact stays_plain_bind rfl _
  split
  · exact stays_plain rfl
  · rename_i v hv
    exact (stays_refill id fun x hx => h x (List.mem_of_mem_eraseIdx hx)).then fun _ =>
      stays_pure (h v (mem_of_at? hv))

section

variable {s : Store} (hs : σ.rules → s.Within σ)

include hs

theorem yields_runAfter (falling : Bool) {last : Value} (hlast : last.Within σ)
    (h : ∀ x ∈ xs, x.Within σ) : σ.Yields (fun r => (∀ x ∈ r.1, x.Within σ) ∧ ∀ x ∈ r.2, x.Within σ)
      (runAfter s falling last xs) := by
  -- along the list, with the element that the next one is compared to
  induction xs generalizing last with
  | nil => exact ⟨List.forall_mem_nil _, List.forall_mem_nil _⟩
  | cons x xs ih =>
    obtain ⟨hx, hrest⟩ := List.forall_mem_cons.mp h
    refine (yields_ordered hs .lt x last hx hlast).bind fun t _ => ?_
    split
    · refine (ih hx hrest).bind fun r hr => ⟨List.forall_mem_cons.mpr ⟨hx, hr.1⟩, hr.2⟩
    · exact ⟨List.forall_mem_nil _, h⟩

theorem yields_placeAmong (h : ∀ x ∈ xs, x.Within σ) (hv : v.Within σ) (fuel first last : Nat) :
    σ.Yields (fun _ => True) (placeAmong s xs v fuel first last) := by
  -- on the fuel; a place outside the list is read as an element within reach, so no bounds are needed
  induction fuel generalizing first last with
  | zero => trivial
  | succ fuel ih =>
    unfold placeAmong
    split
    · have hmiddle : ∀ n, (xs.getD n .null).Within σ := by
        intro n
        rw [List.getD_eq_getElem?_getD]
        cases hn : xs[n]? with
        | none => trivial
        | some x => exact h x (List.mem_of_getElem? hn)
      refine (yields_ordered hs .lt _ _ hv (hmiddle _)).bind fun t _ => ?_
      split
      · exact ih _ _
      · exact ih _ _
    · trivial

theorem yields_insertAll {sorted : List Value} (hsorted : ∀ x ∈ sorted, x.Within σ)
    (h : ∀ x ∈ xs, x.Within σ) :
    σ.Yields (fun r => ∀ x ∈ r, x.Within σ) (insertAll s sorted xs) := by
  induction xs generalizing sorted with
  | nil => exact hsorted
  | cons x xs ih =>
    obtain ⟨hx, hrest⟩ := List.forall_mem_cons.mp h
    refine (yields_placeAmong hs hsorted hx _ _ _).bind fun n _ => ih ?_ hrest
    refine List.forall_mem_append.mpr ⟨fun y hy => hsorted y (List.mem_of_mem_take hy), ?_⟩
    exact List.forall_mem_cons.mpr ⟨hx, fun y hy => hsorted y (List.mem_of_mem_drop hy)⟩

theorem yields_sorted (h : ∀ x ∈ xs, x.Within σ) :
    σ.Yields (fun r => ∀ x ∈ r, x.Within σ) (sorted s xs) := by
  unfold sorted
  split
  · rename_i x y rest
    obtain ⟨hx, hrest⟩ := List.forall_mem_cons.mp h
    obtain ⟨hy, hrest⟩ := List.forall_mem_cons.mp hrest
    refine (yields_ordered hs .lt y x hy hx).bind fun falling _ =>
      (yields_runAfter hs falling hy hrest).bind fun r hr => yields_insertAll hs ?_ hr.2
    have hrun : ∀ z ∈ x :: y :: r.1, z.Within σ :=
      List.forall_mem_cons.mpr ⟨hx, List.forall_mem_cons.mpr ⟨hy, hr.1⟩⟩
    split
    · exact fun z hz => hrun z (List.mem_reverse.mp hz)
    · exact hrun
  · exact h

end

theorem stays_applyList (id : Nat) (h : ∀ x ∈ xs, x.Within σ) (name : String)
    (hargs : ∀ x ∈ args, x.Within σ) : (applyList id xs name args).Stays σ (·.Within σ) := by
  unfold applyList
  split
  · exact (stays_countAmong (hargs _ List.mem_cons_self) h).then fun _ => stays_pure trivial
  · exact stays_indexOf h (hargs _ List.mem_cons_self) _
      ((stays_valueDetail _).then fun _ => stays_pure (.plain rfl))
  · exact stays_list h
  · exact stays_changed id (List.forall_mem_append.mpr ⟨h, hargs⟩)
  · exact (stays_elements (hargs _ List.mem_cons_self)).bind fun ys hys =>
      stays_changed id (List.forall_mem_append.mpr ⟨h, hys⟩)
  · rename_i index v
    refine (stays_countOf index).then fun n => stays_changed id ?_
    refine List.forall_mem_append.mpr ⟨fun x hx => h x (List.mem_of_mem_take hx), ?_⟩
    exact List.forall_mem_cons.mpr
      ⟨hargs v (by simp), fun x hx => h x (List.mem_of_mem_drop hx)⟩
  · exact stays_takeOut id h _
  · refine (stays_indexAmong (hargs _ List.mem_cons_self) h).then fun place => ?_
    split
    · exact stays_changed id fun x hx => h x (List.mem_of_mem_eraseIdx hx)
    · exact stays_plain rfl
  · exact stays_changed id fun x hx => h x (List.mem_reverse.mp hx)
  · exact stays_changed id (List.forall_mem_nil _)
  · exact (stays_fromStore fun s hs => yields_sorted hs h).bind fun ys hys => stays_changed id hys
  · exact stays_plain rfl

/-! ## Mappings -/

theorem forall_mem_fst (h : ∀ e ∈ es, e.1.Within σ ∧ e.2.Within σ) :
    ∀ x ∈ es.map Prod.fst, x.Within σ :=
  List.forall_mem_map.mpr fun e he => (h e he).1

theorem within_head (h : ∀ x ∈ args, x.Within σ) : (args.head?.getD .null).Within σ := by
  cases args with
  | nil => trivial
  | cons x xs => exact h x List.mem_cons_self

theorem stays_takeEntry (id : Nat) (h : ∀ e ∈ es, e.1.Within σ ∧ e.2.Within σ) (key : Value)
    {absent : Option Value} : (∀ v ∈ absent, v.Within σ) →
      (takeEntry id es key absent).Stays σ (·.Within σ) := by
  intro habsent
  unfold takeEntry
  dsimp only
  split
  -- nothing is asked of the key where there are no entries
  on_goal 1 => refine (stays_checkKey key).then fun _ => ?_
  all_goals
    split
    · rename_i v hv
      exact (stays_remap id fun e he => h e (Value.mem_of_mem_erase he)).then fun _ =>
        stays_pure (Value.within_of_get? (fun e he => (h e he).2) hv)
    · exact stays_pure (habsent _ rfl)
    · exact stays_absentKey key

theorem stays_applyMapping (id : Nat) (h : ∀ e ∈ es, e.1.Within σ ∧ e.2.Within σ) (name : String)
    (hargs : ∀ x ∈ args, x.Within σ) : (applyMapping id es name args).Stays σ (·.Within σ) := by
  unfold applyMapping
  split
  case h_1 key more =>
    refine (stays_checkKey key).then fun _ => stays_pure ?_
    cases hget : es.get? key with
    | none => exact within_head fun x hx => hargs x (List.mem_cons_of_mem _ hx)
    | some v => exact Value.within_of_get? (fun e he => (h e he).2) hget
  case h_2 => exact stays_list (forall_mem_fst h)
  case h_3 => exact stays_list (List.forall_mem_map.mpr fun e he => (h e he).2)
  case h_4 =>
    refine stays_list (List.forall_mem_map.mpr fun e he => Value.within_tuple.mpr ?_)
    simpa using h e he
  case h_5 => exact stays_dict h
  case h_6 key more =>
    exact stays_takeEntry id h key fun v hv =>
      hargs v (List.mem_cons_of_mem _ (List.mem_of_mem_head? hv))
  case h_7 =>
    split
    · exact stays_plain rfl
    · rename_i key v hlast
      refine (stays_remap id fun e he => h e (List.mem_of_mem_dropLast he)).then fun _ =>
        stays_pure (Value.within_tuple.mpr ?_)
      simpa using h _ (List.mem_of_getLast? hlast)
  case h_8 key more =>
    refine (stays_checkKey key).then fun _ => ?_
    split
    · rename_i v hv
      exact stays_pure (Value.within_of_get? (fun e he => (h e he).2) hv)
    · have hv : (more.head?.getD .null).Within σ :=
        within_head fun x hx => hargs x (List.mem_cons_of_mem _ hx)
      exact (stays_remap id (Value.entries_set h (hargs _ List.mem_cons_self) hv)).then fun _ =>
        stays_pure hv
  case h_9 => exact stays_pure trivial
  case h_10 v =>
    exact (stays_entriesOf (hargs v List.mem_cons_self)).bind fun more hmore =>
      stays_changedEntries id (Value.entries_foldl_set h hmore)
  case h_11 => exact stays_changedEntries id (List.forall_mem_nil _)
  case h_12 keys more =>
    have hv : (more.head?.getD .null).Within σ :=
      within_head fun x hx => hargs x (List.mem_cons_of_mem _ hx)
    refine (stays_elements (hargs keys List.mem_cons_self)).bind fun ks hks =>
      (stays_pairEntries 0 (by simp) (List.forall_mem_map.mpr fun k hk =>
        Value.within_tuple.mpr ?_)).bind fun es hes => stays_dict hes
    simp [hks k hk, hv]
  case h_13 => exact stays_plain rfl

/-! ## Operations behind signs -/

theorem stays_unanswered : (unanswered : Build Value).Stays σ (·.Within σ) :=
  stays_foreign _

theorem stays_timesCount (hv : v.Within σ) (hw : w.Within σ) :
    (timesCount v w).Stays σ (·.Within σ) :=
  (stays_countOf w).then fun _ => stays_product hv hw

theorem stays_namedArithmetic (op : Arithmetic) (turned : Bool) (hv : v.Within σ)
    (hw : w.Within σ) : (namedArithmetic op turned v w).Stays σ (·.Within σ) := by
  unfold namedArithmetic
  split
  · refine stays_ite (fun _ => ?_) fun _ => stays_unanswered
    exact stays_ite (fun _ => stays_arithmetic op hw hv) fun _ => stays_arithmetic op hv hw
  · split
    · exact stays_join hv hw
    · exact stays_timesCount hv hw
    · refine stays_ite (fun _ => ?_) fun _ => stays_formatted _ hw
      unfold namedArithmetic.reversedFormat
      split
      · exact stays_formatted _ trivial
      · exact stays_unanswered
    · rename_i id es id' es'
      have hes := Value.within_dict.mp hv
      have hes' := Value.within_dict.mp hw
      cases turned with
      | true => exact stays_dict (Value.entries_foldl_set hes' hes)
      | false => exact stays_dict (Value.entries_foldl_set hes hes')
    · exact stays_unanswered

theorem stays_namedComparison (op : Relation) (hv : v.Within σ) (hw : w.Within σ) :
    (namedComparison op v w).Stays σ (·.Within σ) := by
  have hcompare : (compare op v w).Stays σ (·.Within σ) := stays_compare op hv hw
  unfold namedComparison
  refine stays_ite (fun _ => hcompare) fun _ => stays_ite (fun _ => stays_unanswered) fun _ => ?_
  refine stays_ite (fun _ => hcompare) fun _ => ?_
  exact stays_ite (fun _ => stays_pure trivial) fun _ => stays_unanswered

theorem stays_applyUnary (hv : v.Within σ) (name : String) :
    (applyUnary v name).Stays σ (·.Within σ) := by
  unfold applyUnary
  split
  · exact (stays_valueText v).map fun _ _ => trivial
  · exact (stays_valueDetail v).map fun _ _ => trivial
  · exact stays_length v
  · exact (stays_truth hv).then fun _ => stays_pure trivial
  · exact stays_negate v
  · exact stays_absolute v
  · exact stays_pure trivial
  · split
    · exact stays_pure trivial
    · exact stays_pure hv
  · exact stays_toWhole v
  · exact stays_toWhole v
  · exact stays_toWhole v
  · exact stays_roundedTo _ v
  · exact stays_roundedTo _ v
  · exact stays_roundedTo _ v
  · exact stays_toReal v
  · exact stays_plain rfl

theorem stays_applyBinary (hv : v.Within σ) (name : String) (hw : w.Within σ) :
    (applyBinary v name w).Stays σ (·.Within σ) := by
  unfold applyBinary
  split
  · exact stays_item hv hw
  · exact (stays_contains hw hv).then fun _ => stays_pure trivial
  · split
    · exact stays_attr hv _
    · exact stays_failOn (fun _ => rfl) _
  · split
    · exact stays_namedComparison _ hv hw
    · exact stays_namedArithmetic _ _ hv hw
    · exact stays_namedArithmetic _ _ hv hw
    · exact stays_plain rfl

theorem stays_applySign (hv : v.Within σ) (name : String) (hargs : ∀ x ∈ args, x.Within σ) :
    (applySign v name args).Stays σ (·.Within σ) := by
  unfold applySign
  split
  · split
    · exact stays_applyUnary hv name
    · exact stays_plain rfl
  · split
    · exact stays_applyBinary hv name (hargs _ List.mem_cons_self)
    · exact stays_plain rfl

theorem stays_applyNamed (hv : v.Within σ) (name : String) (hargs : ∀ x ∈ args, x.Within σ) :
    (applyNamed v name args).Stays σ (·.Within σ) := by
  unfold applyNamed
  split
  · exact stays_applyText _ name hargs
  · exact stays_applyList _ (Value.within_list.mp hv) name hargs
  · exact stays_applyTuple (Value.within_tuple.mp hv) name hargs
  · exact stays_applyMapping _ (Value.within_dict.mp hv) name hargs
  · exact stays_applyReal _ name args
  · split
    · exact stays_applyWhole _ name args
    · exact stays_plain rfl

theorem stays_applyOf (type owner : String) (hv : v.Within σ) (name : String)
    (hargs : ∀ x ∈ args, x.Within σ) : (applyOf type owner v name args).Stays σ (·.Within σ) := by
  unfold applyOf
  dsimp only
  split
  · rename_i f hf
    obtain ⟨g, -, hg⟩ := Option.bind_eq_some_iff.mp hf
    split at hg
    · cases hg
      exact stays_plain rfl
    · cases hg
  · exact stays_ite (fun _ => stays_applyNamed hv name hargs) fun _ =>
      stays_applySign hv name hargs

theorem stays_applyPlain (hv : v.Within σ) (name : String) (hargs : ∀ x ∈ args, x.Within σ) :
    (applyPlain v name args).Stays σ (·.Within σ) :=
  (stays_typeName v).then fun _ => stays_applyOf _ _ hv name hargs

theorem stays_applyUnbound (type name : String) (hargs : ∀ x ∈ args, x.Within σ) :
    (applyUnbound type name args).Stays σ (·.Within σ) := by
  unfold applyUnbound
  dsimp only
  split
  · split <;> exact stays_plain rfl
  · refine (stays_typeName _).then fun given => ?_
    obtain ⟨hv, hrest⟩ := List.forall_mem_cons.mp hargs
    split
    · exact stays_applyOf _ _ hv name hrest
    · split <;> exact stays_plain rfl

end Build

end DraftSchema
