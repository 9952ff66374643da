import DraftSchema.Proofs.Listing
import DraftSchema.Proofs.Sharing

/-!
# Loose equality

Equality of values is made by a computation, which may meet rules and may refuse to answer. What it
answers yes to is a relation, `Value.Loose`, whose cases are the kinds of values; by induction on them
it is an equivalence as soon as what it takes for equality of rules is one. The other way round needs
mappings with distinct keys: then one that has as many entries as another, and a value under each of
its keys, has no other keys.
-/

namespace DraftSchema

namespace Value

variable {a b c : Value}

/-! ## Wholes -/

theorem eq_of_isSelf (h : a.isSelf b = true) : a = b := by
  unfold isSelf at h
  split at h <;> simp_all

theorem equalWhole_iff : a.equalWhole b = .ok true ↔
    a.isOperand = false ∧ b.isOperand = false ∧
      ((∃ x y, a.denote? = some x ∧ b.denote? = some y ∧ x.same y = true) ∨
        (a.denote? = none ∧ b.denote? = none ∧ a.isWhole = true ∧ b.isWhole = true ∧
          (a == b) = true)) := by
  unfold equalWhole
  cases ha : a.isOperand <;> cases hb : b.isOperand <;>
    cases hx : a.denote? <;> cases hy : b.denote? <;> simp [and_assoc]

theorem equalWhole_symm (h : a.equalWhole b = .ok true) : b.equalWhole a = .ok true := by
  obtain ⟨ha, hb, ⟨x, y, hx, hy, hsame⟩ | ⟨hx, hy, hwa, hwb, heq⟩⟩ := equalWhole_iff.mp h
  · refine equalWhole_iff.mpr ⟨hb, ha, .inl ⟨y, x, hy, hx, ?_⟩⟩
    cases x <;> cases y <;> simp_all [Extended.same]
  · exact equalWhole_iff.mpr ⟨hb, ha, .inr ⟨hy, hx, hwb, hwa, BEq.symm heq⟩⟩

theorem equalWhole_trans (h : a.equalWhole b = .ok true) (h' : b.equalWhole c = .ok true) :
    a.equalWhole c = .ok true := by
  obtain ⟨ha, hb, hab⟩ := equalWhole_iff.mp h
  obtain ⟨-, hc, hbc⟩ := equalWhole_iff.mp h'
  refine equalWhole_iff.mpr ⟨ha, hc, ?_⟩
  rcases hab with ⟨x, y, hx, hy, hsame⟩ | ⟨hx, hy, hwa, hwb, heq⟩ <;>
    rcases hbc with ⟨y', z, hy', hz, hsame'⟩ | ⟨hy', hz, hwb', hwc, heq'⟩
  · left
    cases hy.symm.trans hy'
    refine ⟨x, z, hx, hz, ?_⟩
    cases x <;> cases y <;> cases z <;> simp_all [Extended.same]
  · cases hy.symm.trans hy'
  · cases hy.symm.trans hy'
  · exact .inr ⟨hx, hz, hwa, hwc, BEq.trans heq heq'⟩

/-- A value that is compared as a whole is equal to itself, or is one and the same. -/
theorem isSelf_or_equalWhole (h : a.isWhole = true) :
    a.isSelf a = true ∨ a.equalWhole a = .ok true := by
  have hself : (∃ id p, a = .operand id p) ∨ (∃ payload, a = .float (.nan payload)) ∨
      a.isOperand = false ∧ ∀ x, a.denote? = some x → x.same x = true := by
    cases a with
    | operand id p => exact .inl ⟨id, p, rfl⟩
    | float x => cases x <;> simp [isOperand, denote?, Binary64.denote, Extended.same]
    | _ => simp [isOperand, denote?, Extended.same]
  rcases hself with ⟨id, p, rfl⟩ | ⟨payload, rfl⟩ | ⟨ha, hsame⟩
  · exact .inl (by simp [isSelf])
  · exact .inl (by simp [isSelf])
  · refine .inr (equalWhole_iff.mpr ⟨ha, ha, ?_⟩)
    cases hx : a.denote? with
    | some x => exact .inl ⟨x, x, rfl, rfl, hsame x hx⟩
    | none => exact .inr ⟨rfl, rfl, h, h, BEq.rfl⟩

theorem equalWhole_ne_true (h : a.isWhole = false) : a.equalWhole b ≠ .ok true := by
  intro hab
  obtain ⟨-, -, ⟨x, -, hx, -⟩ | ⟨-, -, hwhole, -⟩⟩ := equalWhole_iff.mp hab
  · cases a <;> simp_all [isWhole, denote?]
  · exact Bool.false_ne_true (h.symm.trans hwhole)

/-! ## Sequences -/

/-- The kinds of values that are compared part by part. -/
inductive SequenceKind where
  | list | tuple | bounds

/-- The parts that a value is compared by, one after the other. -/
def sequence? : Value → Option (SequenceKind × List Value)
  | .list _ xs => some (.list, xs)
  | .tuple xs => some (.tuple, xs)
  | .range ⟨min, max, minExclusive, maxExclusive, ofLength⟩ =>
    some (.bounds, [min, max, minExclusive, maxExclusive, ofLength])
  | _ => none

theorem isWhole_of_sequence? {kind : SequenceKind} {xs : List Value}
    (h : a.sequence? = some (kind, xs)) : a.isWhole = false := by
  cases a <;> first | rfl | cases h

/-! ## Loose equality -/

/-- Two values are loosely equal, given which rules are. -/
inductive Loose (nodes : NodeId → NodeId → Prop) : Value → Value → Prop
  | self (a : Value) (same : a.isSelf a = true) : Loose nodes a a
  | whole {a b : Value} (same : a.equalWhole b = .ok true) : Loose nodes a b
  | sequence {a b : Value} {kind : SequenceKind} {as bs : List Value}
      (left : a.sequence? = some (kind, as)) (right : b.sequence? = some (kind, bs))
      (length : as.length = bs.length)
      (parts : ∀ (n : Nat) x y, as[n]? = some x → bs[n]? = some y → Loose nodes x y) :
      Loose nodes a b
  | dict {i j : Nat} {as bs : Entries Value Value} (length : as.length = bs.length)
      (names : ∀ k ∈ as.keys, Entries.has bs.keys k = true)
      (entries : ∀ k x y, (k, x) ∈ as → bs.get? k = some y → Loose nodes x y) :
      Loose nodes (.dict i as) (.dict j bs)
  | rule {a b : NodeId} (same : nodes a b) : Loose nodes (.node a) (.node b)

/-- In a value, as it is made, mappings have distinct keys. -/
inductive Keyed : Value → Prop
  | whole {a : Value} (whole : a.isWhole = true) : Keyed a
  | sequence {a : Value} {kind : SequenceKind} {xs : List Value}
      (parts? : a.sequence? = some (kind, xs)) (parts : ∀ x ∈ xs, Keyed x) : Keyed a
  | dict {i : Nat} {es : Entries Value Value} (distinct : Distinct es.keys)
      (values : ∀ k x, (k, x) ∈ es → Keyed x) : Keyed (.dict i es)
  | rule (id : NodeId) : Keyed (.node id)

/-- The parts of a sequence are keyed. -/
theorem Keyed.parts {kind : SequenceKind} {xs : List Value} (h : a.Keyed)
    (hxs : a.sequence? = some (kind, xs)) : ∀ x ∈ xs, x.Keyed := by
  cases h with
  | whole whole =>
    exact absurd ((isWhole_of_sequence? hxs).symm.trans whole) Bool.false_ne_true
  | sequence parts? parts =>
    cases hxs.symm.trans parts?
    exact parts
  | dict | rule => cases hxs

theorem keyed_dict_iff {i : Nat} {es : Entries Value Value} :
    Keyed (.dict i es) ↔ Distinct es.keys ∧ ∀ k x, (k, x) ∈ es → x.Keyed := by
  constructor
  · intro h
    cases h with
    | whole whole => cases whole
    | sequence parts? => cases parts?
    | dict distinct values => exact ⟨distinct, values⟩
  · exact fun ⟨distinct, values⟩ => .dict distinct values

variable {nodes nodes' : NodeId → NodeId → Prop}

/-- What stands under a key of one mapping stands in it under an equal key. -/
theorem exists_of_has {es : Entries Value Value} {k : Value} (h : Entries.has es.keys k = true) :
    ∃ k' x, (k' == k) = true ∧ (k', x) ∈ es ∧ es.get? k = some x := by
  rw [Entries.has_keys] at h
  obtain ⟨x, hx⟩ := Option.isSome_iff_exists.mp h
  obtain ⟨k', hk', hmem⟩ := Store.mem_of_get? hx
  exact ⟨k', x, hk', hmem, hx⟩

theorem get?_of_mem {es : Entries Value Value} (h : Distinct es.keys) {k x : Value}
    (hx : (k, x) ∈ es) : es.get? k = some x := by
  induction es with
  | nil => cases hx
  | cons e es ih =>
    obtain ⟨k', y⟩ := e
    obtain ⟨hk', hrest⟩ := List.pairwise_cons.mp h
    rw [Entries.get?_cons]
    rcases List.mem_cons.mp hx with hx | hx
    · cases hx
      rw [if_pos BEq.rfl]
    · rw [hk' k (List.mem_map_of_mem hx), if_neg Bool.false_ne_true]
      exact ih hrest hx

/-- Of two mappings with as many entries, each has the keys of the other as soon as one has distinct
keys that are all in the other. -/
theorem has_of_length {as bs : Entries Value Value} (hdistinct : Distinct as.keys)
    (hlength : as.length = bs.length) (h : ∀ k ∈ as.keys, Entries.has bs.keys k = true) :
    ∀ k ∈ bs.keys, Entries.has as.keys k = true := by
  have hkeys : ∀ {ks : List Value} {k : Value},
      Entries.has ks k = true ↔ k.key ∈ ks.map Value.key := by
    intro ks k
    simp [Entries.has, beq_iff]
  have hnodup : (as.keys.map Value.key).Nodup := by
    refine List.pairwise_map.mpr (hdistinct.imp fun hne heq => ?_)
    rw [(beq_iff _ _).mpr heq] at hne
    cases hne
  have hsub : as.keys.map Value.key ⊆ bs.keys.map Value.key := by
    intro key hkey
    obtain ⟨k, hk, rfl⟩ := List.mem_map.mp hkey
    exact hkeys.mp (h k hk)
  have hperm := (hnodup.subperm hsub).perm_of_length_le (by simp [Entries.keys, hlength])
  intro k hk
  exact hkeys.mpr (hperm.mem_iff.mpr (List.mem_map_of_mem hk))

namespace Loose

theorem mono (h : a.Loose nodes b) (hnodes : ∀ x y, nodes x y → nodes' x y) : a.Loose nodes' b := by
  induction h with
  | self a same => exact .self a same
  | whole same => exact .whole same
  | sequence left right length _ ih => exact .sequence left right length ih
  | dict length names _ ih => exact .dict length names ih
  | rule same => exact .rule (hnodes _ _ same)

/-- A value is loosely equal to itself. -/
theorem refl (h : a.Keyed) : a.Loose nodes a := by
  induction h with
  | whole whole =>
    rcases isSelf_or_equalWhole whole with hself | hwhole
    · exact .self _ hself
    · exact .whole hwhole
  | sequence parts? _ ih =>
    refine .sequence parts? parts? rfl fun n x y hx hy => ?_
    cases hx.symm.trans hy
    exact ih x (List.mem_of_getElem? hx)
  | dict distinct _ ih =>
    refine .dict rfl (fun k hk => ?_) fun k x y hx hy => ?_
    · obtain ⟨⟨k, x⟩, hx, rfl⟩ := List.mem_map.mp hk
      rw [Entries.has_keys, get?_of_mem distinct hx]
      rfl
    · cases hy.symm.trans (get?_of_mem distinct hx)
      exact ih k x hx
  | rule id => exact .self _ (by simp [isSelf])

/-- Loose equality holds the other way round if that of rules does. -/
theorem symm (hnodes : ∀ x y, nodes x y → nodes y x) (ha : a.Keyed) (hb : b.Keyed)
    (h : a.Loose nodes b) : b.Loose nodes a := by
  induction h with
  | self a same => exact .self a same
  | whole same => exact .whole (equalWhole_symm same)
  | @sequence a b kind as bs left right length parts ih =>
    refine .sequence right left length.symm fun n y x hy hx => ?_
    exact ih n x y hx hy (ha.parts left x (List.mem_of_getElem? hx))
      (hb.parts right y (List.mem_of_getElem? hy))
  | @dict i j as bs length names entries ih =>
    obtain ⟨hdistinct, hvalues⟩ := keyed_dict_iff.mp ha
    obtain ⟨hdistinct', hvalues'⟩ := keyed_dict_iff.mp hb
    refine .dict length.symm (has_of_length hdistinct length names) fun k y x hy hx => ?_
    -- the entry is found under an equal key, and the one that is compared with it under this key
    obtain ⟨k', hk', hx⟩ := Store.mem_of_get? hx
    have hy' : bs.get? k' = some y := (Entries.get?_congr hk').trans (get?_of_mem hdistinct' hy)
    exact ih k' x y hx hy' (hvalues k' x hx) (hvalues' k y hy)
  | rule same => exact .rule (hnodes _ _ same)

theorem trans (hnodes : ∀ x y z, nodes x y → nodes y z → nodes x z) (h : a.Loose nodes b)
    (h' : b.Loose nodes c) : a.Loose nodes c := by
  induction h generalizing c with
  | self a same => exact h'
  | @whole a b same =>
    have hsame := equalWhole_symm same
    cases h' with
    | self => exact .whole same
    | whole same' => exact .whole (equalWhole_trans same same')
    | sequence left' => exact absurd hsame (equalWhole_ne_true (isWhole_of_sequence? left'))
    | dict | rule => exact absurd hsame (equalWhole_ne_true rfl)
  | @sequence a b kind as bs left right length parts ih =>
    cases h' with
    | self => exact .sequence left right length parts
    | whole same' => exact absurd same' (equalWhole_ne_true (isWhole_of_sequence? right))
    | @sequence _ _ _ _ cs left' right' length' parts' =>
      cases right.symm.trans left'
      refine .sequence left right' (length.trans length') fun n x z hx hz => ?_
      have hn : n < bs.length := length ▸ (List.getElem?_eq_some_iff.mp hx).1
      have hy : bs[n]? = some bs[n] := List.getElem?_eq_getElem hn
      exact ih n x _ hx hy (parts' n _ z hy hz)
    | dict | rule => cases right
  | @dict i j as bs length names entries ih =>
    cases h' with
    | self => exact .dict length names entries
    | whole same' => exact absurd same' (equalWhole_ne_true rfl)
    | sequence left' => cases left'
    | @dict _ _ _ cs length' names' entries' =>
      refine .dict (length.trans length') (fun k hk => ?_) fun k x z hx hz => ?_
      · obtain ⟨k', y, hk', hy, -⟩ := exists_of_has (names k hk)
        have hnames := names' k' (List.mem_map_of_mem hy)
        rw [Entries.has_keys, Entries.get?_congr hk', ← Entries.has_keys] at hnames
        exact hnames
      · obtain ⟨k', y, hk', hy, hfound⟩ := exists_of_has (names k (List.mem_map_of_mem hx))
        exact ih k x y hx hfound (entries' k' y z hy ((Entries.get?_congr hk').trans hz))
  | rule same =>
    cases h' with
    | self => exact .rule same
    | whole same' => exact absurd same' (equalWhole_ne_true rfl)
    | sequence left' => cases left'
    | rule same' => exact .rule (hnodes _ _ _ same same')

end Loose

/-! ## What equality finds -/

theorem sizeOf_lt_of_sequence? {kind : SequenceKind} {xs : List Value}
    (h : a.sequence? = some (kind, xs)) {x : Value} (hx : x ∈ xs) : sizeOf x < sizeOf a := by
  have hlt := List.sizeOf_lt_of_mem hx
  cases a with
  | list i ys =>
    cases h
    simp only [list.sizeOf_spec]
    omega
  | tuple ys =>
    cases h
    simp only [tuple.sizeOf_spec]
    omega
  | range b =>
    obtain ⟨least, most, below, above, ofLength⟩ := b
    cases h
    simp only [List.mem_cons, List.not_mem_nil, or_false] at hx
    rcases hx with rfl | rfl | rfl | rfl | rfl <;>
      simp only [range.sizeOf_spec, Bounds.mk.sizeOf_spec] <;> omega
  | _ => cases h

theorem sizeOf_lt_of_mem_entries {i : Nat} {es : Entries Value Value} {k x : Value}
    (hx : (k, x) ∈ es) : sizeOf x < sizeOf (Value.dict i es) := by
  have hlt := List.sizeOf_lt_of_mem hx
  simp only [Prod.mk.sizeOf_spec] at hlt
  simp only [dict.sizeOf_spec]
  omega

section

variable {eq : NodeId → NodeId → Except Fault Bool}

/-- Two parts are found to be equal: they are one and the same, or equality says so. -/
def Found (eq : NodeId → NodeId → Except Fault Bool) (a b : Value) : Prop :=
  a.isSelf b = true ∨ a.equalWith eq b = .ok true

theorem part_iff : (if a.isSelf b then Except.ok true else a.equalWith eq b) = .ok true ↔
    Found eq a b := by
  unfold Found
  cases a.isSelf b <;> simp

/-- Parts are found to be equal one after the other. -/
theorem andAlso_part_iff {rest : Except Fault Bool} :
    andAlso (if a.isSelf b then .ok true else a.equalWith eq b) rest = .ok true ↔
      Found eq a b ∧ rest = .ok true := by
  rw [← part_iff]
  rcases (if a.isSelf b then Except.ok true else a.equalWith eq b) with _ | _ | _ <;> simp [andAlso]

theorem equalAll_iff {as bs : List Value} (h : as.length = bs.length) :
    equalAll eq as bs = .ok true ↔
      ∀ (n : Nat) x y, as[n]? = some x → bs[n]? = some y → Found eq x y := by
  induction as generalizing bs with
  | nil =>
    obtain rfl : bs = [] := List.length_eq_zero_iff.mp h.symm
    simp [equalAll]
  | cons a as ih =>
    obtain ⟨b, bs, rfl⟩ := List.exists_cons_of_length_eq_add_one h.symm
    rw [equalAll, andAlso_part_iff, ih (Nat.succ.inj h)]
    constructor
    · rintro ⟨hfirst, hrest⟩ n x y hx hy
      cases n with
      | zero =>
        cases hx
        cases hy
        exact hfirst
      | succ n => exact hrest n x y hx hy
    · exact fun hall => ⟨hall 0 a b rfl rfl, fun n x y hx hy => hall (n + 1) x y hx hy⟩

theorem equalEntries_iff {as bs : Entries Value Value} :
    equalEntries eq as bs = .ok true ↔ (∀ k ∈ as.keys, Entries.has bs.keys k = true) ∧
      ∀ k x y, (k, x) ∈ as → bs.get? k = some y → Found eq x y := by
  induction as with
  | nil => simp [equalEntries, Entries.keys]
  | cons e as ih =>
    obtain ⟨k, x⟩ := e
    rw [equalEntries, Entries.keys_cons, List.forall_mem_cons, Entries.has_keys]
    cases hy : bs.get? k with
    | none => simp
    | some y =>
      rw [andAlso_part_iff, ih]
      constructor
      · rintro ⟨hfirst, hnames, hrest⟩
        refine ⟨⟨rfl, hnames⟩, fun k' x' y' hx' hy' => ?_⟩
        rcases List.mem_cons.mp hx' with hx' | hx'
        · cases hx'
          cases hy.symm.trans hy'
          exact hfirst
        · exact hrest k' x' y' hx' hy'
      · rintro ⟨⟨-, hnames⟩, hall⟩
        exact ⟨hall k x y List.mem_cons_self hy, hnames,
          fun k' x' y' hx' hy' => hall k' x' y' (List.mem_cons_of_mem _ hx') hy'⟩

/-- Bounds are compared like lists of their parts. -/
theorem equalBounds_eq (a b : Bounds Value) : equalBounds eq a b =
    equalAll eq [a.min, a.max, a.minExclusive, a.maxExclusive, a.ofLength]
      [b.min, b.max, b.minExclusive, b.maxExclusive, b.ofLength] := by
  obtain ⟨least, most, below, above, ofLength⟩ := a
  obtain ⟨least', most', below', above', ofLength'⟩ := b
  rw [equalBounds]
  simp only [equalAll]

/-- What equality finds of two values, by what they are. -/
theorem equalWith_iff : a.equalWith eq b = .ok true ↔
    a.equalWhole b = .ok true ∨
    (∃ kind as bs, a.sequence? = some (kind, as) ∧ b.sequence? = some (kind, bs) ∧
      as.length = bs.length ∧ equalAll eq as bs = .ok true) ∨
    (∃ i j as bs, a = .dict i as ∧ b = .dict j bs ∧ as.length = bs.length ∧
      equalEntries eq as bs = .ok true) ∨
    ∃ x y, a = .node x ∧ b = .node y ∧ eq x y = .ok true := by
  constructor
  · intro h
    unfold equalWith at h
    split at h
    · split at h
      · exact .inr (.inl ⟨.list, _, _, rfl, rfl, ‹_›, h⟩)
      · cases h
    · split at h
      · exact .inr (.inl ⟨.tuple, _, _, rfl, rfl, ‹_›, h⟩)
      · cases h
    · split at h
      · exact .inr (.inr (.inl ⟨_, _, _, _, rfl, rfl, ‹_›, h⟩))
      · cases h
    · rw [equalBounds_eq] at h
      exact .inr (.inl ⟨.bounds, _, _, rfl, rfl, rfl, h⟩)
    · exact .inr (.inr (.inr ⟨_, _, rfl, rfl, h⟩))
    · exact .inl h
  · rintro (h | ⟨kind, as, bs, ha, hb, hlength, h⟩ | ⟨i, j, as, bs, rfl, rfl, hlength, h⟩ |
      ⟨x, y, rfl, rfl, h⟩)
    · have hwhole : a.isWhole = true := by
        by_contra hwhole
        exact equalWhole_ne_true (Bool.eq_false_of_not_eq_true hwhole) h
      unfold equalWith
      split <;> first | exact h | cases hwhole
    · cases a <;> cases ha <;> cases b <;> cases hb
      · rw [equalWith, if_pos hlength]
        exact h
      · rw [equalWith, if_pos hlength]
        exact h
      · rw [equalWith, equalBounds_eq]
        exact h
    · rw [equalWith, if_pos hlength]
      exact h
    · rw [equalWith]
      exact h

/-- Two values are loosely equal as parts exactly when they are found to be. -/
theorem loose_iff : a.Loose (fun x y => eq x y = .ok true) b ↔ Found eq a b := by
  constructor
  · intro h
    induction h with
    | self a same => exact .inl same
    | whole same => exact .inr (equalWith_iff.mpr (.inl same))
    | sequence left right length _ ih =>
      exact .inr (equalWith_iff.mpr (.inr (.inl
        ⟨_, _, _, left, right, length, (equalAll_iff length).mpr ih⟩)))
    | dict length names _ ih =>
      exact .inr (equalWith_iff.mpr (.inr (.inr (.inl
        ⟨_, _, _, _, rfl, rfl, length, equalEntries_iff.mpr ⟨names, ih⟩⟩))))
    | rule same => exact .inr (equalWith_iff.mpr (.inr (.inr (.inr ⟨_, _, rfl, rfl, same⟩))))
  · intro h
    induction hn : sizeOf a using Nat.strong_induction_on generalizing a b with
    | _ n ih =>
      subst hn
      rcases h with h | h
      · obtain rfl := eq_of_isSelf h
        exact .self a h
      rcases equalWith_iff.mp h with h | ⟨kind, as, bs, ha, hb, hlength, h⟩ |
        ⟨i, j, as, bs, rfl, rfl, hlength, h⟩ | ⟨x, y, rfl, rfl, hxy⟩
      · exact .whole h
      · refine .sequence ha hb hlength fun n x y hx hy => ?_
        exact ih _ (sizeOf_lt_of_sequence? ha (List.mem_of_getElem? hx))
          ((equalAll_iff hlength).mp h n x y hx hy) rfl
      · obtain ⟨hnames, hentries⟩ := equalEntries_iff.mp h
        refine .dict hlength hnames fun k x y hx hy => ?_
        exact ih _ (sizeOf_lt_of_mem_entries hx) (hentries k x y hx hy) rfl
      · exact .rule hxy

/-! ## Where equality answers -/

/-- A value with no rule and no argument of a predicate inside. -/
inductive Comparable : Value → Prop
  | whole {a : Value} (whole : a.isWhole = true) (plain : a.isOperand = false) : Comparable a
  | sequence {a : Value} {kind : SequenceKind} {xs : List Value}
      (parts? : a.sequence? = some (kind, xs)) (parts : ∀ x ∈ xs, Comparable x) : Comparable a
  | dict {i : Nat} {es : Entries Value Value} (values : ∀ k x, (k, x) ∈ es → Comparable x) :
      Comparable (.dict i es)

theorem Comparable.isOperand (h : a.Comparable) : a.isOperand = false := by
  cases h with
  | whole _ plain => exact plain
  | sequence parts? => cases a <;> first | rfl | cases parts?
  | dict => rfl

/-- The parts of a sequence are comparable. -/
theorem Comparable.parts {kind : SequenceKind} {xs : List Value} (h : a.Comparable)
    (hxs : a.sequence? = some (kind, xs)) : ∀ x ∈ xs, x.Comparable := by
  cases h with
  | whole whole =>
    exact absurd ((isWhole_of_sequence? hxs).symm.trans whole) Bool.false_ne_true
  | sequence parts? parts =>
    cases hxs.symm.trans parts?
    exact parts
  | dict => cases hxs

theorem Comparable.values {i : Nat} {es : Entries Value Value} {k x : Value}
    (h : Comparable (.dict i es)) (hx : (k, x) ∈ es) : x.Comparable := by
  cases h with
  | whole whole => cases whole
  | sequence parts? => cases parts?
  | dict values => exact values k x hx

theorem andAlso_total {here rest : Except Fault Bool} (h : ∃ t, here = .ok t)
    (h' : ∃ t, rest = .ok t) : ∃ t, andAlso here rest = .ok t := by
  obtain ⟨t, rfl⟩ := h
  cases t with
  | true => exact h'
  | false => exact ⟨false, rfl⟩

theorem part_total (h : ∃ t, a.equalWith eq b = .ok t) :
    ∃ t, (if a.isSelf b then Except.ok true else a.equalWith eq b) = .ok t := by
  split
  · exact ⟨true, rfl⟩
  · exact h

theorem equalAll_total {as bs : List Value}
    (h : ∀ x ∈ as, ∀ y ∈ bs, ∃ t, x.equalWith eq y = .ok t) : ∃ t, equalAll eq as bs = .ok t := by
  induction as generalizing bs with
  | nil => exact ⟨true, by rw [equalAll]; simp⟩
  | cons a as ih =>
    cases bs with
    | nil => exact ⟨true, by rw [equalAll]; simp⟩
    | cons b bs =>
      rw [equalAll]
      exact andAlso_total (part_total (h a List.mem_cons_self b List.mem_cons_self))
        (ih fun x hx y hy => h x (List.mem_cons_of_mem _ hx) y (List.mem_cons_of_mem _ hy))

theorem equalEntries_total {as bs : Entries Value Value}
    (h : ∀ k x k' y, (k, x) ∈ as → (k', y) ∈ bs → ∃ t, x.equalWith eq y = .ok t) :
    ∃ t, equalEntries eq as bs = .ok t := by
  induction as with
  | nil => exact ⟨true, by rw [equalEntries]⟩
  | cons e as ih =>
    obtain ⟨k, x⟩ := e
    rw [equalEntries]
    cases hy : bs.get? k with
    | none => exact ⟨false, rfl⟩
    | some y =>
      obtain ⟨k', -, hmem⟩ := Store.mem_of_get? hy
      exact andAlso_total (part_total (h k x k' y List.mem_cons_self hmem))
        (ih fun k x k' y hx => h k x k' y (List.mem_cons_of_mem _ hx))

theorem equalWhole_total (ha : a.isOperand = false) (hb : b.isOperand = false) :
    ∃ t, a.equalWhole b = .ok t := by
  unfold equalWhole
  rw [ha, hb]
  cases a.denote? <;> cases b.denote? <;> exact ⟨_, rfl⟩

/-- Equality answers wherever it meets neither a rule nor an argument of a predicate. -/
theorem Comparable.equalWith_total (ha : a.Comparable) (hb : b.Comparable) :
    ∃ t, a.equalWith eq b = .ok t := by
  induction ha generalizing b with
  | @whole a whole plain =>
    have hanswer := equalWhole_total plain hb.isOperand
    unfold equalWith
    split <;> first | exact hanswer | cases whole
  | @sequence a kind xs parts? parts ih =>
    have hanswer := equalWhole_total (Comparable.sequence parts? parts).isOperand hb.isOperand
    have hall : ∀ {kind : SequenceKind} {ys : List Value}, b.sequence? = some (kind, ys) →
        ∃ t, equalAll eq xs ys = .ok t := fun hys =>
      equalAll_total fun x hx y hy => ih x hx (hb.parts hys y hy)
    unfold equalWith
    split
    · cases parts?
      split
      · exact hall rfl
      · exact ⟨false, rfl⟩
    · cases parts?
      split
      · exact hall rfl
      · exact ⟨false, rfl⟩
    · cases parts?
    · cases parts?
      rw [equalBounds_eq]
      exact hall rfl
    · cases parts?
    · exact hanswer
  | @dict i es values ih =>
    have hanswer := equalWhole_total (Comparable.dict (i := i) values).isOperand hb.isOperand
    unfold equalWith
    split
    · rename_i h
      cases h
    · rename_i h
      cases h
    · rename_i h
      cases h
      split
      · exact equalEntries_total fun k x k' y hx hy => ih k x hx (hb.values hy)
      · exact ⟨false, rfl⟩
    · rename_i h
      cases h
    · rename_i h
      cases h
    · exact hanswer

end

end Value

end DraftSchema
