/-!
Ordered entries: lists of values under keys that keep the order in which keys first came. Setting a
key that is present changes its value in place; a new key goes to the end. Keys are told apart by an
equivalence, under which the first one of several stays.
-/
namespace DraftSchema

/-- Values under keys, in the order of the keys' arrival. -/
abbrev Entries (κ α : Type) := List (κ × α)

namespace Entries

variable {κ α : Type} [BEq κ]

/-- The value under a key. -/
def get? : Entries κ α → κ → Option α
  | [], _ => none
  | (k, v) :: rest, key => if k == key then some v else get? rest key

/-- Puts a value under a key. -/
def set : Entries κ α → κ → α → Entries κ α
  | [], key, v => [(key, v)]
  | (k, w) :: rest, key, v => if k == key then (k, v) :: rest else (k, w) :: set rest key v

/-- The entries without the one under a key. -/
def erase : Entries κ α → κ → Entries κ α
  | [], _ => []
  | (k, w) :: rest, key => if k == key then rest else (k, w) :: erase rest key

/-- The keys in order. -/
def keys {κ : Type} (es : Entries κ α) : List κ := es.map Prod.fst

/-- Whether a key is among a list's. -/
def has (ks : List κ) (key : κ) : Bool := ks.any (· == key)

/-- The entries with each key once: its first place and its last value. -/
def ofList (es : List (κ × α)) : Entries κ α := es.foldl (fun acc e => acc.set e.1 e.2) []

@[simp] theorem get?_nil (key : κ) : get? ([] : Entries κ α) key = none := rfl

theorem get?_cons (k : κ) (v : α) (rest : Entries κ α) (key : κ) :
    get? ((k, v) :: rest) key = if k == key then some v else get? rest key := rfl

theorem keys_cons {κ : Type} (k : κ) (v : α) (rest : Entries κ α) :
    keys ((k, v) :: rest) = k :: keys rest := rfl

theorem has_cons (k : κ) (ks : List κ) (key : κ) : has (k :: ks) key = (k == key || has ks key) :=
  rfl

/-- Reading the key that was set. -/
@[simp] theorem get?_set_self [ReflBEq κ] (es : Entries κ α) (key : κ) (v : α) :
    (es.set key v).get? key = some v := by
  induction es with
  | nil => simp [set, get?]
  | cons e rest ih =>
    obtain ⟨k, w⟩ := e
    by_cases h : k == key <;> simp [set, get?, h, ih]

/-- Setting a key leaves the others alone. -/
theorem get?_set_ne [PartialEquivBEq κ] (es : Entries κ α) {key other : κ} (v : α)
    (h : (key == other) = false) : (es.set key v).get? other = es.get? other := by
  induction es with
  | nil => simp [set, get?, h]
  | cons e rest ih =>
    obtain ⟨k, w⟩ := e
    by_cases hk : k == key
    · have : (k == other) = false := by
        cases ho : k == other with
        | false => rfl
        | true => rw [BEq.trans (BEq.symm hk) ho] at h; exact absurd h (by decide)
      simp [set, get?, hk, this]
    · simp [set, get?, hk, ih]

/-- The keys after a value is set: a new key comes last. -/
theorem keys_set (es : Entries κ α) (key : κ) (v : α) :
    (es.set key v).keys = if has es.keys key then es.keys else es.keys ++ [key] := by
  induction es with
  | nil => rfl
  | cons e rest ih =>
    obtain ⟨k, w⟩ := e
    rw [set, keys_cons, has_cons]
    cases hk : k == key with
    | true => simp [keys_cons]
    | false =>
      rw [if_neg Bool.false_ne_true, keys_cons, ih, Bool.false_or]
      split <;> rfl

/-- A key is listed exactly when it has a value. -/
theorem has_keys (es : Entries κ α) (key : κ) : has es.keys key = (es.get? key).isSome := by
  induction es with
  | nil => simp [keys, has]
  | cons e rest ih =>
    obtain ⟨k, w⟩ := e
    rw [keys_cons, has_cons, get?, ih]
    cases k == key <;> rfl

/-- Setting a key keeps the keys distinct. -/
theorem pairwise_keys_set {es : Entries κ α} (h : es.keys.Pairwise fun a b => (a == b) = false)
    (key : κ) (v : α) : (es.set key v).keys.Pairwise fun a b => (a == b) = false := by
  rw [keys_set]
  split
  · exact h
  · rename_i hn
    simp only [has, List.any_eq_true, not_exists, not_and, Bool.not_eq_true] at hn
    exact List.pairwise_append.mpr ⟨h, by simp, fun a ha b hb => by
      rw [List.mem_singleton.mp hb]; exact hn a ha⟩

end Entries

end DraftSchema
