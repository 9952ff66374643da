import DraftSchema.Evaluation.Call
import DraftSchema.Proofs.Obstacle
import DraftSchema.Proofs.Recast
import DraftSchema.Proofs.Spellable

/-!
# Conflicts

A call whose path and rule are known, and whose path the model declares, ends in a conflict exactly if
something is in the way of the path; the pointer leads to what the path meets first. No other fault of
a call is a conflict: after the checks only the flag and the names of the rule can be refused, and no
text fails to be formed for what is in a path's way.
-/

namespace DraftSchema

/-! ## Faults that are no conflicts -/

/-- A fault is a conflict of a path. -/
def Fault.IsConflict (f : Fault) : Prop := ∃ r, f = .refused r ∧ r.code = .pathConflict

namespace Store

variable {s s' : Store} {v flag level name : Value} {f : Fault}

theorem not_isConflict_of_spellable {α : Type} {endless : Prop} {x : Except Fault α}
    (h : Spellable endless x) (hx : x = .error f) : ¬ f.IsConflict := by
  rintro ⟨r, rfl, -⟩
  rcases h _ hx with hdigits | ⟨hdeep, -⟩
  · cases hdigits
  · cases hdeep

theorem not_isConflict_missing (s : Store) (v : Value) (name : String) :
    ¬ (s.missing v name).IsConflict := by
  rintro ⟨r, hr, -⟩
  have hsort : (s.missing v name).sort.2.1 = none := by rw [sort_missing]
  rw [hr] at hsort
  cases hsort

theorem not_isConflict_of_holder {part : String} (h : s.holder v part = .error f) :
    ¬ f.IsConflict := by
  unfold holder at h
  split at h
  · split at h
    · cases h
    · cases h
      exact not_isConflict_missing s _ part
  · cases h
    exact not_isConflict_missing s _ part

theorem not_isConflict_of_unhashable (h : s.unhashable? name = some f) : ¬ f.IsConflict := by
  obtain ⟨v, -, rfl⟩ := Option.map_eq_some_iff.mp h
  rintro ⟨r, hr, -⟩
  cases hr

theorem not_isConflict_of_putProperty (h : s.putProperty level name v = .error f) :
    ¬ f.IsConflict := by
  unfold putProperty at h
  cases hheld : s.holder level "properties" with
  | error g =>
    rw [hheld] at h
    cases h
    exact not_isConflict_of_holder hheld
  | ok id =>
    rw [hheld] at h
    cases hname : s.unhashable? name with
    | none =>
      rw [hname] at h
      cases h
    | some g =>
      rw [hname] at h
      cases h
      exact not_isConflict_of_unhashable hname

/-- Recordings refuse to be asked for their truth, and are in no path's way. -/
theorem not_isConflict_of_truth {r : Refusal} (h : flag.truth = .error r) :
    ¬ (Fault.refused r).IsConflict := by
  rintro ⟨r', hr', hcode⟩
  cases hr'
  cases flag <;> cases h <;> cases hcode

theorem not_isConflict_of_listRequired (h : s.listRequired flag level name = .error f) :
    ¬ f.IsConflict := by
  unfold listRequired at h
  split at h
  · cases h
    exact not_isConflict_of_truth ‹_›
  · cases h
  · cases hheld : s.holder level "add_required" with
    | error g =>
      rw [hheld] at h
      cases h
      exact not_isConflict_of_holder hheld
    | ok id =>
      rw [hheld] at h
      simp only [bind, Except.bind] at h
      split at h
      · cases h
        rintro ⟨r, hr, hcode⟩
        cases hr
        cases hcode
      · cases h

/-- Putting a value on levels that were found is refused for other reasons. -/
theorem not_isConflict_of_place {levels path : List Value}
    (h : s.place flag v levels path = (s', .error f)) : ¬ f.IsConflict := by
  induction levels generalizing s path with
  | nil => cases h
  | cons level levels ih =>
    cases path with
    | nil => cases h
    | cons name rest =>
      rw [place] at h
      split at h
      · rename_i hput
        cases h
        split at hput
        · exact not_isConflict_of_putProperty hput
        · cases hput
      · split at h
        · cases h
          exact not_isConflict_of_listRequired ‹_›
        · exact ih h

end Store

/-! ## Calls -/

namespace Builder

open Build Store

variable {call : Caller} {id node : NodeId} {selector value : Value} {path : List Value}
  {w w₁ w' : Workspace} {f : Fault}

/-- Where nothing is in the way of a path that the model declares, a call ends in no conflict. -/
theorem Settled.not_isConflict (h : Settled call id path node w (.error f w')) (hp : path ≠ [])
    (hn : ∀ name ∈ path, name.isHashable = true) (hbuilder : isBuilder w.store id = true)
    (hcheck : checkModel call id path w = .ok () w)
    (hclear : w.store.conflict? id [] path = none) : ¬ f.IsConflict := by
  cases h with
  | unshown hempty => exact absurd hempty hp
  | undeclared _ hundeclared => cases hcheck.symm.trans hundeclared
  | conflict _ _ hconflict => cases hclear.symm.trans hconflict
  | stuck _ _ _ hput =>
    -- the levels of the path are found, so it is putting the rule on them that fails
    obtain ⟨r, hr, -⟩ := object?_of_isBuilder hbuilder
    obtain ⟨s', tail, hlevels⟩ := levels_of_passes ((conflict?_eq_none_iff hp).mp hclear) hn hr
    rw [put_of_levels _ _ hlevels] at hput
    exact not_isConflict_of_place hput
  | unreported _ _ _ _ hreport =>
    rcases hreport with htext | ⟨-, hpoint⟩
    · exact not_isConflict_of_spellable (spellable_nodeText _ _) htext
    · exact not_isConflict_of_spellable (spellable_pointer _ _) hpoint

/-- A call that meets something on its path ends there, and changes nothing. -/
theorem add_of_conflict (hres : resolve call selector value w = .ok (path, node) w₁)
    (hp : path ≠ []) (hcheck : checkModel call id path w₁ = .ok () w₁)
    (hconflict : w₁.store.conflict? id [] path = some f) :
    add call id selector value w = .error f w₁ := by
  have hempty : ¬ path.isEmpty = true := by simpa using hp
  rw [add, bind_of_ok hres]
  dsimp only
  rw [if_neg hempty, putRule, bind_of_ok hcheck, bind_of_error (place_of_conflict hconflict)]

/-- A call whose path and rule are known, and whose path the model declares, ends in a conflict
exactly if there is an obstacle. The pointer then leads to the first one. Otherwise what holds the
names of the path is found, one object for each: the builder, and then what the names before lead to.
The obstacles are those that there were before the call, if the functions among its selector and its
value left the rules of the builder as they were. -/
theorem add_conflict_iff (hres : resolve call selector value w = .ok (path, node) w₁)
    (hp : path ≠ []) (hn : ∀ name ∈ path, name.isHashable = true)
    (hbuilder : isBuilder w₁.store id = true) (hcheck : checkModel call id path w₁ = .ok () w₁)
    (hworded : ∀ before v, w₁.store.FirstObstacle id path before v →
      (∃ shown, w₁.store.valueText v = .ok shown) ∧ ∃ pointer, w₁.store.pointer before = .ok pointer) :
    ((∃ f w', add call id selector value w = .error f w' ∧ f.IsConflict) ↔
      ∃ before v, w₁.store.Obstacle id path before v) ∧
    (∀ before v, w₁.store.FirstObstacle id path before v → ∃ shown pointer,
      w₁.store.valueText v = .ok shown ∧ w₁.store.pointer before = .ok pointer ∧
      add call id selector value w = .error (.refused (.conflict shown pointer)) w₁) ∧
    ((¬ ∃ before v, w₁.store.Obstacle id path before v) → ∃ t levels,
      w₁.store.levels (.node id) path = (t, .ok levels) ∧ levels.length = path.length ∧
      levels[0]? = some (.node id) ∧
      ∀ i, 0 < i → i < path.length → ∃ x, levels[i]? = some (.node x) ∧
        t.follow? (.node id) (path.take i) = some (.node x) ∧
        w₁.store.Level t id (path.take i) x) ∧
    (w₁.store.Agree w.store id →
      ∀ before v, w.store.Obstacle id path before v ↔ w₁.store.Obstacle id path before v) := by
  have hfirst : ∀ before v, w₁.store.FirstObstacle id path before v → ∃ shown pointer,
      w₁.store.valueText v = .ok shown ∧ w₁.store.pointer before = .ok pointer ∧
      add call id selector value w = .error (.refused (.conflict shown pointer)) w₁ := by
    intro before v hobstacle
    obtain ⟨⟨shown, hshown⟩, pointer, hpointer⟩ := hworded before v hobstacle
    have hblocked : w₁.store.blocked v before = .refused (.conflict shown pointer) := by
      rw [blocked, hshown, hpointer]
    refine ⟨shown, pointer, hshown, hpointer, ?_⟩
    rw [← hblocked]
    exact add_of_conflict hres hp hcheck (hobstacle.conflict? hn)
  refine ⟨⟨?_, ?_⟩, hfirst, ?_, ?_⟩
  · rintro ⟨f, w', hadd, hf⟩
    have hsettled : Settled call id path node w₁ (add call id selector value w) := add_settled hres
    rw [hadd] at hsettled
    refine (conflict?_isSome_iff [] hp hn).mp ?_
    cases hconflict : w₁.store.conflict? id [] path with
    | some g => exact ⟨g, rfl⟩
    | none => exact absurd hf (hsettled.not_isConflict hp hn hbuilder hcheck hconflict)
  · intro hobstacle
    obtain ⟨f, hconflict⟩ := (conflict?_isSome_iff [] hp hn).mpr hobstacle
    obtain ⟨before, v, hobstacle, -⟩ := conflict?_eq_some hn hconflict
    obtain ⟨shown, pointer, -, -, hadd⟩ := hfirst before v hobstacle
    exact ⟨_, w₁, hadd, _, rfl, rfl⟩
  · obtain ⟨r, hr, -⟩ := object?_of_isBuilder hbuilder
    exact levels_of_clear hp hn hr
  · intro hsame before v
    exact ⟨fun h => h.congr hsame.symm, fun h => h.congr hsame⟩

/-- A builder that holds an object `a`, in which `b` is a dictionary that holds a truth value `c`. -/
def withDictionary : Workspace :=
  { store := ⟨[
      ⟨.object { ObjectRule.empty with kind := .schema, properties := [(.text "a", .node 1)] },
        .bool true⟩,
      ⟨.object { ObjectRule.empty with properties := [(.text "b", .node 2)] }, .bool true⟩,
      ⟨.object { ObjectRule.empty with kind := .dictionary, properties := [(.text "c", .node 3)] },
        .bool true⟩,
      ⟨.boolean none, .bool true⟩]⟩ }

theorem firstObstacle_withDictionary :
    withDictionary.store.FirstObstacle 0 [.text "a", .text "b", .text "c", .text "d"]
      [.text "a", .text "b"] (.node 2) := by
  have hbelow : withDictionary.store.FirstObstacle 1 [.text "b", .text "c", .text "d"] [.text "b"]
      (.node 2) := firstObstacle_head (by simp) rfl rfl
  exact hbelow.cons rfl rfl

/-- The dictionary is in the way, and so is the truth value in it; the dictionary is met first. Beside
it the object is gone through, and another one is made. -/
theorem add_conflict_iff_nested :
    (∃ shown, add Build.call 0 (.list 0 [.text "a", .text "b", .text "c", .text "d"]) (.node 3)
      withDictionary = .error (.refused (.conflict shown "/a/b")) withDictionary) ∧
    ∃ t levels, withDictionary.store.levels (.node 0) [.text "a", .text "e", .text "f"]
        = (t, .ok levels) ∧
      levels.length = 3 ∧ ∃ x, levels[2]? = some (.node x) ∧
        t.follow? (.node 0) [.text "a", .text "e"] = some (.node x) := by
  have htexts : ∀ names : List String, ∀ name ∈ names.map Value.text, name.isHashable = true := by
    intro names name hname
    obtain ⟨s, -, rfl⟩ := List.mem_map.mp hname
    rfl
  constructor
  · have hfirst := firstObstacle_withDictionary
    have hres : resolve Build.call (.list 0 [.text "a", .text "b", .text "c", .text "d"]) (.node 3)
        withDictionary = .ok ([.text "a", .text "b", .text "c", .text "d"], 3) withDictionary := rfl
    have hbuilder : isBuilder withDictionary.store 0 = true := rfl
    obtain ⟨-, hconflict, -⟩ := add_conflict_iff hres (by simp) (htexts ["a", "b", "c", "d"])
      hbuilder rfl fun before v hother => by
        obtain ⟨rfl, rfl⟩ := hfirst.unique hother
        exact ⟨⟨_, rfl⟩, _, rfl⟩
    obtain ⟨shown, pointer, -, hpointer, hadd⟩ := hconflict _ _ hfirst
    cases hpointer
    exact ⟨shown, hadd⟩
  · have hnone : ∀ before v, ¬ withDictionary.store.Obstacle 0 [.text "a", .text "e", .text "f"]
        before v := fun _ _ => Passes.not_obstacle
      (.through (by simp) rfl rfl rfl rfl (.missing (by simp) rfl rfl))
    have hres : resolve Build.call (.list 0 [.text "a", .text "e", .text "f"]) (.node 3)
        withDictionary = .ok ([.text "a", .text "e", .text "f"], 3) withDictionary := rfl
    have hbuilder : isBuilder withDictionary.store 0 = true := rfl
    obtain ⟨-, -, hlevels, -⟩ := add_conflict_iff hres (by simp) (htexts ["a", "e", "f"]) hbuilder rfl
      fun before v hother => absurd hother.toObstacle (hnone before v)
    obtain ⟨t, levels, ht, hlength, -, hfound⟩ := hlevels fun ⟨before, v, h⟩ => hnone before v h
    obtain ⟨x, hx, hfollow, -⟩ := hfound 2 (by simp) (by simp)
    exact ⟨t, levels, ht, hlength, x, hx, hfollow⟩

/-- A builder that holds the numbers from `n` on under the name `a`. -/
def withNumber (n : Int) : Workspace :=
  { store := ⟨[
      ⟨.object { ObjectRule.empty with kind := .schema, properties := [(.text "a", .node 1)] },
        .bool true⟩,
      ⟨.number (NumberRule.ofBounds ⟨.int n, .null, .bool false, .bool false, .bool false⟩),
        .bool true⟩]⟩ }

theorem acyclic_withNumber (n : Int) : (withNumber n).store.Acyclic 0 := by
  have hbuilder : (withNumber n).store.references 0 = [1] := rfl
  have hnumber : (withNumber n).store.references 1 = [] := rfl
  refine Store.acyclic_of_rank (fun id => 1 - id) (fun id hid c hc => ?_) 0
  have hsize : id < 2 := hid
  obtain rfl | rfl : id = 0 ∨ id = 1 := by omega
  · rw [hbuilder, List.mem_singleton] at hc
    rw [hc]
    decide
  · rw [hnumber] at hc
    cases hc

theorem valueText_withNumber {n : Int} {f : Fault} (h : Whole.chars n = .error f) :
    (withNumber n).store.valueText (.node 1) = .error f := by
  have htext : Whole.text n = .error f := by
    rw [Whole.text, h]
    rfl
  show (partsText "NumberSchema" <$> (Whole.text n >>= fun text => _)) = _
  rw [htext]
  rfl

/-- The numbers from one on, once a truth value has been put under `a` on the builder. -/
def busy : Value :=
  .function 0 (.and
    (.call (.attr (.const (.ref "b")) "with_") [.const (.list [.text "a"]), .const (.bool true)])
    (.compare .ge .arg (.const (.int 1))))

/-- A value that is a function may itself put something in the way; and what is in the way cannot be
named if a number in it has too many digits. -/
theorem add_conflict_iff_fails :
    (alone.store.Acyclic 0 ∧
      (¬ ∃ before v, alone.store.Obstacle 0 [.text "a", .text "b"] before v) ∧
      ∃ shown w', add Build.call 0 (.list 0 [.text "a", .text "b"]) busy alone
        = .error (.refused (.conflict shown "/a")) w') ∧
    (withNumber Whole.limit).store.Acyclic 0 ∧
      (∃ before v, (withNumber Whole.limit).store.Obstacle 0 [.text "a", .text "b"] before v) ∧
      ∃ w', add Build.call 0 (.list 0 [.text "a", .text "b"]) (.node 1) (withNumber Whole.limit)
        = .error (.tooManyDigits Whole.digitLimit none) w' := by
  have hchars : Whole.chars Whole.limit = .error (.tooManyDigits Whole.digitLimit none) :=
    if_neg (by rw [Int.natAbs_natCast]; exact Nat.lt_irrefl _)
  -- nothing else is asked about the number
  generalize (Whole.limit : Int) = n at hchars ⊢
  refine ⟨⟨?_, ?_, ?_⟩, ?_, ?_, ?_⟩
  · exact Store.acyclic_of_rank (fun _ => 0) (by decide) 0
  · rintro ⟨before, v, hobstacle⟩
    exact Passes.not_obstacle (.missing (by simp) rfl rfl) hobstacle
  · exact ⟨_, _, rfl⟩
  · exact acyclic_withNumber n
  · exact ⟨[.text "a"], .node 1, (firstObstacle_head (by simp) rfl rfl).toObstacle⟩
  · have hres : resolve Build.call (.list 0 [.text "a", .text "b"]) (.node 1) (withNumber n)
        = .ok ([.text "a", .text "b"], 1) (withNumber n) := rfl
    have hfirst : (withNumber n).store.FirstObstacle 0 [.text "a", .text "b"] [.text "a"] (.node 1) :=
      firstObstacle_head (by simp) rfl rfl
    have hblocked : (withNumber n).store.blocked (.node 1) [.text "a"]
        = .tooManyDigits Whole.digitLimit none := by
      rw [blocked, valueText_withNumber hchars]
    have hconflict := hfirst.conflict? (by simp [Value.isHashable, Value.unhashable?])
    exact ⟨_, add_of_conflict hres (by simp) rfl (hconflict.trans (congrArg some hblocked))⟩

end Builder

end DraftSchema
