import DraftSchema.Draft04
import DraftSchema.Evaluation.Call
import DraftSchema.Proofs.Run

/-!
# Explicit bounds in place of those of a predicate

A rule for numbers has two sides, each a bound and whether the bound is exclusive. A predicate says
both, and an explicit bound or an explicit word on exclusiveness takes the place of what it says, each
of the two by itself. So a bound that is put in place of an exclusive one stays exclusive, unless the
opposite is said along with it; on the other side nothing changes.
-/

namespace DraftSchema

/-- The sides of a rule for numbers. -/
inductive Side where
  | lower | upper
  deriving DecidableEq, Repr

namespace Side

/-- The other side. -/
def opposite : Side → Side
  | lower => upper
  | upper => lower

/-- What the bound of a side is given by. -/
def bound : Side → Parameter
  | lower => .minimum
  | upper => .maximum

/-- What the exclusiveness of a side is given by. -/
def exclusive : Side → Parameter
  | lower => .exclusiveMinimum
  | upper => .exclusiveMaximum

/-- What a document says on a side: its bound, and whether that is exclusive. -/
def read : Side → Value → Option Value × Option Value
  | lower, document => (Draft04.member? document .minimum, Draft04.member? document .exclusiveMinimum)
  | upper, document => (Draft04.member? document .maximum, Draft04.member? document .exclusiveMaximum)

/-- An explicit bound of a side with an explicit word on whether it is exclusive. -/
def explicit (side : Side) (bound exclusive : Value) : Arguments :=
  [(side.bound, bound), (side.exclusive, exclusive)]

/-- What a rule says on a side: its bound and whether that is exclusive. -/
def part : Side → NumberRule → Option Value × Option Value
  | lower, r => (r.minimum, r.exclusiveMinimum)
  | upper, r => (r.maximum, r.exclusiveMaximum)

/-- Whether bounds are exclusive on a side. -/
def isStrict : Side → Bounds Value → Bool
  | lower, b => b.minExclusive.isTrue
  | upper, b => b.maxExclusive.isTrue

/-- The word on exclusiveness that goes without saying. -/
def strictness (strict : Bool) : Option Value := if strict then some (.bool true) else none

/-- What is written of a side: without a bound nothing, whatever is said of its exclusiveness. -/
def shown : Option Value × Option Value → Option Value × Option Value
  | (none, _) => (none, none)
  | (some bound, exclusive) => (some bound, exclusive)

/-! ## Sides of documents -/

/-- A document says on each side what the rule says. -/
theorem read_keywords (side : Side) (r : NumberRule) :
    side.read (typedDocument "number" r.keywords) = shown (side.part r) := by
  obtain ⟨multipleOf, minimum, maximum, exclusiveMinimum, exclusiveMaximum⟩ := r
  cases side <;> cases multipleOf <;> cases minimum <;> cases maximum <;>
    cases exclusiveMinimum <;> cases exclusiveMaximum <;>
    simp [read, part, shown, Draft04.member?, typedDocument, Value.record, NumberRule.keywords,
      Keyword.member, Keyword.text, Entries.get?_cons, Value.text_beq_text]

/-! ## Sides of rules -/

/-- Bounds are exclusive on a side exactly if the rule for them says so. -/
theorem part_ofBounds_snd (side : Side) (b : Bounds Value) :
    (side.part (.ofBounds b)).2 = strictness (side.isStrict b) := by
  cases side <;> rfl

variable (side : Side) (r : NumberRule) (v bound exclusive : Value)

/-- What is explicit on a side takes the place of what the rule says there, part by part. -/
theorem part_override_explicit :
    side.part (r.override ((.value, v) :: side.explicit bound exclusive))
      = (bound.present <|> (side.part r).1, exclusive.present <|> (side.part r).2) := by
  cases side <;> rfl

/-- On the other side nothing changes. -/
theorem part_opposite_override_explicit :
    side.opposite.part (r.override ((.value, v) :: side.explicit bound exclusive))
      = side.opposite.part r := by
  cases side <;> rfl

/-- What is explicit on a side of a rule that says nothing else. -/
theorem part_any_override_explicit :
    side.part (NumberRule.any.override (side.explicit bound exclusive))
      = (bound.present, exclusive.present) := by
  cases side <;> simp [part, NumberRule.override, NumberRule.any, explicit, Side.bound,
    Side.exclusive, Arguments.present, Arguments.get?]

end Side

/-! ## Documents of new rules -/

namespace Construction

open Build

variable {call : Caller} {v alone : Value} {r : NumberRule} {w w₁ : Workspace}

/-- The document of a new rule of a class. -/
def written (call : Caller) (c : NodeClass) (args : Arguments) : Build Value := do
  let id ← construct call c args
  fromStore fun s => s.document id

/-- A new rule is written with what is written of it, if that takes nothing from other rules. -/
theorem written_of_ruleFrom {c : NodeClass} {args : Arguments} {rule : Rule} {document : Value}
    (h : ruleFrom call c args w = .ok rule w₁)
    (hdocument : ∀ (s : Store) inner, s.documentOf inner rule = .ok document) :
    ∃ w₂, written call c args w = .ok document w₂ := by
  let node : Node := ⟨rule, args.required⟩
  have hconstruct : construct call c args w
      = .ok (w₁.store.alloc node).2 { w₁ with store := (w₁.store.alloc node).1 } :=
    bind_of_ok h
  refine ⟨{ w₁ with store := (w₁.store.alloc node).1 }, (bind_of_ok hconstruct).trans ?_⟩
  refine fromStore_of_ok ?_
  rw [Store.document, Store.documentWithin, Store.get?_alloc_self]
  exact hdocument _ _

/-- A new rule for numbers is written with its keywords. -/
theorem written_number {args : Arguments} (h : numberRule call args w = .ok r w₁) :
    ∃ w₂, written call .number args w = .ok (typedDocument "number" r.keywords) w₂ := by
  have hrule : ruleFrom call .number args w = .ok (.number r) w₁ := by
    change (Rule.number <$> numberRule call args) w = _
    rw [map_eq_pure_bind, bind_of_ok h]
    rfl
  exact written_of_ruleFrom hrule fun _ _ => rfl

/-- A rule for numbers with a predicate has the bounds of the predicate, where nothing else is
explicit. -/
theorem numberRule_of_range (args : Arguments) {b : Bounds Value} (hv : args.present .value = some v)
    (hb : Predicate.range call v w = .ok b w₁) (hlength : b.ofLength.truth = .ok false) :
    numberRule call args w = .ok ((NumberRule.ofBounds b).override args) w₁ := by
  have hrange : numberRange call v w = .ok (.ofBounds b) w₁ := by
    refine (bind_of_ok hb).trans ?_
    rw [truth, hlength]
    rfl
  unfold numberRule
  rw [hv]
  exact bind_of_ok hrange

/-- A predicate or bounds of which a rule for numbers can be made say something of numbers. -/
theorem range_of_written (args : Arguments) (hv : args.present .value = some v)
    (h : written call .number args w = .ok alone w₁) :
    ∃ b w₂, Predicate.range call v w = .ok b w₂ ∧ b.ofLength.truth = .ok false := by
  obtain ⟨id, w₂, hconstruct, -⟩ := bind_eq_ok.mp h
  obtain ⟨rule, w₃, hrule, -⟩ := bind_eq_ok.mp hconstruct
  change (Rule.number <$> numberRule call args) w = _ at hrule
  rw [map_eq_pure_bind] at hrule
  obtain ⟨r, w₄, hr, -⟩ := bind_eq_ok.mp hrule
  unfold numberRule at hr
  rw [hv] at hr
  obtain ⟨plain, w₅, hplain, -⟩ := bind_eq_ok.mp hr
  obtain ⟨b, w₆, hb, hcheck⟩ := bind_eq_ok.mp hplain
  obtain ⟨t, w₇, ht, hrest⟩ := bind_eq_ok.mp hcheck
  refine ⟨b, w₆, hb, ?_⟩
  cases hlength : b.ofLength.truth with
  | error f =>
    rw [truth, hlength] at ht
    cases ht
  | ok t' =>
    rw [truth, hlength] at ht
    cases ht
    cases t with
    | false => rfl
    | true => cases hrest

/-! ## Explicit bounds -/

variable (side : Side) (bound exclusive : Value)

/-- An explicit bound on one side of a predicate leaves the other side as the predicate has it. On its
own side the document says the bound, and that it is exclusive as that is explicit, or else as the
predicate has it. So this side is what it is without the predicate exactly if exclusiveness is
explicit too, or the predicate is not exclusive there. -/
theorem explicit_overrides (hv : v ≠ .null) (hbound : bound ≠ .null)
    (h : written call .number [(.value, v)] w = .ok alone w₁) :
    ∃ b w₂ both w₃ without w₄,
      Predicate.range call v w = .ok b w₂ ∧
      written call .number ((.value, v) :: side.explicit bound exclusive) w = .ok both w₃ ∧
      written call .number (side.explicit bound exclusive) w = .ok without w₄ ∧
      side.opposite.read both = side.opposite.read alone ∧
      side.read both
        = (some bound, exclusive.present <|> Side.strictness (side.isStrict b)) ∧
      (side.read both = side.read without ↔
        exclusive.present.isSome = true ∨ side.isStrict b = false) := by
  have hpresent : ∀ u : Value, u ≠ .null → u.present = some u := by
    intro u hu
    cases u <;> first | rfl | exact absurd rfl hu
  obtain ⟨b, w₂, hb, hlength⟩ := range_of_written [(.value, v)] (hpresent v hv) h
  -- the three rules and their documents
  obtain ⟨_, halone⟩ :=
    written_number (numberRule_of_range [(.value, v)] (hpresent v hv) hb hlength)
  obtain ⟨w₃, hboth⟩ := written_number
    (numberRule_of_range ((.value, v) :: side.explicit bound exclusive) (hpresent v hv) hb hlength)
  have hnone : (side.explicit bound exclusive).present .value = none := by cases side <;> rfl
  have hrule : numberRule call (side.explicit bound exclusive) w
      = .ok (NumberRule.any.override (side.explicit bound exclusive)) w := by
    unfold numberRule
    rw [hnone]
    rfl
  obtain ⟨w₄, hwithout⟩ := written_number hrule
  cases h.symm.trans halone
  have hread : side.read (typedDocument "number" ((NumberRule.ofBounds b).override
      ((.value, v) :: side.explicit bound exclusive)).keywords)
        = (some bound, exclusive.present <|> Side.strictness (side.isStrict b)) := by
    rw [Side.read_keywords, Side.part_override_explicit, hpresent bound hbound,
      Side.part_ofBounds_snd]
    rfl
  refine ⟨b, w₂, _, w₃, _, w₄, hb, hboth, hwithout, ?_, hread, ?_⟩
  · rw [Side.read_keywords, Side.read_keywords, Side.part_opposite_override_explicit]
    cases side <;> rfl
  · rw [hread, Side.read_keywords, Side.part_any_override_explicit, hpresent bound hbound]
    cases exclusive.present <;> cases side.isStrict b <;> simp [Side.shown, Side.strictness]

/-- `x < 10` -/
def belowTen : Value := .function 0 (.compare .lt .arg (.const (.int 10)))

/-- Below ten, with twenty in place of ten, which is said to be allowed itself. -/
theorem explicit_overrides_belowTen :
    belowTen ≠ .null ∧ Value.int 20 ≠ .null ∧
    ∃ alone w₁, written Build.call .number [(.value, belowTen)] {} = .ok alone w₁ ∧
      ∃ b w₂ both w₃ without w₄,
        Predicate.range Build.call belowTen {} = .ok b w₂ ∧
        written Build.call .number
          ((.value, belowTen) :: Side.upper.explicit (.int 20) (.bool false)) {} = .ok both w₃ ∧
        written Build.call .number (Side.upper.explicit (.int 20) (.bool false)) {}
          = .ok without w₄ ∧
        Side.upper.opposite.read both = Side.upper.opposite.read alone ∧
        Side.upper.read both = (some (.int 20),
          (Value.bool false).present <|> Side.strictness (Side.upper.isStrict b)) ∧
        (Side.upper.read both = Side.upper.read without ↔
          (Value.bool false).present.isSome = true ∨ Side.upper.isStrict b = false) := by
  obtain ⟨alone, w₁, h⟩ : ∃ alone w₁,
      written Build.call .number [(.value, belowTen)] {} = .ok alone w₁ := ⟨_, _, rfl⟩
  exact ⟨by simp [belowTen], by simp, alone, w₁, h,
    explicit_overrides .upper (.int 20) (.bool false) (by simp [belowTen]) (by simp) h⟩

/-- Twenty in place of ten stays exclusive, though nothing explicit says so. -/
theorem explicit_stays_strict :
    ∃ alone both without w₁ w₂ w₃,
      written Build.call .number [(.value, belowTen)] {} = .ok alone w₁ ∧
      written Build.call .number ((.value, belowTen) :: Side.upper.explicit (.int 20) .null) {}
        = .ok both w₂ ∧
      written Build.call .number (Side.upper.explicit (.int 20) .null) {} = .ok without w₃ ∧
      Side.upper.read both ≠ Side.upper.read without := by
  obtain ⟨alone, w₁, halone⟩ : ∃ alone w₁,
      written Build.call .number [(.value, belowTen)] {} = .ok alone w₁ := ⟨_, _, rfl⟩
  obtain ⟨both, w₂, hboth, hread⟩ : ∃ both w₂, written Build.call .number
      ((.value, belowTen) :: Side.upper.explicit (.int 20) .null) {} = .ok both w₂ ∧
        Side.upper.read both = (some (.int 20), some (.bool true)) := ⟨_, _, rfl, by
          rw [Side.read_keywords]
          rfl⟩
  obtain ⟨without, w₃, hwithout, hread'⟩ : ∃ without w₃, written Build.call .number
      (Side.upper.explicit (.int 20) .null) {} = .ok without w₃ ∧
        Side.upper.read without = (some (.int 20), none) := ⟨_, _, rfl, by
          rw [Side.read_keywords]
          rfl⟩
  refine ⟨alone, both, without, w₁, w₂, w₃, halone, hboth, hwithout, ?_⟩
  rw [hread, hread']
  simp

end Construction

end DraftSchema
