import DraftSchema.Proofs.CallDepth
import DraftSchema.Proofs.Counting
import DraftSchema.Proofs.InStepCall
import DraftSchema.Proofs.Overriding

/-!
# Predicates on lengths

A predicate that asks for no attributes is applied to the length of an argument as it is to the
argument. Read as such, it allows the same bounds, now of the length; what is no single comparison of
the argument is none of its length either. So rules for texts and arrays, which limit lengths in any
case, come out the same.
-/

namespace DraftSchema

open Value Build

/-- The body that applies another one to the length of its argument. -/
def Expression.onLength (body : Expression Literal) : Expression Literal :=
  .call (.const (.function body)) [.attr .arg "length"]

/-- The workspace after the two numbers that are handed out before a length is asked for: one for the
argument, and one for the function that is to be applied to its length. -/
def Workspace.ahead (w : Workspace) : Workspace := { w with next := w.next + 2 }

/-- No rule holds an argument that is still to be made. Numbers are handed out in order, so that no rule
can. -/
def Workspace.Past (w : Workspace) : Prop := ∀ n, w.next ≤ n → w.store.turned n = w.store

/-- The same bounds, of the length. -/
def Bounds.measured (b : Bounds Value) : Bounds Value := { b with ofLength := .bool true }

/-- Where the argument that is turned round is the one that is met. -/
def Outlook.measuring (own : Nat) (names : String → Prop) : Outlook :=
  Outlook.reading ⟨own, fun _ _ => False, names⟩ own

namespace Predicate

variable {own : Nat} {names : String → Prop} {body : Expression Literal} {w : Workspace}

/-- What is read from the result of a run. -/
def read (run : Build Value) : Build (Bounds Value) := do
  let result ← reading (fun _ => .refused .notAComparison) run
  match ofResult? result with
  | some b => pure b
  | none => refuse .notAComparison

/-- A function is given a new argument and then only run. -/
theorem bounds_function (call : Caller) (id : Nat) (body : Expression Literal) (w : Workspace) :
    bounds call (.function id body) w
      = read (call (.function id body) [.operand w.next false]) { w with next := w.next + 1 } :=
  rfl

theorem callWithin_function (fuel id id' : Nat) (body : Expression Literal) (args : List Value) :
    callWithin fuel (.function id body) args = callWithin fuel (.function id' body) args := by
  cases fuel <;> rfl

theorem callWithin_onLength (fuel id operand : Nat) (body : Expression Literal) (w : Workspace) :
    callWithin (fuel + 1) (.function id body.onLength) [.operand operand false] w
      = callWithin fuel (.function w.next body) [.operand (w.next + 1) true]
          { w with next := w.next + 2 } :=
  rfl

theorem read_congr {run run' : Build Value} {w' : Workspace} (h : run w = run' w') :
    read run w = read run' w' := by
  have hattempt : run.attempt w = run'.attempt w' := by
    unfold attempt
    rw [h]
  change EStateM.bind (EStateM.bind run.attempt _) _ w = EStateM.bind (EStateM.bind run'.attempt _) _ w'
  unfold EStateM.bind
  rw [hattempt]

/-- The same comparison, with the length of the argument. -/
theorem ofResult?_measured {v : Value} (hv : v.Blind (.measuring own names)) :
    ofResult? (v.turned own) = (ofResult? v).map Bounds.measured ∧
      ∀ b ∈ ofResult? v, b.ofLength = .bool false := by
  cases v with
  | comparison id made ofLength op bound =>
    obtain ⟨⟨rfl, rfl⟩, -⟩ := hv
    -- what can be a bound holds no argument
    have hbound : bound.isBound = true → bound.turned made = bound := by
      intro h
      cases bound <;> first | rfl | simp [isBound] at h
    simp only [turned, ofResult?, flag, if_true, isBound_turned]
    split
    · rw [hbound ‹_›]
      cases op <;> simp [Bounds.ofComparison?, Bounds.measured]
    · simp
  | _ => exact ⟨rfl, by simp [ofResult?]⟩

theorem inStep_read {run run' : Build Value} (h : Echo (.measuring own names) run run') :
    InStep (.measuring own names) (fun b => b.ofLength = .bool false) Bounds.measured (read run)
      (read run') := by
  refine (inStep_reading h).bind fun v hv => ?_
  obtain ⟨hbounds, hplain⟩ := ofResult?_measured hv
  rw [show (Outlook.measuring own names).own = own from rfl, hbounds]
  cases hb : ofResult? v with
  | none => exact inStep_refuse _
  | some b => exact inStep_pure (hplain b hb)

variable (hbody : body.Blind names)
  (hvars : ∀ name v, names name → w.vars.get? name = some v →
    v.value.Blind (Outlook.measuring (w.next + 2) names).plain)
  (hpast : w.Past)

include hbody hvars hpast

/-- The run of a predicate from where its argument has the number that the length has in the run of the
one that is applied to the length. -/
theorem endsAs_onLength (fuel id id' : Nat) :
    EndsAs (.measuring (w.next + 2) names) (fun b => b.ofLength = .bool false) Bounds.measured
      (bounds (callWithin fuel) (.function id body) w.ahead)
      (bounds (callWithin (fuel + 1)) (.function id' body.onLength) w) := by
  have hready : Workspace.Ready (.measuring (w.next + 2) names) { w with next := w.next + 3 } :=
    ⟨Nat.lt_succ_self _, hvars⟩
  have hcall := inStep_callWithin fuel (.measuring (w.next + 2) names) (.function id body)
    [.operand (w.next + 2) false] hbody (List.forall_mem_singleton.mpr ⟨rfl, rfl⟩)
  have hrun := inStep_read hcall _ hready
  have hlength : turnedAll (w.next + 2) [.operand (w.next + 2) false]
      = [.operand (w.next + 2) true] :=
    congrArg (fun b => [Value.operand (w.next + 2) b]) (if_pos rfl)
  have hsame : Workspace.turned (w.next + 2) { w with next := w.next + 3 }
      = { w with next := w.next + 3 } := by
    unfold Workspace.turned
    rw [hpast _ (Nat.le_add_right _ _)]
  rw [bounds_function, bounds_function, read_congr (callWithin_onLength fuel id' w.next body _),
    callWithin_function fuel (w.next + 1) id]
  change EndsAs _ _ _ _ (read (callWithin fuel (.function id body)
    (turnedAll (w.next + 2) [.operand (w.next + 2) false]))
    (Workspace.turned (w.next + 2) { w with next := w.next + 3 })) at hrun
  rw [hlength, hsame] at hrun
  exact hrun

end Predicate

/-! ## Rules that limit lengths -/

/-- What is written of a rule for texts, or for arrays, that limits lengths only. -/
def LengthBounds.document (c : NodeClass) (b : LengthBounds) : Value :=
  match c with
  | .array => typedDocument "array"
      (Keyword.minItems.member (lengthValue b.least) ++ Keyword.maxItems.member (lengthValue b.most))
  | _ => typedDocument "string"
      (Keyword.minLength.member (lengthValue b.least)
        ++ Keyword.maxLength.member (lengthValue b.most))

namespace Construction

variable {call : Caller} {c : NodeClass} {id : Nat} {body : Expression Literal} {w w₁ : Workspace}

/-- The rule of a class for lengths. -/
def lengthRule (c : NodeClass) (b : LengthBounds) : Rule :=
  match c with
  | .array => .array (.ofLengths b)
  | _ => .string { StringRule.any with
      minLength := lengthValue b.least, maxLength := lengthValue b.most }

theorem ruleFrom_length (hc : c = .string ∨ c = .array) :
    ruleFrom call c [(.length, .function id body)] w
      = (lengthRule c <$> Length.bounds call (.function id body)) w := by
  have hmap : ∀ {α : Type} {x y : Build α} (f : α → Rule), x w = y w → (f <$> x) w = (f <$> y) w := by
    intro α x y f h
    change EStateM.map f x w = EStateM.map f y w
    unfold EStateM.map
    rw [h]
  obtain ⟨hstring, harray⟩ := @Length.rules_of_length call (.function id body) rfl w
  rcases hc with rfl | rfl
  · refine (hmap Rule.string hstring).trans ?_
    simp only [map_eq_pure_bind, bind_assoc, pure_bind]
    rfl
  · refine (hmap Rule.array harray).trans ?_
    simp only [map_eq_pure_bind, bind_assoc, pure_bind]
    rfl

theorem documentOf_lengthRule (hc : c = .string ∨ c = .array) (s : Store)
    (document : NodeId → Except Fault Value) (b : LengthBounds) :
    s.documentOf document (lengthRule c b) = .ok (b.document c) := by
  rcases hc with rfl | rfl
  · simp [lengthRule, Store.documentOf, StringRule.keywords, StringRule.any, Keyword.member,
      LengthBounds.document]
  · simp [lengthRule, Store.documentOf, ArrayRule.ofLengths, ArrayRule.any, Keyword.member,
      Store.itemsDocument, LengthBounds.document]

/-- A new rule is written with the lengths that its predicate allows. -/
theorem written_of_lengths (hc : c = .string ∨ c = .array) {b : LengthBounds}
    (hb : Length.bounds call (.function id body) w = .ok b w₁) :
    ∃ w₂, written call c [(.length, .function id body)] w = .ok (b.document c) w₂ := by
  have hrule : ruleFrom call c [(.length, .function id body)] w = .ok (lengthRule c b) w₁ :=
    (ruleFrom_length hc).trans (by rw [map_eq_pure_bind]; exact bind_of_ok hb)
  exact written_of_ruleFrom hrule fun s inner => documentOf_lengthRule hc s inner b

theorem written_of_error (hc : c = .string ∨ c = .array) {f : Fault}
    (hf : Length.bounds call (.function id body) w = .error f w₁) :
    written call c [(.length, .function id body)] w = .error f w₁ := by
  have hrule : ruleFrom call c [(.length, .function id body)] w = .error f w₁ :=
    (ruleFrom_length hc).trans (by rw [map_eq_pure_bind]; exact bind_of_error hf)
  have hconstruct : construct call c [(.length, .function id body)] w = .error f w₁ :=
    bind_of_error hrule
  exact bind_of_error hconstruct

end Construction

namespace Predicate

variable {names : String → Prop} {body : Expression Literal} {w : Workspace}

/-- A reading that ends with one call less of room ends in the same way. -/
theorem bounds_call {v : Value}
    (hroom : ∀ w', bounds (callWithin (callDepth - 1)) v w ≠ .error .tooDeep w') :
    bounds Build.call v w = bounds (callWithin (callDepth - 1)) v w := by
  rcases extends_bounds (extends_callWithin (callDepth - 1)) v w with ⟨w', hdeep⟩ | hsame
  · exact absurd hdeep (hroom w')
  · exact hsame

/-- Lengths are limited alike by bounds and by the same bounds of the length. -/
theorem ofBounds_measured (own : Nat) (s : Store) (b : Bounds Value) :
    Length.ofBounds (s.turned own).kindName b.measured = Length.ofBounds s.kindName b := by
  rw [Store.kindName_turned_store]
  rfl

section

variable (hbody : body.Blind names)
  (hvars : ∀ name v, names name → w.vars.get? name = some v →
    v.value.Blind (Outlook.measuring (w.next + 2) names).plain)
  (hpast : w.Past) {id : Nat}
  (hroom : ∀ w', bounds (callWithin (callDepth - 1)) (.function id body) w.ahead
    ≠ .error .tooDeep w')

include hbody hvars hpast hroom

theorem range_onLength (id' : Nat) :
    (∃ b w₁, bounds Build.call (.function id body) w.ahead = .ok b w₁ ∧ b.ofLength = .bool false ∧
      bounds Build.call (.function id' body.onLength) w
        = .ok b.measured (w₁.turned (w.next + 2))) ∨
    (∃ f w₁, bounds Build.call (.function id body) w.ahead = .error f w₁ ∧
      bounds Build.call (.function id' body.onLength) w = .error f (w₁.turned (w.next + 2))) := by
  have hends := endsAs_onLength hbody hvars hpast (callDepth - 1) id id'
  rw [← bounds_call hroom] at hends
  cases hrun : bounds Build.call (.function id body) w.ahead with
  | ok b w₁ =>
    rw [hrun] at hends
    exact .inl ⟨b, w₁, rfl, hends.1, hends.2.1⟩
  | error f w₁ =>
    rw [hrun] at hends
    exact .inr ⟨f, w₁, rfl, hends.1⟩

theorem lengths_onLength (id' : Nat) :
    (∃ b w₁ w₂, Length.bounds Build.call (.function id body) w.ahead = .ok b w₁ ∧
      Length.bounds Build.call (.function id' body.onLength) w = .ok b w₂) ∨
    (∃ f w₁ w₂, Length.bounds Build.call (.function id body) w.ahead = .error f w₁ ∧
      Length.bounds Build.call (.function id' body.onLength) w = .error f w₂) := by
  rcases range_onLength hbody hvars hpast hroom id' with
    ⟨b, w₁, hrun, -, hrun'⟩ | ⟨f, w₁, hrun, hrun'⟩
  · have hsame := ofBounds_measured (w.next + 2) w₁.store b
    cases hb : Length.ofBounds w₁.store.kindName b with
    | ok lengths =>
      exact .inl ⟨lengths, _, _, (bind_of_ok hrun).trans (fromStore_of_ok hb),
        (bind_of_ok hrun').trans (fromStore_of_ok (hsame.trans hb))⟩
    | error f =>
      exact .inr ⟨f, _, _, (bind_of_ok hrun).trans (fromStore_of_error hb),
        (bind_of_ok hrun').trans (fromStore_of_error (hsame.trans hb))⟩
  · exact .inr ⟨f, _, _, bind_of_error hrun, bind_of_error hrun'⟩

end

/-- A workspace with one variable. -/
def holding (name : String) (v : Value) : Workspace := { vars := [(name, ⟨v, 0⟩)], next := 2 }

/-- `(lambda y: y <= limit)(x)` -/
def withinLimit : Expression Literal :=
  .call (.const (.function (.compare .le .arg (.const (.ref "limit"))))) [.arg]

/-- `lambda x: kept.append(x) or x >= 1` -/
def keeping : Expression Literal :=
  .or (.call (.attr (.const (.ref "kept")) "append") [.arg]) (.compare .ge .arg (.const (.int 1)))

/-- `lambda x: kept[0] < 3` -/
def ofKept : Expression Literal :=
  .compare .lt (.item (.const (.ref "kept")) (.const (.int 0))) (.const (.int 3))

end Predicate

end DraftSchema
