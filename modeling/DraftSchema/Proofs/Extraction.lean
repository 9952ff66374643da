import DraftSchema.Evaluation.Call
import DraftSchema.Proofs.Output
import DraftSchema.Proofs.Refusal

/-!
# What the bounds of a predicate say

A predicate is run on an operand, which records comparisons and makes none; its bounds are read off
the record that it ends with. On data the same body makes the comparisons. The two runs go the same
way as long as the body does nothing with the operand but compare it, or ask for its length, and
nothing with a record but give it back: then a number lies within the bounds exactly when the body
holds for it. A record that is compared with another one sends the two runs different ways.
-/

namespace DraftSchema

/-! ## Bodies that compare their argument directly -/

namespace Expression

variable {α : Type}

/-- Whether a body is the argument, its length, or does not read the argument. -/
def isSide : Expression α → Bool
  | .arg => true
  | .attr .arg name => name = "length"
  | e => e.closed

/-- Whether a body compares its argument, or the argument's length, directly: with what does not
depend on the argument, and without comparing the outcome again. Whatever else is done with the
argument or with such an outcome is refused. -/
def direct : Expression α → Bool
  | .attr target name => target.closed || target.direct && name = "length"
  | .item target key => target.direct && key.closed
  | .slice target _ _ => target.direct
  | .compare _ left right => left.isSide && right.isSide
  | .chain first _ middle _ last => first.isSide && middle.isSide && last.isSide
  | .arith op left right =>
    left.closed && right.closed
      || op ≠ .mod && op ≠ .either && left.direct && right.direct
  | .neg operand => operand.direct
  | .length operand => operand.direct
  | .elements operand => operand.direct
  | .and left right => left.direct && right.direct
  | .or left right => left.direct && right.direct
  | .not operand => operand.direct
  | .cond test yes no => test.direct && yes.direct && no.direct
  | e => e.isSide

end Expression

/-! ## Bounds and comparisons -/

namespace Extended

theorem same_comm (x y : Extended) : x.same y = y.same x := by
  cases x <;> cases y <;> simp [same, eq_comm]

theorem holds_converse (op : Relation) (x y : Extended) : holds op.converse x y = holds op y x := by
  cases op <;> simp [Relation.converse, holds, same_comm x y]

/-- What is neither below nor above a number nor undefined equals it. -/
theorem holds_le_and_ge (x : Extended) (q : Rat) :
    (holds .le x (.exact q) && holds .ge x (.exact q)) = holds .eq (.exact q) x := by
  cases x with
  | undefined => rfl
  | infinite negative => cases negative <;> rfl
  | exact p =>
    rw [holds_exact, holds_exact, holds_exact, Bool.eq_iff_iff]
    simp only [Relation.holds, Bool.and_eq_true, decide_eq_true_eq]
    exact ⟨fun h => Rat.le_antisymm h.2 h.1, fun h => ⟨h ▸ Rat.le_refl, h ▸ Rat.le_refl⟩⟩

end Extended

namespace Predicate

open Build

/-- What can be a bound denotes a number, be it infinite or undefined. -/
theorem denote?_of_isBound {v : Value} (h : v.isBound = true) :
    v.isOperand = false ∧ v.present = some v ∧ ∃ x, v.denote? = some x := by
  cases v <;> first | exact ⟨rfl, rfl, _, rfl⟩ | cases h

/-- Numbers are equal as what they denote. -/
theorem equal_of_denote? (s : Store) {u v : Value} {x y : Extended} (hx : u.denote? = some x)
    (hy : v.denote? = some y) : s.equal u v = .ok (x.same y) := by
  cases u <;> cases hx
  all_goals
    cases v <;> cases hy
    all_goals
      rw [Store.equal, Value.equalWith]
      · rfl
      all_goals
        intros
        simp_all

/-- Numbers are compared by what they denote. -/
theorem related_of_denote? {s : Store} {op : Relation} {u v : Value} {x y : Extended}
    (hx : u.denote? = some x) (hy : v.denote? = some y) :
    related s op u v = .ok (Extended.holds op x y) := by
  have hequal := equal_of_denote? s hx hy
  have hordered : ordered s op u v = .ok (Extended.holds op x y) := by
    cases u <;> cases hx
    all_goals
      cases v <;> cases hy
      all_goals
        rw [ordered]
        · simp only [Value.denote?]
        all_goals
          intros
          simp_all
  cases op <;> simp only [related, hequal, hordered] <;> rfl

/-- The bounds of a comparison with a value admit the numbers that stand in the relation to it. -/
theorem admits_of_ofResult? {id operand : Nat} {ofLength : Bool} {op : Relation} {v : Value}
    {r : Bounds Value} (h : ofResult? (.comparison id operand ofLength op v) = some r) (q : Rat) :
    v.isBound = true ∧ r.ofLength = .bool ofLength ∧
      ∃ x, v.denote? = some x ∧ r.admits q = Extended.holds op (.exact q) x := by
  rw [ofResult?] at h
  split at h
  · rename_i hbound
    obtain ⟨-, hpresent, x, hx⟩ := denote?_of_isBound hbound
    have hlimits : ∀ rel, v.limits rel q = Extended.holds rel x (.exact q) := by
      intro rel
      simp only [Value.limits, hpresent, hx]
    -- equality has two bounds, an order one of them
    cases op
    case ne => cases h
    case eq =>
      cases h
      refine ⟨hbound, rfl, x, hx, ?_⟩
      rw [Bounds.admits]
      simp only [Value.isTrue, Value.truth, Bool.false_eq_true, if_false, hlimits]
      exact Extended.holds_le_and_ge x q
    all_goals
      cases h
      refine ⟨hbound, rfl, x, hx, ?_⟩
      simp [Bounds.admits, Value.isTrue, Value.truth, hlimits]
      simp [Value.limits, Value.present, Extended.holds, Extended.same_comm]
  · cases h

/-! ## Two runs -/

/-- Data with a number: the number itself, or something with this length. -/
def datum (ofLength : Bool) (n : Int) : Value := if ofLength then .sized n else .int n

/-- What stands on one side of a comparison in the two runs: the same, the operand and the datum, or
the lengths of the two. -/
inductive Sides (ofLength : Bool) (n : Int) : Value → Value → Prop
  | same (v : Value) : Sides ofLength n v v
  | argument (id : Nat) : Sides ofLength n (.operand id false) (datum ofLength n)
  | length (id : Nat) (measured : ofLength = true) : Sides ofLength n (.operand id true) (.int n)

/-- What the two runs come to: sides in the same workspace, or a record and the truth that its
bounds say. -/
inductive Alike (ofLength : Bool) (n : Int) : Value → Workspace → Value → Workspace → Prop
  | sides {a b : Value} {w : Workspace} (sides : Sides ofLength n a b) : Alike ofLength n a w b w
  | record {id operand : Nat} {f : Bool} {op : Relation} {v b : Value} {w w' : Workspace}
      (agrees : f = ofLength → ∀ r, ofResult? (.comparison id operand f op v) = some r →
        ∀ t, b.truth = .ok t → t = r.admits n) :
      Alike ofLength n (.comparison id operand f op v) w b w'

/-- Where two runs from one workspace succeed they come to the same. -/
def Together (ofLength : Bool) (n : Int) (x y : Build Value) : Prop :=
  ∀ w a w₁ b w₂, x w = .ok a w₁ → y w = .ok b w₂ → Alike ofLength n a w₁ b w₂

variable {ofLength : Bool} {n : Int}

theorem Together.refl (x : Build Value) : Together ofLength n x x :=
  both_self (fun a _ => .sides (.same a)) x

theorem together_pure {a b : Value} (h : Sides ofLength n a b) :
    Together ofLength n (pure a) (pure b) :=
  both_pure fun _ => .sides h

/-- A value that records what is done with it, or a record. -/
def isTracked : Value → Bool
  | .operand .. | .comparison .. => true
  | _ => false

theorem isRecording_of_isTracked {v : Value} (h : isTracked v = true) : isRecording v = true := by
  cases v with
  | operand | comparison => rfl
  | _ => cases h

theorem refused_item {v : Value} (h : isTracked v = true) (key : Value) : Refused (item v key) := by
  cases v with
  | operand | comparison => exact refused_failOn _ _
  | _ => cases h

/-- Runs that go on with an operation which no tracked value takes part in. -/
theorem Together.bind_tracked {x y : Build Value} {k k' : Value → Build Value}
    (h : Together ofLength n x y) (hsame : ∀ v, Together ofLength n (k v) (k' v))
    (htracked : ∀ v, isTracked v = true → Refused (k v)) :
    Together ofLength n (x >>= k) (y >>= k') := by
  intro w c w₁ d w₂ hx hy
  obtain ⟨a, wa, ha, hc⟩ := bind_eq_ok.mp hx
  obtain ⟨b, wb, hb, hd⟩ := bind_eq_ok.mp hy
  cases h w a wa b wb ha hb with
  | sides hsides =>
    cases hsides with
    | same => exact hsame a wa c w₁ d w₂ hc hd
    | argument => exact absurd hc (htracked _ rfl wa c w₁)
    | length => exact absurd hc (htracked _ rfl wa c w₁)
  | record => exact absurd hc (htracked _ rfl wa c w₁)

/-- Runs that go on with an operation which recordings refuse. -/
theorem Together.bind {x y : Build Value} {k k' : Value → Build Value}
    (h : Together ofLength n x y) (hsame : ∀ v, Together ofLength n (k v) (k' v))
    (hrecording : ∀ v, isRecording v = true → Refused (k v)) :
    Together ofLength n (x >>= k) (y >>= k') :=
  h.bind_tracked hsame fun v hv => hrecording v (isRecording_of_isTracked hv)

/-! ### Comparisons -/

/-- The outcome of a comparison of numbers is the truth of it. -/
theorem truth_of_compare {op : Relation} {a b c : Value} {x y : Extended} {w w' : Workspace}
    {t : Bool} (ha : a.isBound = true) (hb : b.isBound = true) (hx : a.denote? = some x)
    (hy : b.denote? = some y) (hcompare : compare op a b w = .ok c w') (ht : c.truth = .ok t) :
    t = Extended.holds op x y := by
  rw [compare_of_plain (denote?_of_isBound ha).1 (denote?_of_isBound hb).1] at hcompare
  obtain ⟨answer, w₁, hanswer, hpure⟩ := bind_eq_ok.mp hcompare
  cases hpure
  obtain ⟨hrelated, -⟩ := fromStore_eq_ok.mp hanswer
  rw [related_of_denote? hx hy] at hrelated
  cases hrelated
  cases ht
  rfl

/-- Sides that can be a bound are the same. -/
theorem Sides.eq_of_isBound {a b : Value} (h : Sides ofLength n a b) (ha : a.isBound = true) :
    b = a := by
  cases h with
  | same => rfl
  | argument | length => cases ha

/-- The datum of an operand that records what is looked for is the number. -/
theorem Sides.eq_int {id : Nat} {f : Bool} {b : Value} (h : Sides ofLength n (.operand id f) b)
    (hb : b ≠ .operand id f) (hf : f = ofLength) : b = .int n := by
  cases h with
  | same => exact absurd rfl hb
  | argument => rw [datum, ← hf]; rfl
  | length => rfl

/-- A comparison of sides is the same in the two runs, or recorded in one of them. -/
theorem together_compare (op : Relation) {a a' b b' : Value} (ha : Sides ofLength n a a')
    (hb : Sides ofLength n b b') : Together ofLength n (compare op a b) (compare op a' b') := by
  by_cases hleft : ∃ id f, a = .operand id f ∧ a' ≠ a
  · -- the operand on the left records the comparison
    obtain ⟨id, f, rfl, hne⟩ := hleft
    intro w c w₁ d w₂ hc hd
    cases hc
    refine .record fun hf r hr t ht => ?_
    obtain ⟨hbound, -, x, hx, hadmits⟩ := admits_of_ofResult? hr n
    rw [ha.eq_int hne hf, hb.eq_of_isBound hbound] at hd
    rw [hadmits]
    exact truth_of_compare rfl hbound rfl hx hd ht
  obtain rfl : a' = a := by
    cases ha with
    | same => rfl
    | argument id => exact Classical.byContradiction fun h => hleft ⟨id, false, rfl, h⟩
    | length id => exact absurd ⟨id, true, rfl, by simp⟩ hleft
  by_cases hright : ∃ id f, b = .operand id f ∧ b' ≠ b
  · obtain ⟨id, f, rfl, hne⟩ := hright
    intro w c w₁ d w₂ hc hd
    cases hoperand : a'.isOperand with
    | true =>
      -- another operand records it, with something that is no bound
      cases a' with
      | operand =>
        cases hc
        refine .record fun _ r hr => ?_
        cases (admits_of_ofResult? hr n).1
      | _ => cases hoperand
    | false =>
      rw [compare_of_operand_right hoperand] at hc
      cases hc
      refine .record fun hf r hr t ht => ?_
      obtain ⟨hbound, -, x, hx, hadmits⟩ := admits_of_ofResult? hr n
      rw [hb.eq_int hne hf] at hd
      rw [hadmits, Extended.holds_converse]
      exact truth_of_compare hbound rfl hx rfl hd ht
  obtain rfl : b' = b := by
    cases hb with
    | same => rfl
    | argument id => exact Classical.byContradiction fun h => hright ⟨id, false, rfl, h⟩
    | length id => exact absurd ⟨id, true, rfl, by simp⟩ hright
  exact .refl _

/-! ### Lengths -/

theorem refused_attr_int (n : Int) : Refused (attr (.int n) "length") := by
  intro w a w' h
  cases h

theorem refused_attr_record {id operand : Nat} {f : Bool} {op : Relation} {v : Value} :
    Refused (attr (.comparison id operand f op v) "length") := by
  intro w a w' h
  cases h

/-- Two runs that go on with the length of what they come to. -/
theorem Together.attr_length {x y : Build Value} (h : Together ofLength n x y) :
    Together ofLength n (x >>= fun v => attr v "length") (y >>= fun v => attr v "length") := by
  intro w c w₁ d w₂ hx hy
  obtain ⟨a, wa, ha, hc⟩ := bind_eq_ok.mp hx
  obtain ⟨b, wb, hb, hd⟩ := bind_eq_ok.mp hy
  cases h w a wa b wb ha hb with
  | record => exact absurd hc (refused_attr_record _ _ _)
  | sides hsides =>
    cases hsides with
    | same => exact Together.refl _ wa c w₁ d w₂ hc hd
    | length => cases hc
    | argument id =>
      cases hofLength : ofLength with
      | false =>
        rw [datum, hofLength] at hd
        exact absurd hd (refused_attr_int n _ _ _)
      | true =>
        rw [datum, hofLength] at hd
        cases hc
        cases hd
        exact .sides (.length _ rfl)

/-! ### Bodies -/

section

variable {α : Type} {constant : α → Build Value} {call : Caller} {id : Nat}

theorem isSide_iff {e : Expression α} (h : e.isSide = true) :
    e = .arg ∨ e = .attr .arg "length" ∨ e.closed = true := by
  unfold Expression.isSide at h
  split at h
  · exact .inl rfl
  · exact .inr (.inl (by rw [of_decide_eq_true h]))
  · exact .inr (.inr h)

/-- The two runs of a body. -/
abbrev Runs (ofLength : Bool) (n : Int) (constant : α → Build Value) (call : Caller) (id : Nat)
    (e : Expression α) : Prop :=
  Together ofLength n (evaluate constant call (.operand id false) e)
    (evaluate constant call (datum ofLength n) e)

theorem runs_closed {e : Expression α} (h : e.closed = true) :
    Runs ofLength n constant call id e := by
  rw [Runs, evaluate_closed constant call _ (datum ofLength n) e h]
  exact .refl _

/-- Sides do not come to a record in the run on the operand, unless they do in both. -/
theorem sides_of_side {e : Expression α} (h : e.isSide = true) :
    Both (fun a w b w' => Sides ofLength n a b ∧ w = w')
      (evaluate constant call (.operand id false) e)
      (evaluate constant call (datum ofLength n) e) := by
  rcases isSide_iff h with rfl | rfl | h
  · exact both_pure fun _ => ⟨.argument id, rfl⟩
  · intro w a w₁ b w₂ ha hb
    cases ha
    cases (together_pure (.argument id)).attr_length w _ _ b w₂ rfl hb with
    | sides hsides => exact ⟨hsides, rfl⟩
  · rw [evaluate_closed constant call _ (datum ofLength n) e h]
    exact both_self (fun a _ => ⟨.same a, rfl⟩) _

/-- A direct body comes to the same in the two runs. -/
theorem runs_of_direct : (e : Expression α) → e.direct = true → Runs ofLength n constant call id e
  | .arg, _ => together_pure (.argument id)
  | .const _, _ => .refl _
  | .raise _, _ => .refl _
  | .call callee args, h => runs_closed (e := .call callee args) h
  | .member element container, h => runs_closed (e := .member element container) h
  | .attr target name, h => by
    rcases Bool.or_eq_true_iff.mp h with hclosed | hlength
    · exact runs_closed (e := .attr target name) hclosed
    · obtain ⟨ht, hname⟩ := Bool.and_eq_true_iff.mp hlength
      obtain rfl := of_decide_eq_true hname
      exact (runs_of_direct target ht).attr_length
  | .item target key, h => by
    obtain ⟨ht, hk⟩ := Bool.and_eq_true_iff.mp h
    refine (runs_of_direct target ht).bind_tracked (fun v => ?_) fun v hv => ?_
    · rw [evaluate_closed constant call _ (datum ofLength n) key hk]
      exact .refl _
    · exact Refused.after (fun k => refused_item hv k) _
  | .slice target start stop, h =>
    (runs_of_direct target h).bind (fun _ => .refl _) fun _ hv => refused_slice hv start stop
  | .neg operand, h =>
    (runs_of_direct operand h).bind (fun _ => .refl _) fun _ hv => refused_negate hv
  | .length operand, h =>
    (runs_of_direct operand h).bind (fun _ => .refl _) fun _ hv => refused_length hv
  | .elements operand, h =>
    (runs_of_direct operand h).bind (fun _ => .refl _) fun _ hv => (refused_elements hv).bind _
  | .not operand, h =>
    (runs_of_direct operand h).bind (fun _ => .refl _) fun _ hv => (refused_truth hv).bind _
  | .and left right, h => by
    obtain ⟨hl, hr⟩ := Bool.and_eq_true_iff.mp h
    refine (runs_of_direct left hl).bind (fun v => ?_) fun _ hv => (refused_truth hv).bind _
    exact both_after _ fun
      | true => runs_of_direct right hr
      | false => Together.refl _
  | .or left right, h => by
    obtain ⟨hl, hr⟩ := Bool.and_eq_true_iff.mp h
    refine (runs_of_direct left hl).bind (fun v => ?_) fun _ hv => (refused_truth hv).bind _
    exact both_after _ fun
      | true => Together.refl _
      | false => runs_of_direct right hr
  | .cond test yes no, h => by
    obtain ⟨h, hn⟩ := Bool.and_eq_true_iff.mp h
    obtain ⟨ht, hy⟩ := Bool.and_eq_true_iff.mp h
    refine (runs_of_direct test ht).bind (fun v => ?_) fun _ hv => (refused_truth hv).bind _
    exact both_after _ fun
      | true => runs_of_direct yes hy
      | false => runs_of_direct no hn
  | .arith op left right, h => by
    rcases Bool.or_eq_true_iff.mp h with hclosed | hdirect
    · exact runs_closed (e := .arith op left right) hclosed
    · simp only [Bool.and_eq_true, decide_eq_true_eq] at hdirect
      obtain ⟨⟨⟨hmod, heither⟩, hl⟩, hr⟩ := hdirect
      refine (runs_of_direct left hl).bind (fun a => ?_) fun a ha => ?_
      · exact (runs_of_direct right hr).bind (fun _ => .refl _) fun b hb =>
          refused_arithmetic hb heither (.inr ⟨hmod, rfl⟩)
      · exact Refused.after (fun b => refused_arithmetic ha heither (.inl rfl)) _
  | .compare op left right, h => by
    obtain ⟨hl, hr⟩ := Bool.and_eq_true_iff.mp h
    exact (sides_of_side hl).bind fun a a' ha =>
      (sides_of_side hr).bind fun b b' hb => together_compare op ha hb
  | .chain first op middle op' last, h => by
    obtain ⟨h, hl⟩ := Bool.and_eq_true_iff.mp h
    obtain ⟨hf, hm⟩ := Bool.and_eq_true_iff.mp h
    refine (sides_of_side hf).bind fun a a' ha => (sides_of_side hm).bind fun b b' hb => ?_
    -- a record of the first comparison is not asked for its truth, so it was made in both runs
    refine Together.bind (together_compare op ha hb) (fun here => ?_)
      fun _ hhere => (refused_truth hhere).bind _
    exact both_after _ fun
      | true => (sides_of_side hl).bind fun c c' hc => together_compare op' hb hc
      | false => Together.refl _

end

/-! ## Predicates -/

/-- A predicate that comes to the record of a comparison with a number stands for its bounds. -/
theorem bounds_of_record {call : Caller} {predicate : Value} {w : Workspace}
    {record operand next : Nat} {ofLength : Bool} {op : Relation} {c : Value} {b : Bounds Value}
    (hcallable : predicate.isCallable = true) (hc : c.isBound = true)
    (hb : Bounds.ofComparison? ofLength op c = some b)
    (hrun : call predicate [.operand w.next false] { w with next := w.next + 1 }
      = .ok (.comparison record operand ofLength op c) { w with next }) :
    bounds call predicate w = .ok b { w with next } := by
  have hresult : ofResult? (.comparison record operand ofLength op c) = some b := by
    rw [ofResult?, if_pos hc, hb]
  unfold bounds
  rw [if_neg (by simp [hcallable])]
  refine bind_eq_ok.mpr ⟨.operand w.next false, { w with next := w.next + 1 }, rfl, ?_⟩
  refine bind_eq_ok.mpr ⟨_, _, reading_of_ok _ hrun, ?_⟩
  rw [hresult]
  rfl

/-- Whether a predicate holds for data. As for an operand a number is taken first. -/
def holds (call : Caller) (predicate data : Value) : Build Bool := do
  let _ ← fresh
  truth (← call predicate [data])

/-- The bounds of a predicate that compares its argument directly are sound: where the predicate
comes to an end on data, it holds exactly if the number lies within the bounds. -/
theorem bounds_sound {body : Expression Literal} {id : Nat} {w w₁ w₂ : Workspace}
    {r : Bounds Value} {t : Bool} (hdirect : body.direct = true)
    (hbounds : bounds Build.call (.function id body) w = .ok r w₁) (n : Int)
    (hholds : holds Build.call (.function id body) (datum r.ofLength.isTrue n) w = .ok t w₂) :
    t = r.admits n := by
  -- both runs start from one workspace
  obtain ⟨x, wx, hx, hread⟩ := bind_eq_ok.mp hbounds
  cases hx
  obtain ⟨result, wr, hresult, hr⟩ := bind_eq_ok.mp hread
  have hrun := ok_of_reading hresult
  obtain ⟨_, wn, hn, hcall⟩ := bind_eq_ok.mp hholds
  cases hn
  obtain ⟨answer, wa, hanswer, ht⟩ := bind_eq_ok.mp hcall
  cases hfound : ofResult? result with
  | none =>
    rw [hfound] at hr
    cases hr
  | some found =>
    rw [hfound] at hr
    cases hr
    cases runs_of_direct body hdirect _ result _ answer wa hrun hanswer with
    | sides hsides =>
      cases hsides with
      | argument | length => cases hfound
      | same =>
        -- bounds are read off records, which have no truth
        cases result with
        | comparison => cases ht
        | _ => cases hfound
    | @record _ _ f _ _ _ _ _ agrees =>
      obtain ⟨-, hf, -⟩ := admits_of_ofResult? hfound n
      exact agrees (by rw [hf]; rfl) r hfound t (truth_of_ok ht)

/-- The length of data is compared with a number. -/
theorem bounds_sound_length :
    ∃ r w t w', bounds Build.call
        (.function 0 (.compare .le (.const (.int 2)) (.attr .arg "length"))) {} = .ok r w ∧
      holds Build.call (.function 0 (.compare .le (.const (.int 2)) (.attr .arg "length")))
        (.sized 3) {} = .ok t w' ∧ t = r.admits 3 := by
  obtain ⟨r, w, hbounds, hlength⟩ : ∃ r w, bounds Build.call
      (.function 0 (.compare .le (.const (.int 2)) (.attr .arg "length"))) {} = .ok r w ∧
        r.ofLength.isTrue = true := ⟨_, _, rfl, rfl⟩
  obtain ⟨t, w', hholds⟩ : ∃ t w', holds Build.call
      (.function 0 (.compare .le (.const (.int 2)) (.attr .arg "length")))
      (datum r.ofLength.isTrue 3) {} = .ok t w' := by
    rw [hlength]
    exact ⟨_, _, rfl⟩
  have hsound := bounds_sound rfl hbounds 3 hholds
  rw [hlength] at hholds
  exact ⟨r, w, t, w', hbounds, hholds, hsound⟩

/-- `x < 5 if (x == 1) == (x == 2) else x < 10`: two records are never the same, but what they
record may be equally false. -/
def twoEqualities : Expression Literal :=
  .cond (.compare .eq (.compare .eq .arg (.const (.int 1))) (.compare .eq .arg (.const (.int 2))))
    (.compare .lt .arg (.const (.int 5))) (.compare .lt .arg (.const (.int 10)))

/-- Seven lies within the bounds of a predicate that does not hold for it. -/
theorem bounds_unsound :
    ∃ r w w', bounds Build.call (.function 0 twoEqualities) {} = .ok r w ∧
      r.ofLength.isTrue = false ∧
      holds Build.call (.function 0 twoEqualities) (.int 7) {} = .ok false w' ∧
      r.admits 7 = true := by
  obtain ⟨r, hbounds, hseven⟩ := ok_of_result_any
    (b := bounds Build.call (.function 0 twoEqualities)) (w := {})
    (p := fun r => !r.ofLength.isTrue && r.admits 7) (by decide +kernel)
  obtain ⟨hlength, hadmits⟩ := Bool.and_eq_true_iff.mp hseven
  exact ⟨r, _, _, hbounds, by simpa using hlength, ok_of_result (by decide +kernel), hadmits⟩

end Predicate

end DraftSchema
