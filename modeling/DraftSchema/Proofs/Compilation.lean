import DraftSchema.Evaluation.Call
import DraftSchema.Proofs.Extraction
import DraftSchema.Proofs.Output
import DraftSchema.Proofs.Resolution

/-!
# How compiling fails

A raw value that stands for no rule is rejected: its type is unsupported, or the function that it is
cannot be read. `Build.FailsOnly` says which faults a build may meet, with a rule for each way that
builds are put together; trees of raw values in lists, combinators and arrays then fail no otherwise
than their leaves. Leaves fail otherwise in two places, which `Stray` names: a pattern on bytes is
asked for a pattern of its own, and a length is made from a bound that is no number or cannot be
written.
-/

namespace DraftSchema

/-- Whether a fault rejects a raw value: it is a function that cannot be read, or of a type that
stands for no rule. -/
def Fault.isRejection : Fault → Bool
  | .refused r => r.code.isReading || r.code = .unsupportedType
  | _ => false

/-! ## The faults of a build -/

namespace Build

variable {α β : Type} {allowed allowed' : Fault → Prop}

/-- A build meets no other faults than allowed ones. -/
def FailsOnly (allowed : Fault → Prop) (b : Build α) : Prop :=
  ∀ w f w', b w = .error f w' → allowed f

theorem failsOnly_pure (a : α) : (pure a : Build α).FailsOnly allowed := by
  intro w f w' h
  cases h

theorem failsOnly_fail {f : Fault} (h : allowed f) : (fail f : Build α).FailsOnly allowed := by
  intro w g w' hfail
  cases hfail
  exact h

theorem failsOnly_alloc (rule : Rule) (required : Value) : (alloc rule required).FailsOnly allowed := by
  intro w f w' h
  cases h

theorem failsOnly_typeName (v : Value) : (typeName v).FailsOnly allowed := by
  intro w f w' h
  cases h

theorem failsOnly_list (xs : List Value) : (list xs).FailsOnly allowed := by
  intro w f w' h
  cases h

/-- A build in two parts fails as its parts do, the second one with what the first one gives. -/
theorem FailsOnly.bind_of_ok {b : Build α} {k : α → Build β} (hb : b.FailsOnly allowed)
    (hk : ∀ w a w₁, b w = .ok a w₁ → ∀ f w', k a w₁ = .error f w' → allowed f) :
    (b >>= k).FailsOnly allowed := by
  intro w f w' h
  cases hrun : b w with
  | ok a w₁ =>
    rw [DraftSchema.Build.bind_of_ok hrun] at h
    exact hk w a w₁ hrun f w' h
  | error g w₁ =>
    rw [bind_of_error hrun] at h
    cases h
    exact hb w f w' hrun

theorem FailsOnly.bind {b : Build α} {k : α → Build β} (hb : b.FailsOnly allowed)
    (hk : ∀ a, (k a).FailsOnly allowed) : (b >>= k).FailsOnly allowed :=
  hb.bind_of_ok fun _ a w₁ _ => hk a w₁

theorem FailsOnly.map {b : Build α} (g : α → β) (hb : b.FailsOnly allowed) :
    (g <$> b).FailsOnly allowed := by
  rw [map_eq_pure_bind]
  exact hb.bind fun a => failsOnly_pure (g a)

/-- To read a function either succeeds, or says so of every fault that stems from the function doing
more than is read. -/
theorem FailsOnly.reading {b : Build Value} {r : Refusal}
    (hb : b.FailsOnly fun f => f.kind.isRecoverable = true) :
    (b.reading fun _ => .refused r).FailsOnly fun f => f.isReading = true ∨ f = .refused r := by
  intro w f w' h
  unfold Build.reading at h
  cases hrun : b w with
  | ok a w₁ =>
    have hattempt : b.attempt w = .ok (.ok a) w₁ := by rw [attempt, hrun]
    rw [DraftSchema.Build.bind_of_ok hattempt] at h
    cases h
  | error g w₁ =>
    have hattempt : b.attempt w = .ok (.error g) w₁ := by rw [attempt, hrun]
    rw [DraftSchema.Build.bind_of_ok hattempt] at h
    dsimp only at h
    cases hreading : g.isReading with
    | true =>
      rw [hreading] at h
      cases h
      exact .inl hreading
    | false =>
      rw [hreading, hb w g w₁ hrun] at h
      cases h
      exact .inr rfl

end Build

open Build

/-! ## One value -/

/-- A value that can be called meets only faults that stem from doing more with the argument of a
predicate than a recording of it allows. -/
def Value.Mild (call : Caller) (v : Value) : Prop :=
  v.isCallable = true → ∀ n, (call v [.operand n false]).FailsOnly fun f =>
    f.kind.isRecoverable = true

namespace Predicate

variable {call : Caller} {v : Value} {w w₁ : Workspace} {b : Bounds Value}

theorem failsOnly_bounds (h : v.Mild call) :
    (bounds call v).FailsOnly fun f => f.isRejection = true := by
  unfold bounds
  split
  · exact failsOnly_fail rfl
  rename_i hcallable
  have hread : ∀ n, (reading (fun _ => .refused .notAComparison) (call v [.operand n false])).FailsOnly
      fun f => f.isRejection = true := by
    intro n u f u' hfail
    rcases (h (by simpa using hcallable) n).reading u f u' hfail with hreading | rfl
    · cases f <;> simp_all [Fault.isReading, Fault.isRejection]
    · rfl
  refine FailsOnly.bind_of_ok (fun u f u' hfail => by cases hfail) ?_
  intro u x u₁ hx f u' hfail
  cases hx
  refine FailsOnly.bind (hread _) (fun result => ?_) _ f u' hfail
  split
  · exact failsOnly_pure _
  · exact failsOnly_fail rfl

end Predicate

namespace Length

/-- What keeps a bound from being a length that can be counted: it is no finite number. -/
def Uncounted (v : Value) (f : Fault) : Prop :=
  (∃ negative, v.denote? = some (.infinite negative)) ∧ f = .infinityToInteger ∨
    v.denote? = some .undefined ∧ f = .nanToInteger

/-- What keeps a greatest length from being refused as it should: it is below zero, and has more
digits than a numeral. -/
def Unwritten (v : Value) (exclusive : Bool) (f : Fault) : Prop :=
  ∃ q, v.denote? = some (.exact q) ∧ highest q exclusive < 0 ∧
    Whole.limit ≤ (highest q exclusive).natAbs ∧ f = .tooManyDigits Whole.digitLimit none

/-- What keeps bounds from being lengths other than that they allow none. -/
def Stray (b : Bounds Value) (f : Fault) : Prop :=
  Uncounted b.min f ∨ Uncounted b.max f ∨ Unwritten b.max b.maxExclusive.isTrue f

variable {kindName : Value → String} {b : Bounds Value} {v : Value} {exclusive : Bool} {f : Fault}

/-- A bound is a rational number, or what keeps it from that is one of two faults. -/
theorem exact_eq_error_iff (kindName : Value → String) (hv : v.isBound = true) :
    exact kindName v = .error f ↔ Uncounted v f := by
  obtain ⟨-, -, d, hd⟩ := Predicate.denote?_of_isBound hv
  unfold exact Uncounted
  rw [hd]
  cases d <;> simp [eq_comm]

theorem not_uncounted_null : ¬ Uncounted .null f := by
  rintro (⟨⟨negative, h⟩, -⟩ | ⟨h, -⟩) <;> cases h

theorem least_eq_error_iff (kindName : Value → String) (exclusive : Bool)
    (hv : v.isBound = true ∨ v = .null) :
    least kindName v exclusive = .error f ↔ Uncounted v f := by
  rcases hv with hv | rfl
  · obtain ⟨-, hpresent, -⟩ := Predicate.denote?_of_isBound hv
    rw [← exact_eq_error_iff kindName hv, least, hpresent]
    dsimp only
    cases exact kindName v with
    | ok q =>
      constructor
      · intro h
        cases h
      · intro h
        cases h
    | error g =>
      constructor
      · intro h
        cases h
        rfl
      · intro h
        cases h
        rfl
  · constructor
    · intro h
      cases h
    · intro h
      exact absurd h not_uncounted_null

/-- A greatest length is refused as too small, if there is a text of it. -/
theorem most_eq_error_iff (kindName : Value → String) (hv : v.isBound = true ∨ v = .null) :
    (most kindName v exclusive = .error f ∧ f.isRejection = false) ↔
      Uncounted v f ∨ Unwritten v exclusive f := by
  rcases hv with hv | rfl
  · obtain ⟨-, hpresent, d, hd⟩ := Predicate.denote?_of_isBound hv
    rw [← exact_eq_error_iff kindName hv, most, hpresent]
    dsimp only
    unfold exact Unwritten
    rw [hd]
    cases d with
    | exact q =>
      simp only [bind, Except.bind, Whole.text, Whole.chars]
      by_cases hlow : highest q exclusive < 0
      · rw [if_pos hlow]
        by_cases hdigits : (highest q exclusive).natAbs < Whole.limit
        · -- the length is shown, and refused
          rw [if_pos hdigits]
          constructor
          · rintro ⟨h, hrejection⟩
            cases h
            cases hrejection
          · rintro (h | ⟨p, hp, -, hlong, -⟩)
            · cases h
            · cases hp
              exact absurd hdigits (Nat.not_lt.mpr hlong)
        · rw [if_neg hdigits]
          constructor
          · rintro ⟨h, -⟩
            cases h
            exact .inr ⟨q, rfl, hlow, Nat.not_lt.mp hdigits, rfl⟩
          · rintro (h | ⟨p, hp, -, -, rfl⟩)
            · cases h
            · exact ⟨rfl, rfl⟩
      · rw [if_neg hlow]
        constructor
        · rintro ⟨h, -⟩
          cases h
        · rintro (h | ⟨p, hp, hlow', -⟩)
          · cases h
          · cases hp
            exact absurd hlow' hlow
    | infinite | undefined =>
      constructor
      · rintro ⟨h, -⟩
        cases h
        exact .inl rfl
      · rintro (h | ⟨p, hp, -⟩)
        · cases h
          exact ⟨rfl, rfl⟩
        · cases hp
  · constructor
    · rintro ⟨h, -⟩
      cases h
    · rintro (h | ⟨q, h, -⟩)
      · exact absurd h not_uncounted_null
      · cases h

theorem isRejection_of_uncounted (h : Uncounted v f) : f.isRejection = false := by
  rcases h with ⟨-, rfl⟩ | ⟨-, rfl⟩ <;> rfl

/-- Bounds that are read off a comparison are lengths, or refused as such, unless they are stray. -/
theorem ofBounds_eq_error_iff (kindName : Value → String) {result : Value}
    (hb : Predicate.ofResult? result = some b) :
    (ofBounds kindName b = .error f ∧ f.isRejection = false) ↔ Stray b f := by
  obtain ⟨x, hx, hmin, hmax⟩ := Predicate.bound_of_ofResult? hb
  have hbound : ∀ u, u = x ∨ u = .null → u.isBound = true ∨ u = .null := by
    rintro u (rfl | hu)
    · exact .inl hx
    · exact .inr hu
  have hleast := hbound _ hmin
  have hmost := hbound _ hmax
  -- two bounds are the same number
  have hsame : ∀ g, Uncounted b.min g → b.max = .null ∨ b.max = b.min := by
    intro g hg
    rcases hmin with hmin | hmin
    · rw [hmin]
      exact hmax.symm
    · rw [hmin] at hg
      exact absurd hg not_uncounted_null
  unfold ofBounds
  cases hl : least kindName b.min b.minExclusive.isTrue with
  | error g =>
    have hg := (least_eq_error_iff kindName _ hleast).mp hl
    constructor
    · rintro ⟨h, -⟩
      cases h
      exact .inl hg
    · intro h
      have hf : Uncounted b.min f := by
        rcases h with h | h | ⟨q, hq, -⟩
        · exact h
        · rcases hsame g hg with hnull | hboth
          · rw [hnull] at h
            exact absurd h not_uncounted_null
          · exact hboth ▸ h
        · rcases hsame g hg with hnull | hboth
          · rw [hnull] at hq
            cases hq
          · rw [hboth] at hq
            rcases hg with ⟨⟨negative, hd⟩, -⟩ | ⟨hd, -⟩ <;> cases hq.symm.trans hd
      have herror := (least_eq_error_iff kindName b.minExclusive.isTrue hleast).mpr hf
      cases hl.symm.trans herror
      exact ⟨rfl, isRejection_of_uncounted hf⟩
  | ok n =>
    have hcounted : ¬ Uncounted b.min f := by
      intro h
      cases hl.symm.trans ((least_eq_error_iff kindName _ hleast).mpr h)
    rw [Stray, or_iff_right hcounted, ← most_eq_error_iff kindName hmost]
    cases most kindName b.max b.maxExclusive.isTrue with
    | ok m =>
      constructor
      · rintro ⟨h, -⟩
        cases h
      · rintro ⟨h, -⟩
        cases h
    | error g =>
      constructor
      · rintro ⟨h, hrejection⟩
        cases h
        exact ⟨rfl, hrejection⟩
      · rintro ⟨h, hrejection⟩
        cases h
        exact ⟨rfl, hrejection⟩

end Length

/-- A raw value that fails to compile in other ways than being rejected: a pattern on bytes, or a
predicate on lengths whose bounds are none. -/
inductive Stray (call : Caller) (w : Workspace) : Value → Fault → Prop
  | bytes {r : Regex} (bytes : r.onBytes = true) :
      Stray call w (.regex r) (.noAttribute "'bytes' object" "pattern")
  | length {v : Value} {b : Bounds Value} {w₁ : Workspace} {f : Fault}
      (predicate : v.isCallable = true ∧ v.isClass = false)
      (read : Predicate.bounds call v w = .ok b w₁) (ofLength : b.ofLength.isTrue = true)
      (stray : Length.Stray b f) : Stray call w v f

namespace Construction

variable {call : Caller} {mode : LiteralMode} {v : Value} {w w₁ w' : Workspace} {f : Fault}
  {b : Bounds Value}

/-- A predicate whose bounds are known fails to compile if they are those of lengths, and only in the
way that they do. -/
theorem ofPredicate_eq_error_iff (hb : Predicate.bounds call v w = .ok b w₁) :
    ofPredicate call v w = .error f w' ↔
      b.ofLength.isTrue = true ∧ Length.ofBounds w₁.store.kindName b = .error f ∧ w' = w₁ := by
  rw [ofPredicate, bind_of_ok hb]
  cases hlength : b.ofLength.isTrue with
  | false =>
    rw [if_neg Bool.false_ne_true]
    constructor
    · intro h
      cases h
    · rintro ⟨h, -⟩
      cases h
  | true =>
    rw [if_pos rfl]
    have hrange : Length.bounds call (.range b) w₁
        = fromStore (fun s => Length.ofBounds s.kindName b) w₁ := rfl
    cases hof : Length.ofBounds w₁.store.kindName b with
    | ok lengths =>
      rw [bind_of_ok (hrange.trans (fromStore_of_ok hof))]
      constructor
      · intro h
        cases h
      · rintro ⟨-, h, -⟩
        cases h
    | error g =>
      rw [bind_of_error (hrange.trans (fromStore_of_error hof))]
      constructor
      · intro h
        cases h
        exact ⟨rfl, rfl, rfl⟩
      · rintro ⟨-, h, rfl⟩
        cases h
        rfl

/-- The pattern of bytes is none that a rule could take. -/
theorem ruleOf_bytes {r : Regex} (h : r.onBytes = true) :
    ruleOf call mode (.regex r) w = .error (.noAttribute "'bytes' object" "pattern") w := by
  obtain ⟨source, onBytes, flags⟩ := r
  cases h
  rfl

/-- A raw value that fails to compile is rejected, or it is stray. -/
theorem stray_of_ruleOf (hmild : v.Mild call) (h : ruleOf call mode v w = .error f w') :
    f.isRejection = true ∨ Stray call w v f := by
  unfold ruleOf at h
  split at h
  case h_1 r =>
    cases hbytes : r.onBytes with
    | false =>
      rw [hbytes] at h
      cases h
    | true =>
      rw [hbytes] at h
      cases h
      exact .inr (.bytes hbytes)
  case h_2 => cases mode <;> cases h
  case h_6 =>
    split at h
    · rename_i hcallable
      cases hb : Predicate.bounds call v w with
      | error g w₁ =>
        rw [ofPredicate, bind_of_error hb] at h
        cases h
        exact .inl (Predicate.failsOnly_bounds hmild w _ _ hb)
      | ok b w₁ =>
        obtain ⟨result, hresult⟩ := ofResult?_of_bounds hb
        obtain ⟨hlength, hof, rfl⟩ := (ofPredicate_eq_error_iff hb).mp h
        cases hrejection : f.isRejection with
        | true => exact .inl rfl
        | false =>
          have hstray := (Length.ofBounds_eq_error_iff _ hresult).mp ⟨hof, hrejection⟩
          exact .inr (.length (by simpa using hcallable) hb hlength hstray)
    · cases h
      exact .inl rfl
  all_goals cases h

/-- A stray value does not compile, and is not rejected either. -/
theorem ruleOf_of_stray (mode : LiteralMode) (h : Stray call w v f) :
    (∃ w', ruleOf call mode v w = .error f w') ∧ f.isRejection = false := by
  cases h with
  | bytes hbytes => exact ⟨⟨w, ruleOf_bytes hbytes⟩, rfl⟩
  | @length _ b w₁ _ predicate read ofLength stray =>
    obtain ⟨result, hresult⟩ := ofResult?_of_bounds read
    obtain ⟨hof, hrejection⟩ :=
      (Length.ofBounds_eq_error_iff w₁.store.kindName hresult).mpr stray
    refine ⟨⟨w₁, ?_⟩, hrejection⟩
    have hfails := (ofPredicate_eq_error_iff read).mpr ⟨ofLength, hof, rfl⟩
    obtain ⟨hcallable, hclass⟩ := predicate
    unfold ruleOf
    split
    case h_6 =>
      rw [if_pos (by rw [hcallable, hclass]; rfl)]
      exact hfails
    all_goals cases hcallable

/-- A raw value fails to compile other than by being rejected exactly when it is stray. -/
theorem compile_eq_error_iff (hmild : v.Mild call) :
    ((∃ w', compile call mode v w = .error f w') ∧ f.isRejection = false) ↔ Stray call w v f := by
  unfold compile
  split
  · constructor
    · rintro ⟨⟨w', h⟩, -⟩
      cases h
    · intro h
      cases h with
      | length predicate => cases predicate.1
  · have hsame : ∀ w', (ruleOf call mode v >>= fun rule => alloc rule (.bool true)) w = .error f w' ↔
        ruleOf call mode v w = .error f w' := by
      intro w'
      cases hrule : ruleOf call mode v w with
      | ok rule w₁ =>
        rw [bind_of_ok hrule]
        constructor <;> intro h <;> cases h
      | error g w₁ =>
        rw [bind_of_error hrule]
        constructor <;> intro h <;> cases h <;> rfl
    constructor
    · rintro ⟨⟨w', h⟩, hrejection⟩
      rcases stray_of_ruleOf hmild ((hsame w').mp h) with h | h
      · cases hrejection.symm.trans h
      · exact h
    · intro h
      obtain ⟨⟨w', hrule⟩, hrejection⟩ := ruleOf_of_stray mode h
      exact ⟨⟨w', (hsame w').mpr hrule⟩, hrejection⟩

end Construction

/-! ## Trees of values -/

/-- A tree of raw values: lists of them, and combinators, negations and arrays that are made from
them. -/
inductive Raw where
  | value (v : Value)
  | sequence (parts : List Raw)
  | combined (kind : CombinatorKind) (schemas : Raw)
  | negated (schema : Raw)
  | array (items : Raw)

/-- A value, and the elements of one that is a list. -/
def Value.given : Value → List Value
  | .list id vs => .list id vs :: vs
  | .tuple vs => .tuple vs :: vs
  | v => [v]

theorem Value.mem_given_self (v : Value) : v ∈ v.given := by
  cases v <;> exact List.mem_cons_self

namespace Raw

mutual

/-- The values at the ends of a tree. -/
def leaves : Raw → List Value
  | .value v => v.given
  | .sequence parts => leavesOf parts
  | .combined _ schemas => schemas.leaves
  | .negated schema => schema.leaves
  | .array items => items.leaves

def leavesOf : List Raw → List Value
  | [] => []
  | part :: parts => part.leaves ++ leavesOf parts

end

mutual

/-- The value that a tree stands for. The rules inside are made. -/
def make (call : Caller) : Raw → Build Value
  | .value v => pure v
  | .sequence parts => do list (← makeAll call parts)
  | .combined kind schemas => do
    let v ← schemas.make call
    return .node (← Construction.construct call kind.nodeClass [(.schemas, v)])
  | .negated schema => do
    let v ← schema.make call
    return .node (← Construction.construct call .negation [(.schema, v)])
  | .array items => do
    let v ← items.make call
    return .node (← Construction.construct call .array [(.items, v)])

def makeAll (call : Caller) : List Raw → Build (List Value)
  | [] => pure []
  | part :: parts => do
    let v ← part.make call
    return v :: (← makeAll call parts)

end

/-- Compiles what a tree stands for. -/
def compile (call : Caller) (mode : LiteralMode) (raw : Raw) : Build NodeId := do
  Construction.compile call mode (← raw.make call)

end Raw

namespace Construction

variable {call : Caller} {allowed : Fault → Prop}

/-- A value compiles, in either mode, or meets an allowed fault. -/
def Fit (call : Caller) (allowed : Fault → Prop) (v : Value) : Prop :=
  ∀ mode, (compile call mode v).FailsOnly allowed

theorem fit_node (id : NodeId) : Fit call allowed (.node id) :=
  fun _ => failsOnly_pure id

/-- What cannot be called is rejected, or stands for a rule. -/
theorem fit_list (hreject : ∀ f, f.isRejection = true → allowed f) (id : Nat) (vs : List Value) :
    Fit call allowed (.list id vs) := by
  intro mode w f w' h
  cases h
  exact hreject _ rfl

theorem failsOnly_compileAll {vs : List Value} (h : ∀ v ∈ vs, Fit call allowed v) :
    (compileAll call vs).FailsOnly allowed := by
  induction vs with
  | nil => exact failsOnly_pure []
  | cons v vs ih =>
    unfold compileAll
    refine (h v List.mem_cons_self .enum).bind fun id => ?_
    exact (ih fun u hu => h u (List.mem_cons_of_mem _ hu)).bind fun ids => failsOnly_pure _

theorem failsOnly_children (hreject : ∀ f, f.isRejection = true → allowed f) (owner : NodeClass)
    {v : Value} (h : ∀ u ∈ v.given, Fit call allowed u) :
    (children call owner (some v)).FailsOnly allowed := by
  unfold children
  split
  · rename_i heq
    cases heq
    exact failsOnly_compileAll fun u hu => h u (List.mem_cons_of_mem _ hu)
  · rename_i heq
    cases heq
    exact failsOnly_compileAll fun u hu => h u (List.mem_cons_of_mem _ hu)
  · exact (failsOnly_typeName _).bind fun type => failsOnly_fail (hreject _ rfl)
  · rename_i heq
    cases heq

theorem failsOnly_itemsRule {v : Value} (h : ∀ u ∈ v.given, Fit call allowed u) :
    (itemsRule call v.present).FailsOnly allowed := by
  have hself := h v v.mem_given_self .enum
  cases v with
  | null => exact failsOnly_pure _
  | list | tuple =>
    exact (failsOnly_compileAll fun u hu => h u (List.mem_cons_of_mem _ hu)).bind
      fun ids => failsOnly_pure _
  | _ => exact hself.bind fun id => failsOnly_pure _

theorem failsOnly_construct {c : NodeClass} {args : Arguments}
    (h : (ruleFrom call c args).FailsOnly allowed) : (construct call c args).FailsOnly allowed :=
  h.bind fun rule => failsOnly_alloc rule args.required

end Construction

namespace Raw

open Construction

variable {call : Caller} {allowed : Fault → Prop}

/-- A value is made, of which everything can be compiled, or an allowed fault is met. -/
def Sound (call : Caller) (allowed : Fault → Prop) (b : Build Value) : Prop :=
  b.FailsOnly allowed ∧ ∀ w v w', b w = .ok v w' → ∀ u ∈ v.given, Fit call allowed u

/-- A rule that is made can be compiled, as it is itself what it is compiled to. -/
theorem Sound.construct {b : Build Value} {c : NodeClass} {args : Value → Arguments}
    (hb : Sound call allowed b)
    (h : ∀ v, (∀ u ∈ v.given, Fit call allowed u) → (ruleFrom call c (args v)).FailsOnly allowed) :
    Sound call allowed (do
      let v ← b
      return .node (← Construction.construct call c (args v))) := by
  constructor
  · refine hb.1.bind_of_ok fun w v w₁ hv => ?_
    exact (failsOnly_construct (h v (hb.2 w v w₁ hv))).bind (fun id => failsOnly_pure _) w₁
  · intro w v w' hmade u hu
    obtain ⟨x, w₁, -, hrest⟩ := bind_eq_ok.mp hmade
    obtain ⟨id, w₂, -, hpure⟩ := bind_eq_ok.mp hrest
    cases hpure
    cases List.mem_singleton.mp hu
    exact fit_node id

mutual

/-- What a tree stands for is made as its leaves are. -/
theorem sound_make (hreject : ∀ f, f.isRejection = true → allowed f) : (raw : Raw) →
    (∀ v ∈ raw.leaves, Fit call allowed v) → Sound call allowed (raw.make call)
  | .value v, hleaves => by
    refine ⟨failsOnly_pure v, fun w u w' h x hx => ?_⟩
    cases h
    exact hleaves x hx
  | .sequence parts, hleaves => by
    obtain ⟨hfails, hmade⟩ := sound_makeAll hreject parts hleaves
    refine ⟨hfails.bind fun vs => failsOnly_list vs, fun w u w' h x hx => ?_⟩
    obtain ⟨vs, w₁, hvs, hlist⟩ := bind_eq_ok.mp h
    cases hlist
    rcases List.mem_cons.mp hx with rfl | hx
    · exact fit_list hreject _ vs
    · exact hmade w vs w₁ hvs x hx
  | .combined kind schemas, hleaves => by
    refine (sound_make hreject schemas hleaves).construct fun v hv => ?_
    cases kind <;> exact (failsOnly_children hreject _ hv).map _
  | .negated schema, hleaves => by
    refine (sound_make hreject schema hleaves).construct fun v hv => ?_
    exact (hv v v.mem_given_self .enum).map _
  | .array items, hleaves => by
    refine (sound_make hreject items hleaves).construct fun v hv => ?_
    exact ((failsOnly_itemsRule hv).bind fun rules => failsOnly_pure _).map _

theorem sound_makeAll (hreject : ∀ f, f.isRejection = true → allowed f) : (parts : List Raw) →
    (∀ v ∈ leavesOf parts, Fit call allowed v) → (makeAll call parts).FailsOnly allowed ∧
      ∀ w vs w', makeAll call parts w = .ok vs w' → ∀ v ∈ vs, Fit call allowed v
  | [], _ => by
    refine ⟨failsOnly_pure [], fun w vs w' h v hv => ?_⟩
    cases h
    cases hv
  | part :: parts, hleaves => by
    obtain ⟨hpart, hpartMade⟩ := sound_make hreject part
      fun v hv => hleaves v (List.mem_append_left _ hv)
    obtain ⟨hparts, hpartsMade⟩ := sound_makeAll hreject parts
      fun v hv => hleaves v (List.mem_append_right _ hv)
    refine ⟨hpart.bind fun v => hparts.bind fun vs => failsOnly_pure _, fun w us w' h u hu => ?_⟩
    obtain ⟨v, w₁, hv, hrest⟩ := bind_eq_ok.mp h
    obtain ⟨vs, w₂, hvs, hpure⟩ := bind_eq_ok.mp hrest
    cases hpure
    rcases List.mem_cons.mp hu with rfl | hu
    · exact hpartMade w u w₁ hv u u.mem_given_self
    · exact hpartsMade w₁ vs _ hvs u hu

end

/-- A predicate that the length is below a number. -/
def shorter (bound : Literal) : Value :=
  .function 0 (.compare .lt (.attr .arg "length") (.const bound))

/-- Neither a text nor an array of a text and `true`, or an array with less than ten elements. -/
def nested : Raw :=
  .combined .anyOf (.sequence [.value (shorter (.int 10)),
    .negated (.array (.sequence [.value (.text "a"), .value (.bool true)]))])

theorem mild_shorter_ten : (shorter (.int 10)).Mild Build.call := by
  intro _ n w f w' h
  cases h

theorem mild_shorter_infinity : (shorter (.float "inf")).Mild Build.call := by
  intro _ n w f w' h
  cases h

end Raw

end DraftSchema
