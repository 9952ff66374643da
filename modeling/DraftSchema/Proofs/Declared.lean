import DraftSchema.Builder
import DraftSchema.Proofs.Reading

/-!
# Paths that a model declares

A model accepts a path when each name of it is a field of the type that the names before lead to.
The rules that there are only count for how a fault is worded, and so not for what is accepted.
-/

namespace DraftSchema

namespace Catalog

variable {α β γ : Type} {part : Fault → γ}

/-- What a computation comes to if only a part of a fault counts, such as its kind. -/
def outcome (part : Fault → γ) (x : Except Fault α) : Except γ α := x.mapError part

theorem outcome_eq_ok {x : Except Fault α} {a : α} : outcome part x = .ok a ↔ x = .ok a := by
  cases x <;> simp [outcome, Except.mapError]

theorem outcome_eq_error {x : Except Fault α} {k : γ} :
    outcome part x = .error k ↔ ∃ f, x = .error f ∧ part f = k := by
  cases x <;> simp [outcome, Except.mapError]

theorem outcome_bind (x : Except Fault α) (k : α → Except Fault β) :
    outcome part (x >>= k) = outcome part x >>= fun a => outcome part (k a) := by
  cases x <;> rfl

theorem outcome_map (f : α → β) (x : Except Fault α) :
    outcome part (f <$> x) = f <$> outcome part x := by
  cases x <;> rfl

/-! ## What annotations come to -/

variable {catalog : Catalog} {s t : Store} {read : String → Except Fault Value}

/-- A part of a fault that does not say what is no key. -/
def Wordless (part : Fault → γ) : Prop := ∀ a b, part (.unhashable a) = part (.unhashable b)

theorem outcome_unhashable? (hpart : Wordless part) (s t : Store) (ts : List (TypeForm Value)) :
    (Typing.unhashable? s ts).map part = (Typing.unhashable? t ts).map part := by
  induction ts with
  | nil => rfl
  | cons ty ts ih =>
    unfold Typing.unhashable?
    split
    · exact congrArg some (hpart _ _)
    · exact ih

theorem outcome_choice (hpart : Wordless part) (s t : Store) (ts : List (TypeForm Value)) :
    outcome part (Typing.choice s ts) = outcome part (Typing.choice t ts) := by
  have h := outcome_unhashable? hpart s t (ts.flatMap TypeForm.alternatives)
  unfold Typing.choice
  split
  · rfl
  · cases hs : Typing.unhashable? s (ts.flatMap TypeForm.alternatives) <;>
      cases ht : Typing.unhashable? t (ts.flatMap TypeForm.alternatives) <;>
      simp_all [outcome, Except.mapError]

mutual

/-- The rules that there are do not count for what a type comes to. -/
theorem outcome_resolveType (hpart : Wordless part) (s t : Store)
    (read : String → Except Fault Value) : (ty : TypeForm Value) →
      outcome part (resolveType s read ty) = outcome part (resolveType t read ty)
  | .list ty => by
    simp only [resolveType, outcome_bind, outcome_resolveType hpart s t read ty]
  | .dict k v => by
    simp only [resolveType, outcome_bind, outcome_resolveType hpart s t read k,
      outcome_resolveType hpart s t read v]
  | .generic name ts => by
    simp only [resolveType, outcome_bind, outcome_resolveTypes hpart s t read ts]
  | .annotated ty _ => by
    simp only [resolveType, outcome_resolveType hpart s t read ty]
  | .union barred ts => by
    simp only [resolveType, outcome_bind, outcome_resolveTypes hpart s t read ts]
    cases barred
    · simp only [Bool.false_eq_true, if_false, outcome_choice hpart s t]
    · rfl
  | .other v => by cases v <;> rfl
  | .basic _ | .any | .model _ | .reference _ => rfl

theorem outcome_resolveTypes (hpart : Wordless part) (s t : Store)
    (read : String → Except Fault Value) : (ts : List (TypeForm Value)) →
      outcome part (resolveTypes s read ts) = outcome part (resolveTypes t read ts)
  | [] => rfl
  | ty :: ts => by
    simp only [resolveTypes, outcome_bind, outcome_resolveType hpart s t read ty,
      outcome_resolveTypes hpart s t read ts]

end

theorem outcome_resolve (hpart : Wordless part) (s t : Store) (read : String → Except Fault Value)
    (hint : Value) : outcome part (resolve s read hint) = outcome part (resolve t read hint) := by
  cases hint with
  | type ty => simp only [resolve, outcome_map, outcome_resolveType hpart s t read ty]
  | _ => rfl

theorem outcome_resolveFields (hpart : Wordless part) (s t : Store)
    (read : String → Except Fault Value) (found hints : Entries String Value) :
    outcome part (resolveFields s read found hints)
      = outcome part (resolveFields t read found hints) := by
  induction hints generalizing found with
  | nil => rfl
  | cons e hints ih =>
    simp only [resolveFields, outcome_bind, outcome_resolve hpart s t, ih]

/-- The fields of a declared class: what the annotations of all of them come to, or its own ones as
they are written if something in the annotations is unknown. -/
theorem fields_eq_ok {r : ModelRef} {m : Model} {es : Entries String Value}
    (hm : catalog[r.number]? = some m) : catalog.fields s read (.type (.model r)) = .ok es ↔
      resolveFields s read [] (catalog.inherited m) = .ok es ∨
      ∃ f, resolveFields s read [] (catalog.inherited m) = .error f ∧ isUnknown f = true ∧
        es = m.fields := by
  simp only [fields, hm]
  cases resolveFields s read [] (catalog.inherited m) with
  | ok found => simp
  | error f =>
    cases hf : isUnknown f with
    | false => simp [hf]
    | true => simpa [hf] using eq_comm

/-- The rules that there are do not count for the fields that a type declares. -/
theorem fields_congr {type : Value} {es : Entries String Value} (t : Store)
    (h : catalog.fields s read type = .ok es) : catalog.fields t read type = .ok es := by
  unfold fields at h ⊢
  split at h
  · split at h
    · exact h
    · rename_i m hm
      have hkind : Wordless Fault.kind := fun _ _ => rfl
      have hout := outcome_resolveFields hkind s t read [] (catalog.inherited m)
      cases hs : resolveFields s read [] (catalog.inherited m) with
      | ok found =>
        rw [hs] at h hout
        rw [outcome_eq_ok.mp hout.symm]
        exact h
      | error f =>
        rw [hs] at h hout
        obtain ⟨g, hg, hkind⟩ := outcome_eq_error.mp hout.symm
        have hunknown : isUnknown g = isUnknown f := by rw [isUnknown, isUnknown, hkind]
        rw [hg]
        dsimp only at h ⊢
        rw [hunknown]
        cases hf : isUnknown f <;> rw [hf] at h
        · cases h
        · exact h
  · exact h

/-! ## Optional types -/

/-- What is left of an annotation without the choice of nothing. -/
inductive Stripped : Value → Value → Prop
  /-- A choice of one type or nothing, which may stand before and behind it, leaves the type. -/
  | optional {barred : Bool} {before after : List (TypeForm Value)} {t : TypeForm Value}
      (present : t.isAbsent = false) (nothing : ∀ u ∈ before ++ after, u.isAbsent = true) :
      Stripped (.type (.union barred (before ++ t :: after))) (.ofType t)
  /-- A choice of several types stays what it is, be nothing among them or not. -/
  | several {barred : Bool} {members : List (TypeForm Value)} {t u : TypeForm Value}
      (two : [t, u].Sublist members) (first : t.isAbsent = false) (second : u.isAbsent = false) :
      Stripped (.type (.union barred members)) (.type (.union barred members))
  /-- So does a choice of nothing. -/
  | nothing {barred : Bool} {members : List (TypeForm Value)}
      (nothing : ∀ t ∈ members, t.isAbsent = true) :
      Stripped (.type (.union barred members)) (.type (.union barred members))
  /-- So does all that is no choice. -/
  | single {v : Value} (single : ∀ barred members, v ≠ .type (.union barred members)) : Stripped v v

theorem required?_of_optional {barred : Bool} {before after : List (TypeForm Value)}
    {t : TypeForm Value} (present : t.isAbsent = false)
    (nothing : ∀ u ∈ before ++ after, u.isAbsent = true) :
    (TypeForm.union barred (before ++ t :: after)).required? = some t := by
  obtain ⟨hbefore, hafter⟩ := List.forall_mem_append.mp nothing
  have hfilter : (before ++ t :: after).filter (!·.isAbsent) = [t] := by
    rw [List.filter_append, List.filter_cons_of_pos (by simp [present]),
      List.filter_eq_nil_iff.mpr (by simpa using hbefore),
      List.filter_eq_nil_iff.mpr (by simpa using hafter)]
    rfl
  rw [TypeForm.required?, hfilter]

theorem required?_of_several {barred : Bool} {members : List (TypeForm Value)}
    {t u : TypeForm Value} (two : [t, u].Sublist members) (first : t.isAbsent = false)
    (second : u.isAbsent = false) : (TypeForm.union barred members).required? = none := by
  have hfilter : [t, u].Sublist (members.filter (!·.isAbsent)) := by
    have hsub := two.filter (!·.isAbsent)
    simpa [first, second] using hsub
  have hlength := hfilter.length_le
  unfold TypeForm.required?
  dsimp only
  split
  · rename_i h
    rw [h] at hlength
    simp at hlength
  · rfl

theorem required?_of_nothing {barred : Bool} {members : List (TypeForm Value)}
    (nothing : ∀ t ∈ members, t.isAbsent = true) :
    (TypeForm.union barred members).required? = none := by
  have hfilter : members.filter (!·.isAbsent) = [] := List.filter_eq_nil_iff.mpr (by simpa using nothing)
  rw [TypeForm.required?, hfilter]

theorem unwrap_of_single {v : Value} (single : ∀ barred members, v ≠ .type (.union barred members)) :
    unwrap v = v := by
  unfold unwrap
  split
  · rename_i t
    cases t with
    | union barred members => exact absurd rfl (single barred members)
    | _ => rfl
  · rfl

/-- What an annotation leads to is what is left of it without the choice of nothing. -/
theorem stripped_unwrap (v : Value) : Stripped v (unwrap v) := by
  by_cases hchoice : ∃ barred members, v = .type (.union barred members)
  case neg =>
    have hsingle : ∀ barred members, v ≠ .type (.union barred members) :=
      fun barred members h => hchoice ⟨barred, members, h⟩
    rw [unwrap_of_single hsingle]
    exact .single hsingle
  case pos =>
    obtain ⟨barred, members, rfl⟩ := hchoice
    -- by how many of the members are something
    cases hfilter : members.filter (!·.isAbsent) with
    | nil =>
      have hnothing : ∀ t ∈ members, t.isAbsent = true := by
        simpa using List.filter_eq_nil_iff.mp hfilter
      rw [unwrap, required?_of_nothing hnothing]
      exact .nothing hnothing
    | cons t rest =>
      cases rest with
      | nil =>
        obtain ⟨before, after, rfl, hbefore, hpresent, hafter⟩ := List.filter_eq_cons_iff.mp hfilter
        have hpresent : t.isAbsent = false := by simpa using hpresent
        have hnothing : ∀ u ∈ before ++ after, u.isAbsent = true :=
          List.forall_mem_append.mpr
            ⟨by simpa using hbefore, by simpa using List.filter_eq_nil_iff.mp hafter⟩
        rw [unwrap, required?_of_optional hpresent hnothing]
        exact .optional hpresent hnothing
      | cons u rest =>
        have hin : ∀ x ∈ t :: u :: rest, x.isAbsent = false := by
          rw [← hfilter]
          intro x hx
          simpa using (List.mem_filter.mp hx).2
        have htwo : [t, u].Sublist members := by
          have hfirst : [t, u].Sublist (t :: u :: rest) :=
            ((List.nil_sublist rest).cons_cons u).cons_cons t
          rw [← hfilter] at hfirst
          exact hfirst.trans List.filter_sublist
        have hfirst := hin t List.mem_cons_self
        have hsecond := hin u (List.mem_cons_of_mem _ List.mem_cons_self)
        rw [unwrap, required?_of_several htwo hfirst hsecond]
        exact .several htwo hfirst hsecond

theorem stripped_iff {v u : Value} : Stripped v u ↔ u = unwrap v := by
  constructor
  · intro h
    cases h with
    | optional present nothing => rw [unwrap, required?_of_optional present nothing]; rfl
    | several two first second => rw [unwrap, required?_of_several two first second]; rfl
    | nothing nothing => rw [unwrap, required?_of_nothing nothing]; rfl
    | single single => rw [unwrap_of_single single]
  · rintro rfl
    exact stripped_unwrap v

/-! ## Accepted paths -/

/-- Each name of a path is a field of the type that the names before lead to. -/
inductive Accepts (catalog : Catalog) (s : Store) (read : String → Except Fault Value) :
    Value → List Value → Prop
  | nil (type : Value) : Accepts catalog s read type []
  | cons {type hint : Value} {es : Entries String Value} {name : String} {rest : List Value}
      (fields : catalog.fields s read type = .ok es) (field : es.get? name = some hint)
      (next : Accepts catalog s read (unwrap hint) rest) :
      Accepts catalog s read type (.text name :: rest)

/-- A path is declared when its first name is a field of the type, and what that leads to declares
the rest. -/
theorem check_cons_eq_ok {label : Value → Except Fault String} {seen rest : List Value}
    {type name : Value} : catalog.check s read label seen type (name :: rest) = .ok () ↔
      ∃ field es hint, name = .text field ∧ catalog.fields s read type = .ok es ∧
        es.get? field = some hint ∧
        catalog.check s read label (seen ++ [name]) (unwrap hint) rest = .ok () := by
  -- where the name is no field all that is left is a fault
  have undeclared : ∀ v : Value, (do
      let pointer ← s.pointer (seen ++ [v])
      throw (.refused (.undeclared (← s.valueText v) (← label type) pointer))) ≠
        (.ok () : Except Fault Unit) := by
    intro v h
    obtain ⟨pointer, -, h⟩ := except_bind_eq_ok.mp h
    obtain ⟨shown, -, h⟩ := except_bind_eq_ok.mp h
    obtain ⟨owner, -, h⟩ := except_bind_eq_ok.mp h
    cases h
  rw [check]
  constructor
  · intro h
    obtain ⟨es, hes, h⟩ := except_bind_eq_ok.mp h
    cases hname : s.unhashable? name with
    | some f =>
      rw [hname] at h
      cases h
    | none =>
      rw [hname] at h
      dsimp only at h
      split at h
      · rename_i hint hfound
        split at hfound
        · exact ⟨_, es, hint, rfl, hes, hfound, h⟩
        · cases hfound
      · exact absurd h (undeclared name)
  · rintro ⟨field, es, hint, rfl, hes, hfield, h⟩
    refine except_bind_eq_ok.mpr ⟨es, hes, ?_⟩
    simp only [Store.unhashable?_text, hfield]
    exact h

/-- A model declares a path exactly when it accepts it. -/
theorem check_eq_ok {label : Value → Except Fault String} {seen path : List Value} {type : Value} :
    catalog.check s read label seen type path = .ok () ↔ catalog.Accepts s read type path := by
  induction path generalizing seen type with
  | nil => exact ⟨fun _ => .nil type, fun _ => rfl⟩
  | cons name rest ih =>
    rw [check_cons_eq_ok]
    constructor
    · rintro ⟨field, es, hint, rfl, hes, hfield, h⟩
      exact .cons hes hfield (ih.mp h)
    · intro h
      cases h with
      | cons hes hfield hnext => exact ⟨_, _, _, rfl, hes, hfield, ih.mpr hnext⟩

theorem Accepts.congr {type : Value} {path : List Value} (h : catalog.Accepts s read type path)
    (t : Store) : catalog.Accepts t read type path := by
  induction h with
  | nil type => exact .nil type
  | cons hfields hfield _ ih => exact .cons (fields_congr t hfields) hfield ih

end Catalog

namespace Builder

open Build

variable {call : Caller} {id : NodeId} {path : List Value} {w w' : Workspace}

/-- What the annotation in a text stands for where there are some declared classes. -/
def read (call : Caller) (models : Catalog) (text : String) : Except Fault Value :=
  apart (meaning call text) (annotationSpace models)

/-- The model of a builder declares a path exactly when it accepts it, if there is one. -/
theorem checkModel_eq_ok : checkModel call id path w = .ok () w ↔
    ∀ model, (modelOf w.store id).present = some model →
      w.models.Accepts w.store (read call w.models) model path := by
  unfold checkModel
  split
  · rename_i hnone
    simp [hnone]
  · rename_i model hmodel
    simp only [hmodel, Option.some.injEq, forall_eq']
    have hcheck : w.models.check w.store (read call w.models) (modelLabel w.store) [] model path
        = .ok () ↔ _ := Catalog.check_eq_ok
    rw [← hcheck]
    unfold read
    cases w.models.check w.store _ (modelLabel w.store) [] model path with
    | ok => exact ⟨fun _ => rfl, fun _ => rfl⟩
    | error f => exact ⟨nofun, nofun⟩

/-- Only the model of a builder and the declared classes count for which paths are declared. -/
theorem checkModel_congr (hmodels : w'.models = w.models)
    (hmodel : modelOf w'.store id = modelOf w.store id)
    (h : checkModel call id path w = .ok () w) : checkModel call id path w' = .ok () w' := by
  rw [checkModel_eq_ok] at h ⊢
  intro model hm
  rw [hmodel] at hm
  rw [hmodels]
  exact (h model hm).congr w'.store

end Builder

end DraftSchema
