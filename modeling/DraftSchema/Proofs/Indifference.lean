import DraftSchema.Proofs.Likewise
import DraftSchema.Proofs.Uniform

/-!
# Calls that are indifferent to the kind of a builder

A selector or a value that is a function is run for what it says: a path of names, or a comparison.
If it says the same whatever the kind of the builder is, then the call stands for the same on a
dictionary as on a builder of one object. An explicit path and a value that is no function say
nothing else anywhere; functions that access names, or compare their argument with a number, do not
look at the builder either.
-/

namespace DraftSchema

theorem Fault.isReading_of_sort {f g : Fault} (h : f.sort = g.sort) :
    f.isReading = g.isReading := by
  have hcode : ∀ f : Fault, f.sort.2.1.any Code.isReading = f.isReading := fun f => by
    cases f <;> rfl
  rw [← hcode, ← hcode, h]

namespace Builder

open Build

variable {α β : Type} {call : Caller} {id node : NodeId} {path : List Value} {w w' u u' : Workspace}
  {selector value : Value}

/-! ## What a function says -/

/-- The path that a selector has recorded. -/
def recordedPath? : Value → Option (List Value)
  | .recorder _ path => some path
  | _ => none

/-- A function says the same whatever the kind of a builder is. Run on a new argument it comes to
values of which the same is read off, or to faults of one sort. -/
def SaysAlike (call : Caller) (id : NodeId) (argument : Nat → Value) (read : Value → α)
    (function : Value) : Prop :=
  ∀ w w', Lifted id w w' → ∀ n n', Likewise id ((read <$> call function [argument n]) w)
    ((read <$> call function [argument n']) w')

/-- A selector does not depend on the kind of a builder, and does not name it. -/
structure IndifferentSelector (call : Caller) (id : NodeId) (selector : Value) : Prop where
  alike : selector.isCallable = true → SaysAlike call id (.recorder · []) recordedPath? selector
  names : ∀ w path u, Selector.path call selector w = .ok path u → ∀ name ∈ path, id ∉ name.nodes

/-- A value does not depend on the kind of a builder, and is not the builder itself. -/
structure IndifferentValue (call : Caller) (id : NodeId) (value : Value) : Prop where
  alike : value.isCallable = true → SaysAlike call id (.operand · false) Predicate.ofResult? value
  beside : value ≠ .node id

theorem map_of_ok {b : Build β} {read : β → α} {v : β} (h : b w = .ok v u) :
    (read <$> b) w = .ok (read v) u :=
  bind_of_ok h

theorem map_of_error {b : Build β} {read : β → α} {f : Fault} (h : b w = .error f u) :
    (read <$> b) w = .error f u :=
  bind_of_error h

/-- What follows the reading of a function goes alike, if what is read off its results is the same. -/
theorem Likewise.read {b b' : Build Value} {read : Value → α} {k k' : Value → Build β}
    {replaced : Fault → Fault} (h : Likewise id ((read <$> b) w) ((read <$> b') w'))
    (hwords : ∀ f g : Fault, f.sort = g.sort → (replaced f).sort = (replaced g).sort)
    (hrest : ∀ v v' u u', read v = read v' → Lifted id u u' → Likewise id (k v u) (k' v' u')) :
    Likewise id ((reading replaced b >>= k) w) ((reading replaced b' >>= k') w') := by
  cases hb : b w with
  | ok v u =>
    cases hb' : b' w' with
    | ok v' u' =>
      rw [map_of_ok hb, map_of_ok hb'] at h
      rw [bind_of_ok (reading_of_ok replaced hb), bind_of_ok (reading_of_ok replaced hb')]
      generalize hc : read v = c at h
      generalize hc' : read v' = c' at h
      cases h with
      | ok _ lifted => exact hrest v v' u u' (hc.trans hc'.symm) lifted
    | error f u' =>
      rw [map_of_ok hb, map_of_error hb'] at h
      cases h
  | error f u =>
    cases hb' : b' w' with
    | ok v' u' =>
      rw [map_of_error hb, map_of_ok hb'] at h
      cases h
    | error f' u' =>
      rw [map_of_error hb, map_of_error hb'] at h
      rw [bind_of_error (reading_of_error replaced hb), bind_of_error (reading_of_error replaced hb')]
      cases h with
      | error sort lifted =>
        refine .error ?_ lifted
        rw [Fault.isReading_of_sort sort, Fault.kind_of_sort sort]
        split
        · exact hwords f f' sort
        · exact sort

/-! ## What a call stands for -/

theorem likewise_names (h : Lifted id w w') (vs : List Value) :
    Likewise id (Selector.names vs w) (Selector.names vs w') := by
  induction vs with
  | nil => exact .ok [] h
  | cons v vs ih =>
    cases v with
    | text name => exact ih.bind fun _ _ _ _ hu => .ok _ hu
    | _ => exact .error rfl h

theorem recorded_eq (call : Caller) (selector : Value) : Selector.recorded call selector = (do
    let start ← recorder []
    let result ← reading Selector.worded (call selector [start])
    match recordedPath? result with
    | some path => pure path
    | none => refuse (.notAPath none)) := by
  refine bind_congr fun start => bind_congr fun result => ?_
  cases result <;> rfl

theorem sort_worded {f g : Fault} (h : f.sort = g.sort) :
    (Selector.worded f).sort = (Selector.worded g).sort := by
  unfold Selector.worded
  rw [Fault.kind_of_sort h]
  split <;> rfl

theorem likewise_path (h : Lifted id w w') (hs : IndifferentSelector call id selector) :
    Likewise id (Selector.path call selector w) (Selector.path call selector w') := by
  unfold Selector.path
  split
  · exact likewise_names h _
  · exact likewise_names h _
  · split
    case isTrue hcallable =>
      have hstart : ∀ v : Workspace,
          recorder [] v = .ok (.recorder v.next []) { v with next := v.next + 1 } := fun _ => rfl
      rw [recorded_eq, bind_of_ok (hstart w), bind_of_ok (hstart w')]
      refine (hs.alike hcallable _ _ (h.renumber _ _) _ _).read (fun _ _ => sort_worded)
        fun v v' u u' hsame hu => ?_
      rw [hsame]
      cases recordedPath? v' with
      | some path => exact .ok path hu
      | none => exact .error rfl hu
    case isFalse => exact .error rfl h

theorem likewise_bounds (h : Lifted id w w') (hcallable : value.isCallable = true)
    (hv : IndifferentValue call id value) :
    Likewise id (Predicate.bounds call value w) (Predicate.bounds call value w') := by
  have hstart : ∀ v : Workspace,
      operand false v = .ok (.operand v.next false) { v with next := v.next + 1 } := fun _ => rfl
  simp only [Predicate.bounds, hcallable, Bool.not_true, Bool.false_eq_true, if_false]
  rw [bind_of_ok (hstart w), bind_of_ok (hstart w')]
  refine (hv.alike hcallable _ _ (h.renumber _ _) _ _).read (fun _ _ _ => rfl)
    fun v v' u u' hsame hu => ?_
  rw [hsame]
  cases Predicate.ofResult? v' with
  | some b => exact .ok b hu
  | none => exact .error rfl hu

theorem likewise_ofPredicate (h : Lifted id w w') (hcallable : value.isCallable = true)
    (hv : IndifferentValue call id value) :
    Likewise id (Construction.ofPredicate call value w)
      (Construction.ofPredicate call value w') := by
  refine (likewise_bounds h hcallable hv).bind fun b u u' _ hu => ?_
  have hlengths : Likewise id (Length.bounds call (.range b) u) (Length.bounds call (.range b) u') :=
    hu.fromStore (g := fun s => Length.ofBounds s.kindName b) (Length.outcome_ofBounds _ _ b)
  split
  · exact hlengths.bind fun _ _ _ _ hu => .ok _ hu
  · exact .ok _ hu

theorem likewise_ruleOf (h : Lifted id w w') (hv : IndifferentValue call id value) :
    Likewise id (Construction.ruleOf call .pattern value w)
      (Construction.ruleOf call .pattern value w') := by
  unfold Construction.ruleOf
  split
  case h_1 r =>
    cases hbytes : r.onBytes with
    | false => exact .ok _ h
    | true => exact .error rfl h
  case h_6 =>
    split
    case isTrue hfunction =>
      exact likewise_ofPredicate h (Bool.and_eq_true_iff.mp hfunction).1 hv
    case isFalse => exact .error rfl h
  all_goals exact .ok _ h

theorem Lifted.alloc {rule : Rule} (h : Lifted id w w') (hrule : rule.references = [])
    (required : Value) : Likewise id (Build.alloc rule required w) (Build.alloc rule required w') := by
  obtain ⟨r, hr, hkind⟩ := h.builder
  have hsize : w'.store.size = w.store.size := by rw [h.store, Store.size_recast]
  have hthere : Build.alloc rule required w' = .ok w.store.size
      { w' with store := (w'.store.alloc ⟨rule, required⟩).1 } := hsize ▸ rfl
  have hobject : (w.store.alloc ⟨rule, required⟩).1.object? id = some r := by
    rw [Store.object?, Store.get?_alloc_lt w.store _ h.lt_size]
    exact hr
  rw [hthere]
  refine .ok w.store.size ⟨?_, h.models, ⟨r, hobject, hkind⟩, h.aside.alloc ?_⟩
  · rw [h.store]
    exact Store.alloc_modifyObject w.store _ _ h.lt_size
  · rw [hrule]
    exact List.not_mem_nil

theorem likewise_compile (h : Lifted id w w') (hv : IndifferentValue call id value) :
    Likewise id (Construction.compile call .pattern value w)
      (Construction.compile call .pattern value w') := by
  unfold Construction.compile
  split
  · exact .ok _ h
  · exact (likewise_ruleOf h hv).bind fun rule _ _ hrule hu =>
      hu.alloc (Construction.references_of_ruleOf hrule) _

/-- The rule that a value stands for is a new one, unless it is the value. -/
theorem ne_of_compile (h : Lifted id w w') (hv : IndifferentValue call id value)
    (hcompile : Construction.compile call .pattern value w = .ok node u) : node ≠ id := by
  rintro rfl
  have hrule := likewise_ruleOf h hv
  unfold Construction.compile at hcompile
  split at hcompile
  · cases hcompile
    exact hv.beside rfl
  · obtain ⟨rule, v, hmade, halloc⟩ := bind_eq_ok.mp hcompile
    rw [hmade] at hrule
    obtain ⟨v', hv'⟩ := hrule.lifted
    cases halloc
    exact Nat.lt_irrefl _ hv'.lt_size

/-- A call with an indifferent selector and an indifferent value stands for the same in both
workspaces. -/
theorem standsAlike_of_indifferent (h : Lifted id w w') (hs : IndifferentSelector call id selector)
    (hv : IndifferentValue call id value) : StandsAlike call id (pure (selector, value)) w w' where
  likewise := by
    rw [meant, pure_bind]
    exact (likewise_path h hs).bind fun _ _ _ _ hu =>
      (likewise_compile hu hv).bind fun _ _ _ _ hu => .ok _ hu
  apart path node w₁ hmeant := by
    rw [meant, pure_bind] at hmeant
    obtain ⟨found, u, hpath, hrest⟩ := bind_eq_ok.mp hmeant
    obtain ⟨made, v, hcompile, hpure⟩ := bind_eq_ok.mp hrest
    cases hpure
    have hlikewise := likewise_path h hs
    rw [hpath] at hlikewise
    obtain ⟨u', hu'⟩ := hlikewise.lifted
    exact ⟨ne_of_compile hu' hv hcompile, hs.names w path u hpath⟩

/-- A run of such calls stands for the same in both workspaces. -/
theorem allAlike_of_indifferent {calls : List (Value × Value)} (h : Lifted id w w')
    (hcalls : ∀ c ∈ calls, IndifferentSelector call id c.1 ∧ IndifferentValue call id c.2) :
    AllAlike call id (calls.map pure) w w' := by
  induction calls generalizing w w' with
  | nil => trivial
  | cons c rest ih =>
    obtain ⟨hs, hv⟩ := hcalls c List.mem_cons_self
    have hmade : StandsAlike call id (pure c) w w' := standsAlike_of_indifferent h hs hv
    obtain ⟨-, -, -, -, -, hafter⟩ := (likewise_offer hmade).attempt
    exact ⟨hmade, ih hafter fun c hmem => hcalls c (List.mem_cons_of_mem _ hmem)⟩

/-! ## Explicit paths and values that are no functions -/

/-- The names of an explicit path are texts. -/
theorem nodes_of_names {vs found : List Value} {name : Value}
    (h : Selector.names vs w = .ok found u) (hname : name ∈ found) : name.nodes = [] := by
  induction vs generalizing found w u with
  | nil =>
    cases h
    cases hname
  | cons v vs ih =>
    cases v with
    | text first =>
      obtain ⟨rest, u, hrest, hpure⟩ := bind_eq_ok.mp h
      cases hpure
      rcases List.mem_cons.mp hname with rfl | hname
      · rfl
      · exact ih hrest hname
    | _ => cases h

theorem nodes_of_path {name : Value} (hs : selector.isCallable = false)
    (hpath : Selector.path call selector w = .ok path u) (hname : name ∈ path) :
    name.nodes = [] := by
  unfold Selector.path at hpath
  split at hpath
  · exact nodes_of_names hpath hname
  · exact nodes_of_names hpath hname
  · rw [if_neg (by simp [hs])] at hpath
    cases hpath

theorem indifferentSelector_of_explicit (hs : selector.isCallable = false) :
    IndifferentSelector call id selector where
  alike h := absurd (hs.symm.trans h) Bool.false_ne_true
  names _ _ _ hpath _ hname := nodes_of_path hs hpath hname ▸ List.not_mem_nil

theorem indifferentValue_of_explicit (hv : value.isCallable = false) (hid : value ≠ .node id) :
    IndifferentValue call id value where
  alike h := absurd (hv.symm.trans h) Bool.false_ne_true
  beside := hid

/-! ## Functions that do not look at a builder -/

/-- A function that changes no rule and no model, and of which the same is read off in all workspaces,
says the same whatever the kind of a builder is. -/
theorem saysAlike_of_run {argument : Nat → Value} {read : Value → α} {function : Value} (c : α)
    (hrun : ∀ n w, ∃ v next, call function [argument n] w = .ok v { w with next } ∧ read v = c) :
    SaysAlike call id argument read function := by
  intro w w' h n n'
  obtain ⟨v, next, hv, hread⟩ := hrun n w
  obtain ⟨v', next', hv', hread'⟩ := hrun n' w'
  rw [map_of_ok hv, map_of_ok hv', hread, hread']
  exact .ok c (h.renumber _ _)

theorem indifferent_chain {accessors : List Accessor}
    (h : ∀ a ∈ accessors, a.isRecorded = true) (m : Nat) :
    IndifferentSelector Build.call id (.function m (Accessor.chain accessors)) where
  alike _ := by
    refine saysAlike_of_run (some (accessors.map fun a => .text a.name)) fun n w => ?_
    obtain ⟨k, hrun⟩ := Accessor.call_chain h m n w
    exact ⟨_, _, hrun, rfl⟩
  names w path u hpath name hname := by
    obtain ⟨used, hnames⟩ := (Spells.function m rfl h).path
    cases (hnames w).symm.trans hpath
    obtain ⟨text, -, rfl⟩ := List.mem_map.mp hname
    exact List.not_mem_nil

/-- Comparisons of the argument, or of its length, with a number. -/
theorem indifferent_comparison {l : Literal} {c : Value} {q : Rat} {op : Relation}
    {body : Expression Literal} (hl : l.number? = some c) (hx : c.denote? = some (.exact q))
    (hbody : body ∈ Length.spellings op l) (m : Nat) :
    IndifferentValue Build.call id (.function m body) where
  alike _ := by
    obtain ⟨ofLength, hspelling⟩ := Length.run_spelling hl hx hbody
    refine saysAlike_of_run (Predicate.ofResult? (.comparison 0 0 ofLength op c)) fun n w => ?_
    obtain ⟨record, measured, next, hrun⟩ := hspelling m n w
    exact ⟨_, next, hrun, rfl⟩
  beside h := by cases h

end Builder

end DraftSchema
