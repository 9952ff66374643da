import DraftSchema.Evaluation.Call
import DraftSchema.Proofs.Growth
import DraftSchema.Proofs.Output
import DraftSchema.Proofs.Refusal

/-!
# What the path of a selector says

A selector is run on a recorder, and its path is what the recorder that comes back has recorded. On
nested mappings the same body looks the names up. The two runs go the same way as long as the body
does nothing with a recorder that is not refused but access names on it: then it comes to what the
data has under the path. An equality is not refused: it tells recorders apart by what they are, and
data by what it holds.
-/

namespace DraftSchema

/-! ## Data -/

namespace Value

/-- What is found in nested mappings under names, one after the other. -/
def under? : Value → List Value → Option Value
  | v, [] => some v
  | .dict _ entries, name :: rest => (Entries.get? entries name).bind fun v => v.under? rest
  | _, _ :: _ => none

theorem under?_snoc (v : Value) (path : List Value) (name : Value) :
    v.under? (path ++ [name]) = (v.under? path).bind fun u => u.under? [name] := by
  induction path generalizing v with
  | nil => rfl
  | cons key rest ih =>
    cases v with
    | dict id entries =>
      simp only [List.cons_append, under?]
      cases Entries.get? entries key with
      | none => rfl
      | some x => exact ih x
    | _ => rfl

/-- Whether a value has no parts under names. -/
def isLeaf : Value → Bool
  | .dict .. | .type _ | .recorder .. => false
  | _ => true

/-- Mappings in which all that is held is again such a mapping, or has no parts under names. -/
inductive Nested : Value → Prop
  | leaf {v : Value} (h : v.isLeaf = true) : Nested v
  | mapping {id : Nat} {entries : Entries Value Value} (h : ∀ e ∈ entries, Nested e.2) :
    Nested (.dict id entries)

theorem Nested.get? {id : Nat} {entries : Entries Value Value} {name v : Value}
    (h : Nested (.dict id entries)) (hv : entries.get? name = some v) : v.Nested := by
  cases h with
  | leaf h => cases h
  | mapping h =>
    obtain ⟨k, -, hk⟩ := Store.mem_of_get? hv
    exact h _ hk

theorem Nested.under? {v u : Value} {path : List Value} (h : v.Nested)
    (hu : v.under? path = some u) : u.Nested := by
  induction path generalizing v with
  | nil =>
    cases hu
    exact h
  | cons name rest ih =>
    cases v with
    | dict id entries =>
      obtain ⟨x, hx, hu⟩ := Option.bind_eq_some_iff.mp hu
      exact ih (h.get? hx) hu
    | _ => cases hu

end Value

/-! ## Bodies that only access names -/

/-- Whether a literal is something built in that can be called, but not with a recording. -/
def Literal.isStrict : Literal → Bool
  | .builtin _ => true
  | .type (.basic name) => ["int", "float", "bool", "list", "tuple", "dict"].contains name
  | _ => false

/-- A body that does nothing with its argument, or a part of it, that a recorder does not refuse but
accesses names on it, and hands it to functions of this kind. -/
inductive Expression.Straight : Expression Literal → Prop
  | arg : Straight .arg
  | closed {e : Expression Literal} (h : e.closed = true) : Straight e
  | item {target key : Expression Literal} (ht : Straight target) (hk : key.closed = true) :
    Straight (.item target key)
  | slice {target : Expression Literal} {start stop : Option Int} (h : Straight target) :
    Straight (.slice target start stop)
  | compare {op : Relation} {left right : Expression Literal} (hop : op.isOrder = true)
    (hl : Straight left) (hr : Straight right) : Straight (.compare op left right)
  | chain {op op' : Relation} {first middle last : Expression Literal} (hop : op.isOrder = true)
    (hop' : op'.isOrder = true) (hf : Straight first) (hm : Straight middle) (hl : Straight last) :
    Straight (.chain first op middle op' last)
  | arith {op : Arithmetic} {left right : Expression Literal} (heither : op ≠ .either)
    (hmod : op = .mod → right.closed = true) (hl : Straight left) (hr : Straight right) :
    Straight (.arith op left right)
  | neg {operand : Expression Literal} (h : Straight operand) : Straight (.neg operand)
  | length {operand : Expression Literal} (h : Straight operand) : Straight (.length operand)
  | elements {operand : Expression Literal} (h : Straight operand) : Straight (.elements operand)
  | member {element container : Expression Literal} (he : element.closed = true)
    (hc : Straight container) : Straight (.member element container)
  | and {left right : Expression Literal} (hl : Straight left) (hr : Straight right) :
    Straight (.and left right)
  | or {left right : Expression Literal} (hl : Straight left) (hr : Straight right) :
    Straight (.or left right)
  | not {operand : Expression Literal} (h : Straight operand) : Straight (.not operand)
  | cond {test yes no : Expression Literal} (ht : Straight test) (hy : Straight yes)
    (hn : Straight no) : Straight (.cond test yes no)
  /-- A call of something built in. -/
  | pass {callee : Literal} {a : Expression Literal} (hc : callee.isStrict = true)
    (ha : Straight a) : Straight (.call (.const callee) [a])
  /-- A call of a function that is written on the spot. -/
  | apply {body a : Expression Literal} (hbody : Straight body) (ha : Straight a) :
    Straight (.call (.const (.function body)) [a])

namespace Selector

open Build

/-! ## Two runs -/

/-- What a part of a body comes to on a recorder and on data: the same, or a recorder of a path and
what the data has under it, or the record of a comparison and anything. -/
inductive Alike (data : Value) : Value → Value → Prop
  | same (v : Value) : Alike data v v
  | part {id : Nat} {path : List Value} {v : Value} (h : data.under? path = some v) :
    Alike data (.recorder id path) v
  | record {id operand : Nat} {f : Bool} {op : Relation} {v u : Value} :
    Alike data (.comparison id operand f op v) u

/-- Where two runs from one workspace succeed they come to the same, in the same workspace. -/
def Together (data : Value) (x y : Build Value) : Prop :=
  ∀ w a w₁ b w₂, x w = .ok a w₁ → y w = .ok b w₂ → Alike data a b ∧ w₁ = w₂

variable {data : Value}

theorem Together.refl (x : Build Value) : Together data x x :=
  both_self (fun a _ => ⟨.same a, rfl⟩) x

theorem Together.bind {x y : Build Value} {k k' : Value → Build Value} (h : Together data x y)
    (hk : ∀ a b, Alike data a b → Together data (k a) (k' b)) :
    Together data (x >>= k) (y >>= k') :=
  Both.bind h hk

/-- Runs that go on with an operation which recordings refuse. -/
theorem Together.strict {x y : Build Value} {k k' : Value → Build Value} (h : Together data x y)
    (hsame : ∀ v, Together data (k v) (k' v)) (hrecording : ∀ v, isRecording v = true → Refused (k v)) :
    Together data (x >>= k) (y >>= k') := by
  refine h.bind fun a b hab => ?_
  cases hab with
  | same => exact hsame a
  | part => exact both_of_refused (hrecording _ rfl) _
  | record => exact both_of_refused (hrecording _ rfl) _

/-! ### Names -/

theorem refused_item_leaf {v : Value} (h : v.isLeaf = true) (name : String) :
    Refused (item v (.text name)) := by
  cases v with
  | dict | type | recorder => cases h
  | list | tuple | text | bytes => exact refused_failOn _ _
  | nodeClass =>
    intro w a w' hitem
    cases hitem
  | _ => exact refused_failOn _ _

/-- The part of a mapping under a name. -/
theorem lookup_text {entries : Entries Value Value} {name : String} {w w' : Workspace} {v : Value}
    (h : lookup entries (.text name) w = .ok v w') :
    entries.get? (.text name) = some v ∧ w' = w := by
  obtain ⟨_, w₁, hkey, hfound⟩ := bind_eq_ok.mp h
  cases hkey
  cases hget : entries.get? (.text name) with
  | some x =>
    rw [hget] at hfound
    cases hfound
    exact ⟨rfl, rfl⟩
  | none =>
    rw [hget] at hfound
    obtain ⟨detail, wd, -, hfail⟩ := bind_eq_ok.mp hfound
    cases hfail

/-- A name that is accessed on a recorder is looked up in the data. -/
theorem together_item {id : Nat} {path : List Value} {v : Value} (hdata : data.Nested)
    (hv : data.under? path = some v) (key : Value) :
    Together data (item (.recorder id path) key) (item v key) := by
  cases key with
  | text name =>
    intro w a w₁ b w₂ ha hb
    cases ha
    cases hdata.under? hv with
    | leaf hleaf => exact absurd hb (refused_item_leaf hleaf name w b w₂)
    | @mapping n entries _ =>
      obtain ⟨_, wn, hn, hlookup⟩ := bind_eq_ok.mp hb
      cases hn
      obtain ⟨hget, rfl⟩ := lookup_text hlookup
      refine ⟨.part ?_, rfl⟩
      rw [Value.under?_snoc, hv, Option.bind_some, Value.under?, hget]
      rfl
  | _ => exact both_of_refused (Refused.after (fun _ => refused_refuse _) _) _

/-! ### Comparisons -/

/-- Where no operand takes part, an order with a recording is refused. -/
theorem refused_compare {op : Relation} (hop : op.isOrder = true) {a b : Value}
    (ha : a.isOperand = false) (hb : b.isOperand = false)
    (h : isRecording a = true ∨ isRecording b = true) : Refused (Build.compare op a b) := by
  have hrelated : ∀ s t, related s op a b ≠ .ok t := by
    intro s t
    cases op <;> first | exact ordered_recording s _ h t | cases hop
  rw [compare_of_plain ha hb]
  intro w c w' hrun
  obtain ⟨answer, w₁, hanswer, -⟩ := bind_eq_ok.mp hrun
  exact hrelated _ _ (fromStore_eq_ok.mp hanswer).1

/-- A comparison in which an operand takes part is recorded. -/
theorem compare_operand {op : Relation} {a b c : Value} {w w' : Workspace}
    (h : a.isOperand = true ∨ b.isOperand = true) (hrun : Build.compare op a b w = .ok c w') :
    (∃ id operand f op' v, c = .comparison id operand f op' v) ∧
      w' = { w with next := w.next + 1 } := by
  cases ha : a.isOperand with
  | true =>
    cases a with
    | operand =>
      cases hrun
      exact ⟨⟨_, _, _, _, _, rfl⟩, rfl⟩
    | _ => cases ha
  | false =>
    have hb := h.resolve_left (by rw [ha]; exact Bool.false_ne_true)
    cases b with
    | operand =>
      rw [compare_of_operand_right ha] at hrun
      cases hrun
      exact ⟨⟨_, _, _, _, _, rfl⟩, rfl⟩
    | _ => cases hb

theorem Alike.isRecording_or_eq {a b : Value} (h : Alike data a b) :
    isRecording a = true ∧ a.isOperand = false ∨ b = a := by
  cases h with
  | same => exact .inr rfl
  | part | record => exact .inl ⟨rfl, rfl⟩

/-- An order of what is alike is the same, or it is refused or recorded. -/
theorem together_compare {op : Relation} (hop : op.isOrder = true) {a a' b b' : Value}
    (ha : Alike data a a') (hb : Alike data b b') :
    Together data (Build.compare op a b) (Build.compare op a' b') := by
  by_cases hoperand : a.isOperand = true ∨ b.isOperand = true
  · -- what is an operand on a recorder is the same on data
    have hoperand' : a'.isOperand = true ∨ b'.isOperand = true := by
      refine hoperand.imp (fun h => ?_) fun h => ?_
      · rcases ha.isRecording_or_eq with ⟨-, hfalse⟩ | rfl
        · rw [h] at hfalse
          cases hfalse
        · exact h
      · rcases hb.isRecording_or_eq with ⟨-, hfalse⟩ | rfl
        · rw [h] at hfalse
          cases hfalse
        · exact h
    intro w c w₁ d w₂ hc hd
    obtain ⟨⟨_, _, _, _, _, rfl⟩, rfl⟩ := compare_operand hoperand hc
    obtain ⟨-, rfl⟩ := compare_operand hoperand' hd
    exact ⟨.record, rfl⟩
  · simp only [not_or, Bool.not_eq_true] at hoperand
    obtain ⟨hl, hr⟩ := hoperand
    rcases ha.isRecording_or_eq with ⟨hleft, -⟩ | rfl
    · exact both_of_refused (refused_compare hop hl hr (.inl hleft)) _
    · rcases hb.isRecording_or_eq with ⟨hright, -⟩ | rfl
      · exact both_of_refused (refused_compare hop hl hr (.inr hright)) _
      · exact .refl _

/-! ### Calls -/

/-- A class that makes numbers, truth values and collections makes none of a recording. -/
theorem refused_convert {name : String}
    (hname : ["int", "float", "bool", "list", "tuple", "dict"].contains name = true) {v : Value}
    (hv : isRecording v = true) : Refused (convert name v) := by
  simp only [List.contains_eq_mem, List.mem_cons, List.not_mem_nil, or_false, decide_eq_true_eq]
    at hname
  rcases hname with rfl | rfl | rfl | rfl | rfl | rfl
  · cases v with
    | recorder | operand | comparison => exact refused_failOn _ _
    | _ => cases hv
  · cases v with
    | recorder | operand | comparison => exact refused_failOn _ _
    | _ => cases hv
  · exact (refused_truth hv).bind _
  · exact (refused_elements hv).bind _
  · exact (refused_elements hv).bind _
  · refine Refused.bind ?_ _
    cases v with
    | recorder => exact refused_failOn _ _
    | operand | comparison => exact (refused_elements hv).bind _
    | _ => cases hv

/-- A built-in function does nothing with a recording. -/
theorem refused_builtin (name : String) {v : Value} (hv : isRecording v = true) :
    Refused (applyBuiltin name [v]) := by
  unfold applyBuiltin
  split
  · rename_i h
    cases h
    exact refused_length hv
  · rename_i h
    cases h
    cases v with
    | recorder | operand | comparison => exact refused_failOn _ _
    | _ => cases hv
  · intro w a w' hrun
    cases hrun

/-- What is built in and can be called is not called with a recording. -/
theorem refused_call {callee : Literal} (hc : callee.isStrict = true) :
    ∃ f, (∀ call : Caller, callee.build call = pure f) ∧
      ∀ fuel v, isRecording v = true → Refused (callWithin fuel f [v]) := by
  have tooDeep : ∀ f args, Refused (callWithin 0 f args) := by
    intro f args w a w' hrun
    cases hrun
  cases callee with
  | builtin name =>
    refine ⟨.builtin name, fun _ => rfl, fun fuel v hv => ?_⟩
    cases fuel with
    | zero => exact tooDeep _ _
    | succ fuel => exact refused_builtin name hv
  | type t =>
    cases t with
    | basic name =>
      refine ⟨.type (.basic name), fun _ => rfl, fun fuel v hv => ?_⟩
      cases fuel with
      | zero => exact tooDeep _ _
      | succ fuel => exact refused_convert hc hv
    | _ => cases hc
  | _ => cases hc

/-! ### Bodies -/

/-- The two runs of a body, on what is alike. -/
abbrev Runs (data : Value) (fuel : Nat) (e : Expression Literal) : Prop :=
  ∀ a b, Alike data a b →
    Together data (evaluate (Literal.build (callWithin fuel)) (callWithin fuel) a e)
      (evaluate (Literal.build (callWithin fuel)) (callWithin fuel) b e)

variable {fuel : Nat} {e : Expression Literal}

theorem runs_closed (h : e.closed = true) : Runs data fuel e := by
  intro a b _
  rw [evaluate_closed _ _ a b e h]
  exact .refl _

/-- A call of something with one argument. -/
theorem evaluate_call (constant : Literal → Build Value) (call : Caller) (arg : Value)
    (callee : Literal) (a : Expression Literal) :
    evaluate constant call arg (.call (.const callee) [a])
      = constant callee >>= fun f => evaluate constant call arg a >>= fun v => call f [v] := by
  simp [evaluate, evaluateAll]

/-- A function whose body runs alike may be called. -/
theorem runs_apply {body a : Expression Literal} (hbody : ∀ fuel, Runs data fuel body)
    (ha : Runs data fuel a) : Runs data fuel (.call (.const (.function body)) [a]) := by
  intro x y hxy
  rw [evaluate_call, evaluate_call]
  have hbuild : Literal.build (callWithin fuel) (.function body)
      = fresh >>= fun id => pure (.function id body) := rfl
  rw [hbuild, bind_assoc, bind_assoc]
  refine both_after fresh fun id => ?_
  rw [pure_bind, pure_bind]
  refine (ha x y hxy).bind fun u v huv => ?_
  cases fuel with
  | zero =>
    refine both_of_refused (fun w a w' hrun => ?_) _
    cases hrun
  | succ fuel => exact hbody fuel u v huv

/-- A straight body comes to the same in the two runs. -/
theorem runs_of_straight (hdata : data.Nested) (h : e.Straight) (fuel : Nat) :
    Runs data fuel e := by
  induction h generalizing fuel with
  | arg => exact fun a b hab => both_pure fun _ => ⟨hab, rfl⟩
  | closed h => exact runs_closed h
  | @item target key _ hk ih =>
    intro x y hxy
    rw [evaluate, evaluate, evaluate_closed _ _ x y key hk]
    refine (ih fuel x y hxy).bind fun a b hab => ?_
    cases hab with
    | same => exact .refl _
    | part h => exact both_after _ fun k => together_item hdata h k
    | record => exact both_of_refused (Refused.after (fun _ => refused_failOn _ _) _) _
  | slice _ ih =>
    exact fun x y hxy => (ih fuel x y hxy).strict (fun _ => .refl _) fun _ hv => refused_slice hv _ _
  | compare hop _ _ ihl ihr =>
    intro x y hxy
    exact (ihl fuel x y hxy).bind fun a a' ha =>
      (ihr fuel x y hxy).bind fun b b' hb => together_compare hop ha hb
  | chain hop hop' _ _ _ ihf ihm ihl =>
    intro x y hxy
    refine (ihf fuel x y hxy).bind fun a a' ha => (ihm fuel x y hxy).bind fun b b' hb => ?_
    -- a first comparison that is recorded is not asked for its truth
    refine (together_compare hop ha hb).strict (fun here => both_after _ fun t => ?_)
      fun _ hhere => (refused_truth hhere).bind _
    cases t with
    | true => exact (ihl fuel x y hxy).bind fun c c' hc => together_compare hop' hb hc
    | false => exact Together.refl _
  | @arith op left right heither hmod _ _ ihl ihr =>
    intro x y hxy
    refine (ihl fuel x y hxy).strict (fun a => ?_) fun a ha =>
      Refused.after (fun b => refused_arithmetic ha heither (.inl rfl)) _
    by_cases hop : op = .mod
    · rw [evaluate_closed _ _ x y right (hmod hop)]
      exact .refl _
    · exact (ihr fuel x y hxy).strict (fun _ => .refl _) fun b hb =>
        refused_arithmetic hb heither (.inr ⟨hop, rfl⟩)
  | neg _ ih =>
    exact fun x y hxy => (ih fuel x y hxy).strict (fun _ => .refl _) fun _ hv => refused_negate hv
  | length _ ih =>
    exact fun x y hxy => (ih fuel x y hxy).strict (fun _ => .refl _) fun _ hv => refused_length hv
  | elements _ ih =>
    exact fun x y hxy => (ih fuel x y hxy).strict (fun _ => .refl _) fun _ hv =>
      (refused_elements hv).bind _
  | @member element container he _ ih =>
    intro x y hxy
    rw [evaluate, evaluate, evaluate_closed _ _ x y element he]
    exact both_after _ fun v => (ih fuel x y hxy).strict (fun _ => .refl _) fun _ hc =>
      (refused_contains hc v).bind _
  | and _ _ ihl ihr =>
    intro x y hxy
    refine (ihl fuel x y hxy).strict (fun v => both_after _ fun t => ?_) fun _ hv =>
      (refused_truth hv).bind _
    cases t with
    | true => exact ihr fuel x y hxy
    | false => exact Together.refl _
  | or _ _ ihl ihr =>
    intro x y hxy
    refine (ihl fuel x y hxy).strict (fun v => both_after _ fun t => ?_) fun _ hv =>
      (refused_truth hv).bind _
    cases t with
    | true => exact Together.refl _
    | false => exact ihr fuel x y hxy
  | not _ ih =>
    exact fun x y hxy => (ih fuel x y hxy).strict (fun _ => .refl _) fun _ hv =>
      (refused_truth hv).bind _
  | cond _ _ _ iht ihy ihn =>
    intro x y hxy
    refine (iht fuel x y hxy).strict (fun v => both_after _ fun t => ?_) fun _ hv =>
      (refused_truth hv).bind _
    cases t with
    | true => exact ihy fuel x y hxy
    | false => exact ihn fuel x y hxy
  | pass hc _ ih =>
    intro x y hxy
    obtain ⟨f, hf, hrefused⟩ := refused_call hc
    rw [evaluate_call, evaluate_call, hf, pure_bind, pure_bind]
    exact (ih fuel x y hxy).strict (fun _ => .refl _) (hrefused fuel)
  | apply _ _ ihbody iha => exact runs_apply ihbody (iha fuel)

/-! ## Selectors -/

/-- What a selector comes to on data. As for a recorder a number is taken first. -/
def onData (call : Caller) (selector data : Value) : Build Value := do
  let _ ← fresh
  call selector [data]

/-- Whether a value is a recorder. -/
def isRecorder : Value → Bool
  | .recorder .. => true
  | _ => false

/-- The path of a selector that does nothing but access names is sound: where the selector comes to
something on nested mappings, and that is no recorder, it comes to what they have under the path. -/
theorem path_sound {body : Expression Literal} {id : Nat} {w w₁ w₂ : Workspace}
    {names : List Value} {data v : Value} (hbody : body.Straight) (hdata : data.Nested)
    (hpath : path Build.call (.function id body) w = .ok names w₁)
    (hrun : onData Build.call (.function id body) data w = .ok v w₂)
    (hv : isRecorder v = false) : data.under? names = some v := by
  -- both runs start from one workspace
  obtain ⟨start, ws, hstart, hread⟩ := bind_eq_ok.mp hpath
  cases hstart
  obtain ⟨result, wr, hresult, hnames⟩ := bind_eq_ok.mp hread
  have hrecorded := ok_of_reading hresult
  obtain ⟨_, wn, hn, hcall⟩ := bind_eq_ok.mp hrun
  cases hn
  obtain ⟨halike, -⟩ := runs_of_straight hdata hbody _ (.recorder w.next []) data (.part rfl)
    _ result _ v _ hrecorded hcall
  cases halike with
  | same =>
    -- a path is read off a recorder
    cases v with
    | recorder => cases hv
    | _ => cases hnames
  | part h =>
    cases hnames
    exact h
  | record => cases hnames

/-- `(lambda n: n["b"])(m["a"])` -/
def handedOn : Expression Literal :=
  .call (.const (.function (.item .arg (.const (.text "b"))))) [.item .arg (.const (.text "a"))]

/-- A mapping inside a mapping. -/
def sevenInside : Value := .dict 0 [(.text "a", .dict 0 [(.text "b", .int 7)])]

/-- A part of the argument is handed to another function. -/
theorem path_sound_handedOn :
    ∃ names w₁ w₂, path Build.call (.function 0 handedOn) {} = .ok names w₁ ∧
      onData Build.call (.function 0 handedOn) sevenInside {} = .ok (.int 7) w₂ ∧
      sevenInside.under? names = some (.int 7) := by
  have hstraight : handedOn.Straight := .apply (.item .arg rfl) (.item .arg rfl)
  have hnested : sevenInside.Nested := by
    refine .mapping fun e he => ?_
    obtain rfl := List.mem_singleton.mp he
    refine .mapping fun e he => ?_
    obtain rfl := List.mem_singleton.mp he
    exact .leaf rfl
  obtain ⟨names, w₁, hpath⟩ : ∃ names w₁,
      path Build.call (.function 0 handedOn) {} = .ok names w₁ := ⟨_, _, rfl⟩
  obtain ⟨w₂, hrun⟩ : ∃ w₂,
      onData Build.call (.function 0 handedOn) sevenInside {} = .ok (.int 7) w₂ := ⟨_, rfl⟩
  exact ⟨names, w₁, w₂, hpath, hrun, path_sound hstraight hnested hpath hrun rfl⟩

/-- `m["a"] if m["x"] == m["y"] else m["b"]`: two recorders are never the same, but data may be
equal. -/
def whicheverEqual : Expression Literal :=
  .cond (.compare .eq (.item .arg (.const (.text "x"))) (.item .arg (.const (.text "y"))))
    (.item .arg (.const (.text "a"))) (.item .arg (.const (.text "b")))

/-- Data with equal parts. -/
def equalParts : Value :=
  .dict 0 [(.text "a", .int 1), (.text "b", .int 2), (.text "x", .int 0), (.text "y", .int 0)]

/-- A selector that compares two parts of its argument has a path, but comes to something else. -/
theorem path_unsound :
    equalParts.Nested ∧ ∃ names v w₁ w₂,
      path Build.call (.function 0 whicheverEqual) {} = .ok names w₁ ∧
      onData Build.call (.function 0 whicheverEqual) equalParts {} = .ok v w₂ ∧
      equalParts.under? names ≠ some v := by
  have hnested : equalParts.Nested := by
    refine .mapping fun e he => .leaf ?_
    simp only [List.mem_cons, List.not_mem_nil, or_false] at he
    rcases he with rfl | rfl | rfl | rfl <;> rfl
  obtain ⟨v, hrun, hv⟩ := ok_of_result_any
    (b := onData Build.call (.function 0 whicheverEqual) equalParts) (w := {})
    (p := fun v => decide (v.toInt? = some 1)) (by decide +kernel)
  obtain ⟨names, hpath, hnames⟩ := ok_of_result_any
    (b := path Build.call (.function 0 whicheverEqual)) (w := {})
    (p := fun names => decide ((equalParts.under? names).bind Value.toInt? = some 2))
    (by decide +kernel)
  refine ⟨hnested, names, v, _, _, hpath, hrun, fun h => ?_⟩
  have htwo := of_decide_eq_true hnames
  rw [h, Option.bind_some, of_decide_eq_true hv] at htwo
  cases htwo

end Selector

end DraftSchema
