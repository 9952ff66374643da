import DraftSchema.Builder
import DraftSchema.Evaluation.Conversion
import DraftSchema.Proofs.TurningStore

/-!
# Types and paths in which an argument is turned round

Types can be made of anything, and a path may have anything for a name. What is made of a type or a
path in which an argument is turned round is what was made of it before, with the argument turned
round; a fault is the same.
-/

namespace DraftSchema

open Value

variable {own : Nat}

/-! ## Types -/

namespace Typing

variable (s : Store)

theorem alternatives_turned (t : TypeForm Value) :
    (turnedType own t).alternatives = t.alternatives.map (turnedType own) := by
  cases t with
  | union barred ts => exact turnedTypes_eq_map ts
  | _ => rfl

theorem flatMap_alternatives_turned (ts : List (TypeForm Value)) :
    (ts.map (turnedType own)).flatMap TypeForm.alternatives
      = (ts.flatMap TypeForm.alternatives).map (turnedType own) := by
  rw [List.flatMap_map, List.map_flatMap]
  simp only [alternatives_turned]

theorem distinct_turned (ts : List (TypeForm Value)) :
    distinct (ts.map (turnedType own)) = (distinct ts).map (turnedType own) := by
  have hfold : ∀ us acc : List (TypeForm Value), (us.map (turnedType own)).foldl
      (fun acc t => if acc.any fun u => typeKey u = typeKey t then acc else t :: acc)
        (acc.map (turnedType own))
      = (us.foldl (fun acc t => if acc.any fun u => typeKey u = typeKey t then acc else t :: acc)
          acc).map (turnedType own) := by
    intro us
    induction us with
    | nil => exact fun acc => rfl
    | cons u us ih =>
      intro acc
      rw [List.map_cons, List.foldl_cons, List.foldl_cons, ← ih]
      congr 1
      simp only [List.any_map, Function.comp_def, typeKey_turned]
      split <;> rfl
  rw [distinct, distinct, List.map_reverse]
  exact congrArg List.reverse (hfold ts [])

theorem union_turned (barred : Bool) (ts : List (TypeForm Value)) :
    union barred (ts.map (turnedType own)) = turnedType own (union barred ts) := by
  unfold union
  rw [flatMap_alternatives_turned, distinct_turned]
  rcases distinct (ts.flatMap TypeForm.alternatives) with _ | ⟨t, _ | ⟨u, us⟩⟩
  · rfl
  · rfl
  · simp [turnedType, turnedTypes_eq_map]

theorem unhashable?_turned (ts : List (TypeForm Value)) :
    unhashable? (s.turned own) (ts.map (turnedType own)) = unhashable? s ts := by
  induction ts with
  | nil => rfl
  | cons t ts ih =>
    rw [List.map_cons, unhashable?, unhashable?, unhashableIn?_turned, ih]
    cases unhashableIn? t with
    | none => rfl
    | some v => simp only [Option.map_some, Store.kindName_turned]

theorem choice_turned (ts : List (TypeForm Value)) :
    choice (s.turned own) (ts.map (turnedType own)) = turnedType own <$> choice s ts := by
  unfold choice
  rw [flatMap_alternatives_turned, unhashable?_turned, union_turned, List.isEmpty_map]
  split
  · rfl
  · cases unhashable? s (ts.flatMap TypeForm.alternatives) <;> rfl

/-- Of the rules a choice needs the names of their classes only. -/
theorem choice_turned_store (ts : List (TypeForm Value)) :
    choice (s.turned own) ts = choice s ts := by
  have hunhashable : ∀ us, unhashable? (s.turned own) us = unhashable? s us := by
    intro us
    induction us with
    | nil => rfl
    | cons u us ih => rw [unhashable?, unhashable?, ih, Store.kindName_turned_store]
  rw [choice, choice, hunhashable]

theorem member_turned (context : String) (v : Value) :
    member (s.turned own) context (v.turned own) = turnedType own <$> member s context v := by
  have htext := @Store.valueDetail_turned own s v
  cases v with
  | text t =>
    simp only [turned, member]
    cases TypeExpression.read t <;> rfl
  | tuple xs =>
    simp only [turned, member] at htext ⊢
    rw [htext]
    cases s.valueDetail (.tuple xs) <;> rfl
  | _ => rfl

@[simp] theorem isJoinable_turned (v : Value) : isJoinable (v.turned own) = isJoinable v := by
  cases v with
  | type t => cases t <;> rfl
  | _ => rfl

@[simp] theorem isNamed_turned (v : Value) : isNamed (v.turned own) = isNamed v := by
  cases v with
  | type t => exact congrArg (!·) (isJoinable_turned (.type t))
  | _ => rfl

theorem joined_turned (v : Value) : joined (v.turned own) = turnedType own (joined v) := by
  cases v <;> rfl

theorem join?_turned (a b : Value) :
    join? (s.turned own) (a.turned own) (b.turned own)
      = (join? s a b).map (Value.turned own <$> ·) := by
  have hpair : ∀ t u : TypeForm Value, (Value.ofType (union true [turnedType own t, turnedType own u]))
      = (Value.ofType (union true [t, u])).turned own := by
    intro t u
    rw [ofType_turned, ← union_turned]
    rfl
  unfold join?
  rw [isJoinable_turned, isJoinable_turned, isNamed_turned, isNamed_turned]
  split
  · have hsome : (some (.ok (.ofType (union true [joined (a.turned own), joined (b.turned own)])))
        : Option (Except Fault Value))
        = (some (.ok (.ofType (union true [joined a, joined b])))).map (Value.turned own <$> ·) := by
      rw [joined_turned, joined_turned, hpair]
      rfl
    cases a with
    | null =>
      cases b with
      | null => rfl
      | _ => exact hsome
    | _ => exact hsome
  split
  · refine congrArg some ?_
    rw [member_turned, member_turned]
    refine except_bind_map fun t => except_bind_map fun u => ?_
    rw [show [turnedType own t, turnedType own u] = [t, u].map (turnedType own) from rfl,
      choice_turned]
    exact except_bind_map fun c => congrArg Except.ok (ofType_turned c).symm
  · rfl

theorem membersOf_turned (v : Value) :
    membersOf (v.turned own) = (membersOf v).map (turnedType own) := by
  cases v with
  | tuple xs =>
    simp only [turned, membersOf, turnedAll_eq_map, List.map_map]
    refine List.map_congr_left fun x _ => ?_
    cases x <;> rfl
  | _ => rfl

theorem subscript_turned (t : TypeForm Value) (key : Value) :
    subscript (s.turned own) (turnedType own t) (key.turned own)
      = Value.turned own <$> subscript s t key := by
  have htext := @Store.valueText_turned own s (.type t)
  have hunder : (do
      throw (.stated .type ((← (s.turned own).valueText (.type (turnedType own t)))
        ++ " is not a generic class")) : Except Fault Value)
      = Value.turned own <$> (do
          throw (.stated .type ((← s.valueText (.type t)) ++ " is not a generic class"))) := by
    rw [show Value.type (turnedType own t) = (Value.type t).turned own from rfl, htext]
    cases s.valueText (.type t) <;> rfl
  cases t with
  | basic name =>
    simp only [turnedType, subscript]
    split
    · refine congrArg Except.ok ?_
      rw [membersOf_turned, turned, turnedType, turnedTypes_eq_map]
    · rfl
  | other v => simp [turnedType, subscript, Functor.map, Except.map]
  | any | model | reference => rfl
  | _ => exact hunder

end Typing

/-! ## Order -/

namespace Build

variable (s : Store) (op : Relation)

theorem ordered_turned_of_flat {a b : Value}
    (h : ordered (s.turned own) op (a.turned own) (b.turned own)
      = match (a.turned own).denote?, (b.turned own).denote? with
        | some x, some y => .ok (Extended.holds op x y)
        | _, _ => .error (.unordered op ((s.turned own).kindName (a.turned own))
            ((s.turned own).kindName (b.turned own))))
    (h' : ordered s op a b = match a.denote?, b.denote? with
        | some x, some y => .ok (Extended.holds op x y)
        | _, _ => .error (.unordered op (s.kindName a) (s.kindName b))) :
    ordered (s.turned own) op (a.turned own) (b.turned own) = ordered s op a b := by
  rw [h, h', denote?_turned, denote?_turned, Store.kindName_turned, Store.kindName_turned]

mutual

theorem ordered_turned : (a b : Value) →
    ordered (s.turned own) op (a.turned own) (b.turned own) = ordered s op a b
  | .text _, b | .bytes _, b => by
    cases b <;> first | rfl | exact ordered_turned_of_flat s op rfl rfl
  | .list _ as, b => by
    cases b with
    | list _ bs => exact orderedAll_turned as bs
    | _ => exact ordered_turned_of_flat s op rfl rfl
  | .tuple as, b => by
    cases b with
    | tuple bs => exact orderedAll_turned as bs
    | _ => exact ordered_turned_of_flat s op rfl rfl
  | .null, b | .bool _, b | .int _, b | .float _, b | .dict .., b | .regex _, b | .function .., b
  | .range _, b | .node _, b | .type _, b | .nodeClass _, b | .builtin _, b | .foreign .., b
  | .sized _, b | .recorder .., b | .operand .., b | .comparison .., b | .method .., b
  | .classMethod .., b => ordered_turned_of_flat s op rfl rfl

theorem orderedAll_turned : (as bs : List Value) →
    orderedAll (s.turned own) op (turnedAll own as) (turnedAll own bs) = orderedAll s op as bs
  | a :: as, b :: bs => by
    rw [turnedAll, turnedAll, orderedAll, orderedAll, turned_beq_turned, Store.equal_turned,
      ordered_turned a b, orderedAll_turned as bs]
  | [], bs => by cases bs <;> simp [turnedAll, orderedAll]
  | _ :: _, [] => by simp [turnedAll, orderedAll]

end

theorem related_turned (a b : Value) :
    related (s.turned own) op (a.turned own) (b.turned own) = related s op a b := by
  cases op with
  | eq => exact s.equal_turned a b
  | ne => exact congrArg ((!·) <$> ·) (s.equal_turned a b)
  | _ => exact ordered_turned s _ a b

/-! ## Parts of values -/

theorem classOf_turned (v : Value) :
    classOf (s.turned own) (v.turned own) = (classOf s v).turned own := by
  have hname := @Store.typeName_turned own s v
  cases v with
  | node id =>
    simp only [turned, classOf, Store.get?_turned]
    cases s.get? id with
    | none => rfl
    | some node => exact congrArg Value.nodeClass (nodeClass_turned node.rule)
  | _ => exact congrArg (fun name => Value.type (.basic name)) hname

theorem absentKey_turned (key : Value) :
    absentKey (s.turned own) (key.turned own) = absentKey s key := by
  unfold absentKey
  rw [Store.valueDetail_turned]

theorem at?_turned (xs : List Value) (index : Int) :
    at? (turnedAll own xs) index = (at? xs index).map (Value.turned own) := by
  simp only [at?, turnedAll_eq_map, List.length_map]
  generalize (if index < 0 then index + (xs.length : Int) else index) = position
  split
  · rfl
  · exact List.getElem?_map

theorem between_turned (xs : List Value) (start stop : Option Int) :
    between (turnedAll own xs) start stop = turnedAll own (between xs start stop) := by
  simp only [between, turnedAll_eq_map, List.length_map, List.map_drop, List.map_take]

theorem repeated_turned (xs : List Value) (count : Int) :
    repeated (turnedAll own xs) count = turnedAll own (repeated xs count) := by
  unfold repeated
  simp only [turnedAll_eq_map, List.isEmpty_map]
  split
  · rfl
  · rw [List.map_flatten, List.map_replicate]

theorem hasItems_turned (v : Value) : hasItems (v.turned own) = hasItems v := by
  cases v with
  | type t => cases t <;> rfl
  | _ => rfl

theorem isSequence_turned (v : Value) : isSequence (v.turned own) = isSequence v := by
  cases v <;> rfl

theorem sequenceLength_turned (v : Value) : sequenceLength (v.turned own) = sequenceLength v := by
  cases v with
  | list id xs | tuple xs => exact length_turnedAll xs
  | _ => rfl

theorem noRoom_turned (v : Value) (length : Nat) : noRoom (v.turned own) length = noRoom v length := by
  unfold noRoom
  cases v <;> rfl

end Build

/-! ## Rules that are changed -/

namespace Store

variable (s : Store)

theorem alloc_turned (node : Node) :
    (s.turned own).alloc (node.turned own) = ((s.alloc node).1.turned own, (s.alloc node).2) := by
  simp [alloc, Store.turned]

theorem modifyObject_turned (id : NodeId) {f g : ObjectRule → ObjectRule}
    (h : ∀ r, g (r.turned own) = (f r).turned own) :
    (s.turned own).modifyObject id g = (s.modifyObject id f).turned own := by
  unfold modifyObject
  rw [get?_turned]
  cases s.get? id with
  | none => rfl
  | some node =>
    obtain ⟨rule, required⟩ := node
    cases rule with
    | object r =>
      simp only [Option.map_some, Node.turned, Rule.turned, h, set, Store.turned, List.map_set]
    | _ => rfl

theorem setProperty_turned (r : ObjectRule) (name v : Value) :
    (r.turned own).setProperty (name.turned own) (v.turned own)
      = (r.setProperty name v).turned own := by
  simp only [ObjectRule.setProperty, ObjectRule.turned, set_turned]

theorem addRequired_turned (r : ObjectRule) (name : Value) :
    (r.turned own).addRequired (name.turned own) = (r.addRequired name).turned own := by
  unfold ObjectRule.addRequired ObjectRule.requires
  simp only [ObjectRule.turned, has_turned]
  split
  · rfl
  · simp only [turnedAll_eq_map, List.map_append, List.map_cons, List.map_nil]

theorem searchable_turned (r : ObjectRule) (name : Value) :
    (r.turned own).searchable (name.turned own) = r.searchable name := by
  have hrequired : ∀ xs : List Value,
      ((turnedAll own xs).takeWhile fun v => !(v == name.turned own)).any Value.isOperand
        = (xs.takeWhile fun v => !(v == name)).any Value.isOperand := by
    intro xs
    induction xs with
    | nil => rfl
    | cons x xs ih =>
      rw [turnedAll, List.takeWhile_cons, List.takeWhile_cons, turned_beq_turned]
      split
      · rw [List.any_cons, List.any_cons, isOperand_turned, ih]
      · rfl
  exact congrArg (!·) (hrequired r.required)

@[simp] theorem unhashable?_turned (name : Value) :
    (s.turned own).unhashable? (name.turned own) = s.unhashable? name := by
  unfold unhashable?
  rw [Value.unhashable?_turned, Option.map_map]
  simp only [Function.comp_def, kindName_turned]

theorem child?_turned (id : NodeId) (name : Value) :
    (s.turned own).child? id (name.turned own) = (s.child? id name).map (Value.turned own) := by
  unfold child?
  rw [object?_turned]
  cases s.object? id with
  | none => rfl
  | some r =>
    simp only [Option.map_some, ObjectRule.turned, Value.get?_turned]
    cases Entries.get? r.properties name with
    | none => rfl
    | some v => exact present_turned v

theorem passable?_turned (v : Value) : (s.turned own).passable? (v.turned own) = s.passable? v := by
  cases v with
  | node id =>
    simp only [Value.turned, passable?, object?_turned]
    cases s.object? id <;> rfl
  | _ => rfl

theorem blocked_turned (v : Value) (path : List Value) :
    (s.turned own).blocked (v.turned own) (turnedAll own path) = s.blocked v path := by
  unfold blocked
  rw [valueText_turned, pointer_turned]

theorem turnedAll_append (xs ys : List Value) :
    turnedAll own (xs ++ ys) = turnedAll own xs ++ turnedAll own ys := by
  simp only [turnedAll_eq_map, List.map_append]

theorem conflict?_turned (id : NodeId) (seen path : List Value) :
    (s.turned own).conflict? id (turnedAll own seen) (turnedAll own path)
      = s.conflict? id seen path := by
  induction path generalizing id seen with
  | nil => rfl
  | cons name rest ih =>
    cases rest with
    | nil => rfl
    | cons next rest =>
      have hseen : turnedAll own seen ++ [name.turned own] = turnedAll own (seen ++ [name]) :=
        (turnedAll_append seen [name]).symm
      rw [turnedAll, turnedAll, conflict?, conflict?, unhashable?_turned, child?_turned, hseen]
      · cases s.unhashable? name with
        | some f => rfl
        | none =>
          cases s.child? id name with
          | none => rfl
          | some v =>
            simp only [Option.map_some, passable?_turned, blocked_turned]
            cases s.passable? v with
            | none => rfl
            | some child => exact ih child (seen ++ [name])
      · simp
      · simp

theorem holder_turned (v : Value) (part : String) :
    (s.turned own).holder (v.turned own) part = s.holder v part := by
  have hmissing := @Store.missing_turned own s v part
  cases v with
  | node id =>
    change (if ((s.turned own).object? id).isSome then _ else Except.error
      ((s.turned own).missing ((Value.node id).turned own) part)) = _
    rw [hmissing, object?_turned, Option.isSome_map]
    rfl
  | _ => exact congrArg Except.error hmissing

theorem enter_turned (id : NodeId) (name : Value) :
    (s.turned own).enter id (name.turned own)
      = ((s.enter id name).1.turned own, (s.enter id name).2.turned own) := by
  unfold enter
  rw [child?_turned]
  cases s.child? id name with
  | some v => rfl
  | none =>
    have halloc := @Store.alloc_turned own s ⟨.object .empty, .bool true⟩
    have hempty : Node.turned own ⟨.object .empty, .bool true⟩ = ⟨.object .empty, .bool true⟩ := rfl
    rw [hempty] at halloc
    simp only [Option.map_none, halloc]
    refine congrArg (·, _) (modifyObject_turned _ id fun r => ?_)
    exact setProperty_turned r name (.node _)

theorem levels_turned (v : Value) (path : List Value) :
    (s.turned own).levels (v.turned own) (turnedAll own path)
      = ((s.levels v path).1.turned own, turnedAll own <$> (s.levels v path).2) := by
  induction path generalizing s v with
  | nil => rfl
  | cons name rest ih =>
    cases rest with
    | nil => rfl
    | cons next rest =>
      rw [turnedAll, turnedAll, levels, levels, holder_turned, unhashable?_turned]
      · cases s.holder v "properties" with
        | error f => rfl
        | ok id =>
          cases s.unhashable? name with
          | some f => rfl
          | none =>
            have hrest := ih (s.enter id name).1 (s.enter id name).2
            rw [turnedAll] at hrest
            simp only [enter_turned, hrest]
            cases ((s.enter id name).1.levels (s.enter id name).2 (next :: rest)).2 <;> rfl
      · simp
      · simp

theorem putProperty_turned (level name v : Value) :
    (s.turned own).putProperty (level.turned own) (name.turned own) (v.turned own)
      = Store.turned own <$> s.putProperty level name v := by
  unfold putProperty
  rw [holder_turned, unhashable?_turned]
  cases s.holder level "properties" with
  | error f => rfl
  | ok id =>
    cases s.unhashable? name with
    | some f => rfl
    | none =>
      exact congrArg Except.ok (modifyObject_turned s id fun r => setProperty_turned r name v)

theorem listRequired_turned (flag level name : Value) :
    (s.turned own).listRequired (flag.turned own) (level.turned own) (name.turned own)
      = Store.turned own <$> s.listRequired flag level name := by
  unfold listRequired
  rw [truth_turned, holder_turned]
  cases flag.truth with
  | error r => rfl
  | ok t =>
    cases t with
    | false => rfl
    | true =>
      cases s.holder level "add_required" with
      | error f => rfl
      | ok id =>
        have hsearch : ((s.turned own).object? id).all (·.searchable (name.turned own))
            = (s.object? id).all (·.searchable name) := by
          rw [object?_turned]
          cases s.object? id with
          | none => rfl
          | some r => exact searchable_turned r name
        have hlist := @modifyObject_turned own s id (fun r => r.addRequired name)
          (fun r => r.addRequired (name.turned own)) fun r => addRequired_turned r name
        dsimp only [bind, Except.bind]
        rw [hsearch, hlist]
        cases (s.object? id).all (·.searchable name) <;> rfl

theorem place_turned (flag v : Value) (levels path : List Value) :
    (s.turned own).place (flag.turned own) (v.turned own) (turnedAll own levels)
        (turnedAll own path)
      = ((s.place flag v levels path).1.turned own, (s.place flag v levels path).2) := by
  induction levels generalizing s path with
  | nil => cases path <;> rfl
  | cons level levels ih =>
    cases path with
    | nil => rfl
    | cons name rest =>
      have hput : (if (turnedAll own rest).isEmpty then
            (s.turned own).putProperty (level.turned own) (name.turned own) (v.turned own)
          else .ok (s.turned own))
          = Store.turned own <$> (if rest.isEmpty then s.putProperty level name v else .ok s) := by
        rw [putProperty_turned]
        cases rest <;> rfl
      rw [turnedAll, turnedAll, place, place, hput]
      cases (if rest.isEmpty then s.putProperty level name v else .ok s) with
      | error f => rfl
      | ok t =>
        have hlisted := @Store.listRequired_turned own t flag level name
        simp only [Functor.map, Except.map] at hlisted ⊢
        rw [hlisted]
        cases t.listRequired flag level name with
        | error f => rfl
        | ok u => exact ih u rest

theorem put_turned (id : NodeId) (path : List Value) (flag v : Value) :
    (s.turned own).put id (turnedAll own path) (flag.turned own) (v.turned own)
      = ((s.put id path flag v).1.turned own, (s.put id path flag v).2) := by
  have hlevels := @Store.levels_turned own s (.node id) path
  unfold put
  rw [show (s.turned own).levels (.node id) (turnedAll own path) = _ from hlevels]
  rcases s.levels (.node id) path with ⟨t, f | levels⟩
  · rfl
  · exact place_turned t flag v levels path

theorem requirement_turned (id : NodeId) :
    (s.turned own).requirement id = (s.requirement id).turned own := by
  unfold requirement
  rw [get?_turned]
  cases s.get? id <;> rfl

end Store

/-! ## Models -/

namespace Builder

variable (s : Store)

theorem modelOf_turned (id : NodeId) : modelOf (s.turned own) id = (modelOf s id).turned own := by
  unfold modelOf
  rw [Store.object?_turned]
  cases s.object? id <;> rfl

theorem modelLabel_turned_store : modelLabel (s.turned own) = modelLabel s := by
  funext v
  unfold modelLabel
  rw [Store.valueText_turned_store]

theorem name?_turned (t : TypeForm Value) : (turnedType own t).name? = t.name? := by
  cases t with
  | union barred ts =>
    cases barred with
    | true => rfl
    | false =>
      simp [turnedType, TypeForm.name?, turnedTypes_eq_map, List.any_map, Function.comp_def]
  | _ => rfl

theorem modelLabel_turned (v : Value) :
    modelLabel (s.turned own) (v.turned own) = modelLabel s v := by
  have htext := @Store.valueText_turned own s v
  rw [modelLabel_turned_store]
  rw [Store.valueText_turned_store] at htext
  cases v with
  | type t =>
    change ((turnedType own t).name?.map .ok).getD (s.valueText (.type (turnedType own t))) = _
    rw [name?_turned]
    exact congrArg _ htext
  | nodeClass | builtin | method | classMethod => rfl
  | _ => exact htext

theorem isBuilder_turned (id : NodeId) : isBuilder (s.turned own) id = isBuilder s id := by
  unfold isBuilder
  rw [Store.object?_turned]
  cases s.object? id <;> rfl

theorem missing_turned (v : Value) (operation : String) :
    missing (s.turned own) (v.turned own) operation = missing s v operation := by
  have hmissing := @Store.missing_turned own s v operation
  cases v with
  | nodeClass c => cases c <;> rfl
  | _ => exact hmissing

end Builder

namespace Catalog

variable (s : Store) {read : String → Except Fault Value}

mutual

theorem resolveType_turned_store : (t : TypeForm Value) →
    resolveType (s.turned own) read t = resolveType s read t
  | .list t => by rw [resolveType, resolveType, resolveType_turned_store t]
  | .dict k v => by
    rw [resolveType, resolveType, resolveType_turned_store k, resolveType_turned_store v]
  | .generic name ts => by rw [resolveType, resolveType, resolveTypes_turned_store ts]
  | .annotated t _ => by rw [resolveType, resolveType, resolveType_turned_store t]
  | .union barred ts => by
    rw [resolveType, resolveType, resolveTypes_turned_store ts]
    simp only [Typing.choice_turned_store]
  | .other v => by cases v <;> simp [resolveType]
  | .basic _ | .any | .model _ | .reference _ => by simp [resolveType]

theorem resolveTypes_turned_store : (ts : List (TypeForm Value)) →
    resolveTypes (s.turned own) read ts = resolveTypes s read ts
  | [] => by rw [resolveTypes, resolveTypes]
  | t :: ts => by
    rw [resolveTypes, resolveTypes, resolveType_turned_store t, resolveTypes_turned_store ts]

end

theorem resolveFields_turned_store (found es : Entries String Value) :
    resolveFields (s.turned own) read found es = resolveFields s read found es := by
  have hresolve : ∀ hint, resolve (s.turned own) read hint = resolve s read hint := by
    intro hint
    unfold resolve
    simp only [resolveType_turned_store]
  induction es generalizing found with
  | nil => rfl
  | cons e es ih => simp only [resolveFields, hresolve, ih]

theorem fields_turned (catalog : Catalog) (type : Value) :
    catalog.fields (s.turned own) read (type.turned own) = catalog.fields s read type := by
  cases type with
  | type t =>
    cases t with
    | model r => simp only [turned, turnedType, fields, resolveFields_turned_store]
    | _ => rfl
  | _ => rfl

/-- A path goes on alike from two types that have the same fields and are named alike. -/
theorem check_turned_of_alike (catalog : Catalog) (seen : List Value) {type type' : Value}
    (path : List Value) (hfields : catalog.fields s read type' = catalog.fields s read type)
    (hlabel : Builder.modelLabel s type' = Builder.modelLabel s type) :
    catalog.check (s.turned own) read (Builder.modelLabel (s.turned own)) (turnedAll own seen) type'
        (turnedAll own path)
      = catalog.check s read (Builder.modelLabel s) seen type path := by
  induction path generalizing seen type type' with
  | nil => rfl
  | cons name rest ih =>
    have hstore : catalog.fields (s.turned own) read type' = catalog.fields s read type := by
      rw [← hfields]
      unfold fields
      simp only [resolveFields_turned_store]
    have hseen : turnedAll own seen ++ [name.turned own] = turnedAll own (seen ++ [name]) :=
      (Store.turnedAll_append seen [name]).symm
    rw [turnedAll, check, check, hstore, hseen, Builder.modelLabel_turned_store]
    cases catalog.fields s read type with
    | error f => rfl
    | ok fields =>
      have hshown := @Store.valueText_turned own s name
      have hpointer := @Store.pointer_turned own s (seen ++ [name])
      dsimp only [bind, Except.bind]
      rw [s.unhashable?_turned]
      cases s.unhashable? name with
      | some f => rfl
      | none =>
        -- a name that is no text is not declared, whatever it holds
        cases name with
        | text t =>
          cases hfound : fields.get? t with
          | some hint =>
            have hnext := @ih (seen ++ [.text t]) (unwrap hint) _ rfl rfl
            rw [Builder.modelLabel_turned_store] at hnext
            simpa [turned, hfound] using hnext
          | none =>
            simp only [turned, hfound, hpointer, hlabel] at hshown ⊢
            rw [hshown]
        | _ =>
          simp only [turned, hpointer, hlabel] at hshown ⊢
          rw [hshown]

/-- Which path a model declares does not depend on the arguments in it. -/
theorem check_turned (catalog : Catalog) (seen : List Value) (type : Value) (path : List Value) :
    catalog.check (s.turned own) read (Builder.modelLabel (s.turned own)) (turnedAll own seen)
        (type.turned own) (turnedAll own path)
      = catalog.check s read (Builder.modelLabel s) seen type path := by
  refine check_turned_of_alike s catalog seen path ?_ ?_
  · have h := @fields_turned own s read catalog type
    rwa [show catalog.fields (s.turned own) read (type.turned own)
      = catalog.fields s read (type.turned own) from by
        unfold fields
        simp only [resolveFields_turned_store]] at h
  · rw [← @Builder.modelLabel_turned own s type, Builder.modelLabel_turned_store]

end Catalog

end DraftSchema
