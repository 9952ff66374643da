import DraftSchema.Proofs.Growth
import DraftSchema.Proofs.Reading

/-!
# Rules as trees

What a rule holds, without addresses. The document of a rule is the document of its tree, and
whether a path can be gone along from an object rule, and whether its names can be listed, is seen
in the tree as well. `Tree.grow` says of trees what `Store.grow` says of stores.
-/

namespace DraftSchema

/-- What an object says of further properties: a value as it is, or the document of a rule. -/
inductive Further where
  | value (v : Option Value)
  | rule (document : Except Fault Value)

/-- A rule with all that is below it. Paths lead through objects alone, so that nothing but the
document of any other rule counts. -/
inductive Tree where
  /-- Nothing stands where a rule belongs. -/
  | absent
  | leaf (document : Except Fault Value)
  | object (kind : ObjectKind) (properties : List (Value × Tree)) (required : List Value)
      (further : Further)

namespace Entries

variable {κ α β : Type} [BEq κ]

theorem get?_map (f : α → β) (es : Entries κ α) (key : κ) :
    Entries.get? (es.map fun e => (e.1, f e.2)) key = (es.get? key).map f := by
  induction es with
  | nil => rfl
  | cons e es ih =>
    rw [List.map_cons, get?_cons, get?_cons, ih]
    split <;> rfl

theorem map_set (f : α → β) (es : Entries κ α) (key : κ) (v : α) :
    (es.set key v).map (fun e => (e.1, f e.2))
      = Entries.set (es.map fun e => (e.1, f e.2)) key (f v) := by
  induction es with
  | nil => rfl
  | cons e es ih =>
    simp only [set, List.map_cons]
    split
    · rfl
    · rw [List.map_cons, ih]

end Entries

/-! ## Documents of trees -/

/-- The document of an object, given those of its properties. -/
def objectForm (properties : Entries Value Value) (required : List Value)
    (additional : Option Value) : Value :=
  typedDocument "object"
    (Keyword.properties.member (some (.mapping properties))
      ++ Keyword.required.member (if required.isEmpty then none else some (.listing required))
      ++ Keyword.additionalProperties.member additional)

/-- What a document says of further properties. -/
def Further.document : Further → Except Fault (Option Value)
  | .value v => .ok v
  | .rule document => some <$> document

/-- What a builder without properties is written as, given its document property by property: the
rule for every key, if there is one. -/
def Further.bare (further : Further) (form : Except Fault Value) : Except Fault Value :=
  match further with
  | .value _ => form
  | .rule document => document

/-- What an object of some kind is written as, given what it is written as property by property and
as a builder. -/
def ObjectKind.written (kind : ObjectKind) (form body : Except Fault Value) : Except Fault Value :=
  match kind with
  | .plain => form
  | .schema => body
  | .dictionary => do
    let inner ← body
    return typedDocument "object" (Keyword.additionalProperties.member (some inner))

namespace Tree

mutual

/-- The document of a tree. -/
def document : Tree → Except Fault Value
  | absent => .error (Store.missing {} .null "to_dict")
  | leaf document => document
  | object kind properties required further =>
    let form := do
      let properties ← documents properties
      let additional ← further.document
      return objectForm properties required additional
    kind.written form (if properties.isEmpty then further.bare form else form)

/-- The documents of named trees. -/
def documents : List (Value × Tree) → Except Fault (Entries Value Value)
  | [] => .ok []
  | (name, t) :: rest => do
    let d ← t.document
    let ds ← documents rest
    return (name, d) :: ds

end

/-! ## Growth of trees -/

/-- An object as a path makes it. -/
def empty : Tree := .object .plain [] [] (.value none)

/-- What a path goes on from: what is there, or an object made for it. -/
def entered : Option Tree → Tree
  | none | some .absent => .empty
  | some t => t

/-- The required names after one more is listed. -/
def listed (flag : Bool) (name : Value) (required : List Value) : List Value :=
  if flag ∧ Entries.has required name = false then required ++ [name] else required

/-- Puts a tree under a path: on every level what stands under the name is entered, and the name is
listed if the flag says so. -/
def grow (flag : Bool) : Tree → Tree → List Value → Tree
  | _, new, [] => new
  | .object kind properties required further, new, name :: rest =>
    .object kind
      (Entries.set properties name (grow flag (entered (Entries.get? properties name)) new rest))
      (listed flag name required) further
  | t, _, _ :: _ => t

/-- Whether a path may lead through a tree. -/
def accepts : Tree → Bool
  | .object kind .. => kind.acceptsProperties
  | _ => false

/-- Whether a path can be gone along. -/
def passes : Tree → List Value → Bool
  | .object _ properties _ _, name :: rest =>
    rest.isEmpty ||
      (entered (Entries.get? properties name)).accepts &&
        passes (entered (Entries.get? properties name)) rest
  | _, _ => false

/-- Whether the names of a path can be looked for among the required ones. -/
def listable : Tree → List Value → Bool
  | .object _ properties required _, name :: rest =>
    ObjectRule.searchable { ObjectRule.empty with required } name &&
      listable (entered (Entries.get? properties name)) rest
  | _, _ => true

/-- Nothing is in the way below an empty object. -/
theorem passes_empty {path : List Value} (hp : path ≠ []) : empty.passes path = true := by
  induction path with
  | nil => exact absurd rfl hp
  | cons name rest ih =>
    show (rest.isEmpty || (true && empty.passes rest)) = true
    by_cases hrest : rest = []
    · rw [hrest]
      rfl
    · rw [ih hrest]
      simp

@[simp] theorem listable_nil (t : Tree) : t.listable [] = true := by
  cases t <;> rfl

theorem listable_empty (path : List Value) : empty.listable path = true := by
  induction path with
  | nil => rfl
  | cons name rest ih =>
    show (true && empty.listable rest) = true
    rw [ih]
    rfl

end Tree

namespace Store

/-! ## The tree of a rule -/

/-- The tree of what stands where a rule belongs. -/
def memberTree (s : Store) (tree : NodeId → Tree) (v : Value) : Tree :=
  match v with
  | .node id => tree id
  | .null => .absent
  | v => .leaf (s.memberDocument (fun c => (tree c).document) v)

/-- What is said of further properties, given the documents of rules. -/
def furtherOf (document : NodeId → Except Fault Value) : Option Value → Further
  | some (.node id) => .rule (document id)
  | other => .value other

/-- The tree of a rule, given the trees of the rules it refers to. -/
def treeOf (s : Store) (tree : NodeId → Tree) (rule : Rule) : Tree :=
  match rule with
  | .object r =>
    .object r.kind (r.properties.map fun e => (e.1, s.memberTree tree e.2)) r.required
      (furtherOf (fun c => (tree c).document) r.additional)
  | rule => .leaf (s.documentOf (fun c => (tree c).document) rule)

section Congruence

variable {s t : Store} {f g : NodeId → Tree}

theorem memberTree_congr (v : Value) (h : ∀ c ∈ v.nodes, s.get? c = t.get? c ∧ f c = g c) :
    s.memberTree f v = t.memberTree g v := by
  have hleaf := memberDocument_congr (f := fun c => (f c).document)
    (g := fun c => (g c).document) v fun c hc => ⟨(h c hc).1, by rw [(h c hc).2]⟩
  unfold memberTree
  split
  · exact (h _ (by simp [Value.nodes])).2
  · rfl
  · rw [hleaf]

theorem furtherOf_congr {f g : NodeId → Except Fault Value} (v : Option Value)
    (h : ∀ c ∈ Value.nodesOf v.toList, f c = g c) : furtherOf f v = furtherOf g v := by
  unfold furtherOf
  split
  · rw [h _ (by simp [Value.nodesOf, Value.nodes])]
  · rfl

theorem treeOf_congr (rule : Rule)
    (h : ∀ c ∈ rule.references, s.get? c = t.get? c ∧ f c = g c) :
    s.treeOf f rule = t.treeOf g rule := by
  have hleaf := documentOf_congr (f := fun c => (f c).document)
    (g := fun c => (g c).document) rule fun c hc => ⟨(h c hc).1, by rw [(h c hc).2]⟩
  unfold treeOf
  split
  · rename_i r
    have hr : ∀ c ∈ r.references, s.get? c = t.get? c ∧ f c = g c := fun c hc =>
      h c (by simp [Rule.references, hc])
    simp only [ObjectRule.references, List.mem_append] at hr
    congr 1
    · refine List.map_congr_left fun e he => ?_
      rw [memberTree_congr e.2 fun c hc =>
        hr c (.inl (Value.mem_nodesUnder.mpr ⟨e, he, .inr hc⟩))]
    · exact furtherOf_congr r.additional fun c hc => by rw [(hr c (.inr (.inr hc))).2]
  · rw [hleaf]

end Congruence

/-- Trees as a reading. -/
def treeReading : Reading Tree where
  bottom := .leaf (.error .tooDeep)
  step := treeOf
  congr := treeOf_congr

/-- The tree of the rule at an address. -/
def tree (s : Store) (id : NodeId) : Tree := treeReading.read s id

section Documents

variable {s : Store} {tree : NodeId → Tree}

theorem document_memberTree (v : Value) :
    (s.memberTree tree v).document = s.memberDocument (fun c => (tree c).document) v := by
  unfold memberTree
  split <;> rfl

theorem documents_map_memberTree (es : Entries Value Value) :
    Tree.documents (es.map fun e => (e.1, s.memberTree tree e.2))
      = s.propertyDocuments (fun c => (tree c).document) es := by
  induction es with
  | nil => rfl
  | cons e es ih =>
    rw [List.map_cons, Tree.documents, document_memberTree, ih]
    rfl

theorem document_furtherOf (f : NodeId → Except Fault Value) (v : Option Value) :
    (furtherOf f v).document = additionalDocument f v := by
  cases v with
  | none => rfl
  | some v => cases v <;> rfl

theorem bare_furtherOf (f : NodeId → Except Fault Value) (r : ObjectRule) :
    (if r.properties.isEmpty then (furtherOf f r.additional).bare (s.objectDocument f r)
      else s.objectDocument f r) = s.schemaDocument f r := by
  unfold schemaDocument
  cases r.properties with
  | cons e es => rfl
  | nil =>
    cases r.additional with
    | none => rfl
    | some v => cases v <;> rfl

/-- The tree of a rule has the document of the rule. -/
theorem document_treeOf (rule : Rule) :
    (s.treeOf tree rule).document = s.documentOf (fun c => (tree c).document) rule := by
  unfold treeOf
  split
  · rename_i r
    have hform : (do
        let properties ← Tree.documents (r.properties.map fun e => (e.1, s.memberTree tree e.2))
        let additional ← (furtherOf (fun c => (tree c).document) r.additional).document
        return objectForm properties r.required additional)
          = s.objectDocument (fun c => (tree c).document) r := by
      rw [documents_map_memberTree, document_furtherOf]
      rfl
    rw [Tree.document, hform, List.isEmpty_map, bare_furtherOf]
    cases hkind : r.kind <;> simp only [documentOf, hkind] <;> rfl
  · rfl

end Documents

end Store

namespace Reading

/-- What is made of a reading is another reading, if it is so for every rule. -/
theorem read_map {β γ : Type} (R : Reading β) (Q : Reading γ) (φ : β → γ)
    (hbottom : φ R.bottom = Q.bottom)
    (hstep : ∀ s f rule, φ (R.step s f rule) = Q.step s (fun c => φ (f c)) rule) (s : Store)
    (id : NodeId) : φ (R.read s id) = Q.read s id := by
  have within : ∀ n id, φ (R.within s n id) = Q.within s n id := by
    intro n
    induction n with
    | zero => exact fun _ => hbottom
    | succ n ih =>
      intro id
      rw [Reading.within, Reading.within]
      cases s.get? id with
      | none => exact hbottom
      | some node =>
        dsimp only
        rw [hstep, show (fun c => φ (R.within s n c)) = Q.within s n from funext ih]
  exact within _ id

end Reading

namespace Store

/-- The document of a rule is that of its tree. -/
theorem document_tree (s : Store) (id : NodeId) : (s.tree id).document = s.document id := by
  rw [document, documentWithin_eq]
  exact treeReading.read_map documentReading Tree.document rfl
    (fun s f rule => document_treeOf rule) s id

end Store

end DraftSchema
