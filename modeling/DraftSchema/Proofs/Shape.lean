import DraftSchema.Proofs.Listing
import DraftSchema.Proofs.Output

/-!
# The shape of documents

What a document looks like wherever a rule stands in it: it is typed or combines others, and keywords
that belong together stand together. A rule that is tidy, and whose rules inside have such documents,
has one as well; so an acyclic rule in a tidy store does, at every depth.
-/

namespace DraftSchema

namespace Draft04

/-- The names of the types that documents are bound to. -/
def typeNames : List String := ["string", "number", "boolean", "array", "object"]

/-- A document that is made of others by a keyword alone: by a list of them, or by one. -/
def Combines (members : Entries String Value) : Prop :=
  (∃ k ds, (k = .anyOf ∨ k = .oneOf ∨ k = .allOf) ∧
    members = [(Keyword.text k, Value.listing ds)]) ∨ ∃ d, members = [(Keyword.not.text, d)]

/-- What the members of a document are like. -/
structure Shape (members : Entries String Value) : Prop where
  distinct : members.keys.Nodup
  kind : (∃ type ∈ typeNames, (Keyword.type.text, .text type) ∈ members) ∨ Combines members
  present : ∀ e ∈ members, e.2 ≠ .null
  /-- A bound is said to be exclusive only beside it. -/
  bounds : ∀ v, ((Keyword.exclusiveMinimum.text, v) ∈ members →
      ∃ u, (Keyword.minimum.text, u) ∈ members) ∧
    ((Keyword.exclusiveMaximum.text, v) ∈ members → ∃ u, (Keyword.maximum.text, u) ∈ members)
  lengths : ∀ v, (Keyword.minItems.text, v) ∈ members ∨ (Keyword.maxItems.text, v) ∈ members →
    ∃ n : Nat, v = .int n
  /-- Required names are those of properties of the object. -/
  required : ∀ v, (Keyword.required.text, v) ∈ members →
    (Keyword.type.text, .text "object") ∈ members ∧ ∃ names es, v = .listing names ∧ names ≠ [] ∧
      (Keyword.properties.text, .mapping es) ∈ members ∧
      ∀ name ∈ names, Entries.has (Entries.keys es) name = true
  undrafted : Keyword.schema.text ∉ members.keys

/-- The documents that stand for a rule directly inside a document. -/
inductive Part (members : Entries String Value) : Value → Prop
  | property {es : Entries Value Value} {name d : Value}
      (member : (Keyword.properties.text, Value.mapping es) ∈ members) (entry : (name, d) ∈ es) :
      Part members d
  | additional {d : Value} (member : (Keyword.additionalProperties.text, d) ∈ members) :
      Part members d
  | every {d : Value} (member : (Keyword.items.text, d) ∈ members)
      (single : ∀ ds, d ≠ Value.listing ds) : Part members d
  | each {ds : List Value} {d : Value} (member : (Keyword.items.text, Value.listing ds) ∈ members)
      (element : d ∈ ds) : Part members d
  | choice {k : Keyword} {ds : List Value} {d : Value}
      (combines : k = .anyOf ∨ k = .oneOf ∨ k = .allOf)
      (member : (k.text, Value.listing ds) ∈ members) (element : d ∈ ds) : Part members d
  | negated {d : Value} (member : (Keyword.not.text, d) ∈ members) : Part members d

/-- A document has the shape of one wherever a rule stands in it. -/
inductive Shaped : Value → Prop
  | mk {members : Entries String Value} (shape : Shape members)
      (parts : ∀ d, Part members d → Shaped d) : Shaped (.record members)

end Draft04

open Draft04

theorem Keyword.text_injective : Function.Injective Keyword.text := by
  intro k k' h
  cases k <;> cases k' <;> first | rfl | exact absurd h (by decide)

@[simp] theorem Keyword.text_inj {k k' : Keyword} : k.text = k'.text ↔ k = k' :=
  Keyword.text_injective.eq_iff

theorem Keyword.mem_member_iff {k : Keyword} {o : Option Value} {name : String} {v : Value} :
    (name, v) ∈ k.member o ↔ name = k.text ∧ o = some v := by
  cases o <;> simp [member, eq_comm]

/-! ## Keywords that have values -/

/-- The members that keywords are written as, of which each may have a value. -/
def written (fields : List (Keyword × Option Value)) : Entries String Value :=
  fields.flatMap fun e => e.1.member e.2

theorem mem_written {fields : List (Keyword × Option Value)} {k : Keyword} {v : Value} :
    (k.text, v) ∈ written fields ↔ (k, some v) ∈ fields := by
  rw [written, List.mem_flatMap]
  constructor
  · rintro ⟨⟨k', o⟩, he, hv⟩
    obtain ⟨hk, rfl⟩ := Keyword.mem_member_iff.mp hv
    rw [Keyword.text_injective hk]
    exact he
  · exact fun h => ⟨(k, some v), h, Keyword.mem_member_iff.mpr ⟨rfl, rfl⟩⟩

/-- What is written stands under keywords, in their order. -/
theorem keys_written_sublist (fields : List (Keyword × Option Value)) :
    (written fields).keys.Sublist (fields.map fun e => e.1.text) := by
  induction fields with
  | nil => exact .refl _
  | cons e fields ih =>
    obtain ⟨k, o⟩ := e
    have hcons : written ((k, o) :: fields) = k.member o ++ written fields := rfl
    rw [hcons, Entries.keys, List.map_append, List.map_cons]
    cases o with
    | none => exact ih.cons _
    | some v => exact ih.cons_cons _

/-- A member under a keyword is written for a field. -/
theorem exists_of_mem_written {fields : List (Keyword × Option Value)} {e : String × Value}
    (h : e ∈ written fields) : ∃ k, e.1 = k.text ∧ (k, some e.2) ∈ fields := by
  obtain ⟨⟨k, o⟩, he, hv⟩ := List.mem_flatMap.mp h
  obtain ⟨hk, rfl⟩ := Keyword.mem_member_iff.mp hv
  exact ⟨k, hk, he⟩

/-! ## Rules that are tidy -/

/-- A rule as raw values and combinations of rules are made into, and builders: the rules inside have
addresses below a bound, and properties have given names. -/
inductive Rule.Tidy (names : Value → Prop) (bound : Nat) : Rule → Prop
  | pattern (source : String) :
      Tidy names bound (.string { StringRule.any with pattern := some (.text source) })
  | literal (s : String) :
      Tidy names bound (.string { StringRule.any with allowed := some [.text s] })
  | truth (b : Bool) : Tidy names bound (.boolean (some [.bool b]))
  | number {b : Bounds Value} (least : b.min.isBound = true ∨ b.min = .null)
      (most : b.max.isBound = true ∨ b.max = .null) : Tidy names bound (.number (.ofBounds b))
  | array {b : LengthBounds} {items : Items} (known : ∀ c ∈ items.children, c < bound) :
      Tidy names bound (.array { ArrayRule.ofLengths b with items })
  | object {r : ObjectRule}
      (properties : ∀ k v, (k, v) ∈ r.properties → names k ∧ ∃ c < bound, v = .node c)
      (additional : ∀ v, r.additional = some v → ∃ c < bound, v = .node c)
      (required : ∀ k ∈ r.required, names k) (covered : r.Covered) : Tidy names bound (.object r)
  | combinator {kind : CombinatorKind} {children : List NodeId} (written : kind ≠ .plain)
      (known : ∀ c ∈ children, c < bound) : Tidy names bound (.combinator kind children)
  | negation {child : NodeId} (known : child < bound) : Tidy names bound (.negation child)

theorem Rule.Tidy.mono {names : Value → Prop} {bound bound' : Nat} {rule : Rule}
    (h : rule.Tidy names bound) (hle : bound ≤ bound') : rule.Tidy names bound' := by
  have node : ∀ v, (∃ c < bound, v = Value.node c) → ∃ c < bound', v = Value.node c :=
    fun v ⟨c, hc, hv⟩ => ⟨c, hc.trans_le hle, hv⟩
  cases h with
  | pattern source => exact .pattern source
  | literal s => exact .literal s
  | truth b => exact .truth b
  | number least most => exact .number least most
  | array known => exact .array fun c hc => (known c hc).trans_le hle
  | object properties additional required covered =>
    exact .object (fun k v hv => (properties k v hv).imp_right (node v))
      (fun v hv => node v (additional v hv)) required covered
  | combinator written known => exact .combinator written fun c hc => (known c hc).trans_le hle
  | negation known => exact .negation (known.trans_le hle)

/-! ## Documents of tidy rules -/

/-- Keywords that stand together in a typed document as they should, besides the type. -/
structure Fits (type : String) (fields : List (Keyword × Option Value)) : Prop where
  known : type ∈ typeNames := by simp [typeNames]
  keys : (Keyword.schema :: .type :: .anyOf :: .oneOf :: .allOf :: .not :: fields.map Prod.fst).Nodup
    := by simp
  present : ∀ k v, (k, some v) ∈ fields → v ≠ .null
  bounds : ∀ v, ((Keyword.exclusiveMinimum, some v) ∈ fields → ∃ u, (Keyword.minimum, some u) ∈ fields)
    ∧ ((Keyword.exclusiveMaximum, some v) ∈ fields → ∃ u, (Keyword.maximum, some u) ∈ fields) := by simp
  lengths : ∀ v, (Keyword.minItems, some v) ∈ fields ∨ (Keyword.maxItems, some v) ∈ fields →
    ∃ n : Nat, v = .int n := by simp
  required : ∀ v, (Keyword.required, some v) ∈ fields → type = "object" ∧
    ∃ names es, v = .listing names ∧ names ≠ [] ∧ (Keyword.properties, some (.mapping es)) ∈ fields ∧
      ∀ name ∈ names, Entries.has (Entries.keys es) name = true := by simp
  properties : ∀ es : Entries Value Value, (Keyword.properties, some (.mapping es)) ∈ fields →
    ∀ e ∈ es, Shaped e.2 := by simp
  additional : ∀ d, (Keyword.additionalProperties, some d) ∈ fields → Shaped d := by simp
  items : ∀ d, (Keyword.items, some d) ∈ fields →
    Shaped d ∨ ∃ ds, d = .listing ds ∧ ∀ x ∈ ds, Shaped x := by simp

section

variable {type : String} {fields : List (Keyword × Option Value)}

/-- A keyword other than the type is written for one of the other fields. -/
theorem mem_written_typed {k : Keyword} {v : Value} (hk : k ≠ .type) :
    (k.text, v) ∈ written ((.type, some (.text type)) :: fields) ↔ (k, some v) ∈ fields := by
  rw [mem_written, List.mem_cons, or_iff_right]
  exact fun h => hk (congrArg Prod.fst h)

/-- The members of a typed document are of the shape. -/
theorem Fits.shape (h : Fits type fields) :
    Shape (written ((.type, some (.text type)) :: fields)) := by
  have htyped : (Keyword.type.text, Value.text type)
      ∈ written ((.type, some (.text type)) :: fields) := mem_written.mpr List.mem_cons_self
  have hsub := keys_written_sublist ((.type, some (.text type)) :: fields)
  have hkeys : ((Keyword.type :: fields.map Prod.fst)).Nodup ∧
      Keyword.schema ∉ Keyword.type :: fields.map Prod.fst := by
    have := h.keys
    simp only [List.nodup_cons, List.mem_cons] at this ⊢
    tauto
  refine ⟨?_, .inl ⟨type, h.known, htyped⟩, ?_, ?_, ?_, ?_, ?_⟩
  · have htexts := hkeys.1.map Keyword.text_injective
    rw [List.map_cons, List.map_map] at htexts
    exact hsub.nodup htexts
  · intro e he
    obtain ⟨k, -, hk⟩ := exists_of_mem_written he
    rcases List.mem_cons.mp hk with hk | hk
    · obtain ⟨-, hv⟩ := Prod.mk.inj hk
      rw [Option.some.inj hv]
      exact nofun
    · exact h.present k e.2 hk
  · intro v
    simp only [mem_written_typed (k := .exclusiveMinimum) nofun,
      mem_written_typed (k := .exclusiveMaximum) nofun, mem_written_typed (k := .minimum) nofun,
      mem_written_typed (k := .maximum) nofun]
    exact h.bounds v
  · intro v
    simp only [mem_written_typed (k := .minItems) nofun, mem_written_typed (k := .maxItems) nofun]
    exact h.lengths v
  · intro v hv
    obtain ⟨rfl, names, es, hnames, hne, hes, hcovered⟩ :=
      h.required v ((mem_written_typed (k := .required) nofun).mp hv)
    exact ⟨htyped, names, es, hnames, hne, (mem_written_typed (k := .properties) nofun).mpr hes,
      hcovered⟩
  · intro hmem
    obtain ⟨e, he, htext⟩ := List.mem_map.mp (hsub.subset hmem)
    refine hkeys.2 ?_
    rw [← Keyword.text_injective htext]
    exact List.mem_map_of_mem he

/-- The documents inside a typed document have the shape as well. -/
theorem Fits.part (h : Fits type fields) {d : Value}
    (hd : Part (written ((.type, some (.text type)) :: fields)) d) : Shaped d := by
  have hold : ∀ {k v}, k ≠ .type → (k.text, v) ∈ written ((.type, some (.text type)) :: fields) →
      (k, some v) ∈ fields := fun hk => (mem_written_typed hk).mp
  have hnew : ∀ k ∈ [Keyword.anyOf, .oneOf, .allOf, .not], ∀ v, (k, some v) ∉ fields := by
    intro k hk v hv
    have hkeys := h.keys
    have hmem := List.mem_map_of_mem (f := Prod.fst) hv
    simp only [List.nodup_cons, List.mem_cons] at hkeys hk
    rcases hk with rfl | rfl | rfl | rfl | hk <;> tauto
  cases hd with
  | property member entry => exact h.properties _ (hold (k := .properties) nofun member) _ entry
  | additional member => exact h.additional d (hold (k := .additionalProperties) nofun member)
  | every member single =>
    rcases h.items d (hold (k := .items) nofun member) with hd | ⟨ds, hds, -⟩
    · exact hd
    · exact absurd hds (single ds)
  | each member element =>
    rcases h.items _ (hold (k := .items) nofun member) with hd | ⟨ds, hds, hall⟩
    · cases hd
    · cases hds
      exact hall d element
  | choice combines member =>
    rcases combines with rfl | rfl | rfl
    · exact absurd (hold (k := .anyOf) nofun member) (hnew .anyOf (by simp) _)
    · exact absurd (hold (k := .oneOf) nofun member) (hnew .oneOf (by simp) _)
    · exact absurd (hold (k := .allOf) nofun member) (hnew .allOf (by simp) _)
  | negated member => exact absurd (hold (k := .not) nofun member) (hnew .not (by simp) _)

theorem Fits.shaped (fields : List (Keyword × Option Value)) (h : Fits type fields) :
    Shaped (typedDocument type (written fields)) :=
  .mk h.shape fun _ hd => h.part hd

end

theorem Value.record_injective : Function.Injective Value.record := by
  intro members members' h
  obtain ⟨-, h⟩ := Value.dict.inj h
  refine List.map_injective_iff.mpr (fun e e' he => ?_) h
  obtain ⟨hname, hv⟩ := Prod.mk.inj he
  exact Prod.ext (Value.text.inj hname) hv

theorem Draft04.Shaped.shape {members : Entries String Value} (h : Shaped (.record members)) :
    Shape members := by
  generalize hd : Value.record members = d at h
  cases h with
  | mk shape =>
    rw [Value.record_injective hd]
    exact shape

theorem Draft04.Shaped.ne_null {d : Value} (h : Shaped d) : d ≠ .null := by
  cases h
  exact nofun

/-! ### Rules without rules inside -/

theorem pattern_shaped (source : String) : Shaped (typedDocument "string"
    { StringRule.any with pattern := some (.text source) }.keywords) :=
  Fits.shaped [(.pattern, some (.text source))] { present := by simp }

theorem literal_shaped (s : String) : Shaped (typedDocument "string"
    { StringRule.any with allowed := some [.text s] }.keywords) :=
  Fits.shaped [(.enum, some (.listing [.text s]))] { present := by simp [Value.listing] }

theorem truth_shaped (b : Bool) :
    Shaped (typedDocument "boolean" (allowedKeywords (some [.bool b]))) :=
  Fits.shaped [(.enum, some (.listing [.bool b]))] { present := by simp [Value.listing] }

theorem Value.present_ne_null {u v : Value} (h : u.present = some v) : v ≠ .null := by
  rintro rfl
  cases u <;> cases h

/-- The keywords of a rule for numbers within bounds. -/
theorem keywords_ofBounds (b : Bounds Value) : (NumberRule.ofBounds b).keywords = written
    [(.minimum, b.min.present),
     (.exclusiveMinimum, b.min.present.bind fun _ => (NumberRule.ofBounds b).exclusiveMinimum),
     (.maximum, b.max.present),
     (.exclusiveMaximum, b.max.present.bind fun _ => (NumberRule.ofBounds b).exclusiveMaximum)] := by
  have hmin : (NumberRule.ofBounds b).minimum = b.min.present := rfl
  have hmax : (NumberRule.ofBounds b).maximum = b.max.present := rfl
  rw [NumberRule.keywords, hmin, hmax]
  cases b.min.present <;> cases b.max.present <;>
    simp [written, Keyword.member, NumberRule.ofBounds, NumberRule.any]

theorem number_shaped (b : Bounds Value) :
    Shaped (typedDocument "number" (NumberRule.ofBounds b).keywords) := by
  have hexclusive : (NumberRule.ofBounds b).exclusiveMinimum ≠ some .null ∧
      (NumberRule.ofBounds b).exclusiveMaximum ≠ some .null := by
    simp only [NumberRule.ofBounds]
    constructor <;> split <;> simp
  have hbound : ∀ {o : Option Value} {u v : Value}, (u.present.bind fun _ => o) = some v →
      (∃ x, some x = u.present) ∧ o = some v := by
    intro o u v h
    obtain ⟨x, hx, ho⟩ := Option.bind_eq_some_iff.mp h
    exact ⟨⟨x, hx.symm⟩, ho⟩
  rw [keywords_ofBounds]
  refine Fits.shaped _ { present := ?_, bounds := fun v => ?_ }
  · simp only [List.mem_cons, Prod.mk.injEq, List.not_mem_nil, or_false]
    rintro k v (⟨-, h⟩ | ⟨-, h⟩ | ⟨-, h⟩ | ⟨-, h⟩) rfl
    · exact Value.present_ne_null h.symm rfl
    · exact hexclusive.1 (hbound h.symm).2
    · exact Value.present_ne_null h.symm rfl
    · exact hexclusive.2 (hbound h.symm).2
  · -- an exclusive bound is written only where there is the bound
    simp only [List.mem_cons, Prod.mk.injEq, reduceCtorEq, false_and, true_and, List.not_mem_nil,
      or_false, false_or]
    exact ⟨fun h => (hbound h.symm).1, fun h => (hbound h.symm).1⟩

/-! ### Rules with rules inside -/

/-- A rule has a document, and it has the shape. -/
def Documents (f : NodeId → Except Fault Value) (c : NodeId) : Prop :=
  ∃ d, f c = .ok d ∧ Shaped d

/-- What a document says of the elements of an array: nothing, one document or a list of them. -/
def ItemsShaped (o : Option Value) : Prop :=
  ∀ d, o = some d → Shaped d ∨ ∃ ds, d = .listing ds ∧ ∀ x ∈ ds, Shaped x

theorem array_shaped {b : LengthBounds} {o : Option Value} (ho : ItemsShaped o) :
    Shaped (typedDocument "array" (written
      [(.minItems, lengthValue b.least), (.maxItems, lengthValue b.most), (.items, o)])) := by
  have hlength : ∀ {n : Option Nat} {v}, some v = lengthValue n → ∃ m : Nat, v = .int m := by
    intro n v h
    cases n with
    | none => cases h
    | some m => exact ⟨m, Option.some.inj h⟩
  refine Fits.shaped _ { present := ?_, lengths := fun v => ?_, items := fun d hd => ?_ }
  · simp only [List.mem_cons, Prod.mk.injEq, List.not_mem_nil, or_false]
    rintro k v (⟨-, h⟩ | ⟨-, h⟩ | ⟨-, h⟩)
    · obtain ⟨m, rfl⟩ := hlength h
      exact nofun
    · obtain ⟨m, rfl⟩ := hlength h
      exact nofun
    · rcases ho v h.symm with hd | ⟨ds, rfl, -⟩
      · exact hd.ne_null
      · exact nofun
  · simp only [List.mem_cons, Prod.mk.injEq, reduceCtorEq, false_and, true_and, List.not_mem_nil,
      or_false, false_or]
    exact fun h => h.elim hlength hlength
  · refine ho d ?_
    simpa [eq_comm] using hd

/-- The document of an object that requires names of properties only. -/
theorem object_shaped {r : ObjectRule} {ps : Entries Value Value} {additional : Option Value}
    (hkeys : Entries.keys ps = r.properties.keys) (hps : ∀ e ∈ ps, Shaped e.2)
    (hadditional : ∀ d, additional = some d → Shaped d) (hr : r.Covered) :
    Shaped (typedDocument "object" (written [(.properties, some (.mapping ps)),
      (.required, r.requiredPart), (.additionalProperties, additional)])) := by
  have hrequired : ∀ v, some v = r.requiredPart → v = .listing r.required ∧ r.required ≠ [] := by
    intro v h
    rw [ObjectRule.requiredPart] at h
    split at h
    · cases h
    · rename_i hne
      exact ⟨Option.some.inj h, by simpa using hne⟩
  refine Fits.shaped _ {
    present := ?_, required := fun v hv => ?_, properties := ?_, additional := fun d hd => ?_ }
  · simp only [List.mem_cons, Prod.mk.injEq, List.not_mem_nil, or_false]
    rintro k v (⟨-, h⟩ | ⟨-, h⟩ | ⟨-, h⟩)
    · cases h
      exact nofun
    · rw [(hrequired v h).1]
      exact nofun
    · exact (hadditional v h.symm).ne_null
  · obtain ⟨rfl, hne⟩ := hrequired v (by simpa using hv)
    refine ⟨rfl, r.required, ps, rfl, hne, List.mem_cons_self, fun name hname => ?_⟩
    rw [hkeys]
    exact hr name hname
  · intro es hes
    have hes : es = ps := by simpa [Value.mapping] using hes
    exact hes ▸ hps
  · exact hadditional d (by simpa [eq_comm] using hd)

/-- The document of a dictionary, around that of what it says of every value. -/
theorem dictionary_shaped {inner : Value} (h : Shaped inner) :
    Shaped (typedDocument "object" (Keyword.additionalProperties.member (some inner))) := by
  refine Fits.shaped [(.additionalProperties, some inner)] {
    present := fun k v hv => ?_, additional := fun d hd => ?_ }
  · cases List.mem_singleton.mp hv
    exact h.ne_null
  · cases List.mem_singleton.mp hd
    exact h

/-- A document that combines others has the shape. -/
theorem combines_shaped {k : Keyword} {d : Value} (hcombines : Combines [(k.text, d)])
    (hk : k ∈ [.anyOf, .oneOf, .allOf, .not]) (hd : d ≠ .null)
    (hparts : ∀ x, Part [(k.text, d)] x → Shaped x) : Shaped (.record [(k.text, d)]) := by
  have hother : ∀ {x : Keyword} {v : Value}, x ∉ [Keyword.anyOf, .oneOf, .allOf, .not] →
      (x.text, v) ∉ [(k.text, d)] := by
    intro x v hx h
    rw [Keyword.text_injective (Prod.mk.inj (List.mem_singleton.mp h)).1] at hx
    exact hx hk
  refine .mk ⟨List.nodup_singleton _, .inr hcombines, ?_, fun v => ⟨?_, ?_⟩, ?_, ?_, ?_⟩ hparts
  · intro e he
    cases List.mem_singleton.mp he
    exact hd
  · exact fun h => absurd h (hother (x := .exclusiveMinimum) (by simp))
  · exact fun h => absurd h (hother (x := .exclusiveMaximum) (by simp))
  · exact fun v h => h.elim (fun h => absurd h (hother (x := .minItems) (by simp)))
      fun h => absurd h (hother (x := .maxItems) (by simp))
  · exact fun v h => absurd h (hother (x := .required) (by simp))
  · intro h
    rw [← Keyword.text_injective (List.mem_singleton.mp h)] at hk
    simp at hk

theorem combinator_shaped {kind : CombinatorKind} {ds : List Value} (hkind : kind ≠ .plain)
    (hds : ∀ d ∈ ds, Shaped d) : Shaped (.record [(kind.keyword, .listing ds)]) := by
  obtain ⟨k, hk, hkeyword⟩ : ∃ k : Keyword, (k = .anyOf ∨ k = .oneOf ∨ k = .allOf) ∧
      kind.keyword = k.text := by
    cases kind with
    | plain => exact absurd rfl hkind
    | anyOf => exact ⟨.anyOf, .inl rfl, rfl⟩
    | oneOf => exact ⟨.oneOf, .inr (.inl rfl), rfl⟩
    | allOf => exact ⟨.allOf, .inr (.inr rfl), rfl⟩
  rw [hkeyword]
  refine combines_shaped (.inl ⟨k, ds, hk, rfl⟩) (by rcases hk with rfl | rfl | rfl <;> simp) nofun ?_
  have hsame : ∀ {x : Keyword} {v : Value}, (x.text, v) ∈ [(k.text, Value.listing ds)] →
      x = k ∧ v = .listing ds := by
    intro x v h
    obtain ⟨htext, hv⟩ := Prod.mk.inj (List.mem_singleton.mp h)
    exact ⟨Keyword.text_injective htext, hv⟩
  intro d hd
  cases hd with
  | property member =>
    obtain ⟨rfl, -⟩ := hsame (x := .properties) member
    simp at hk
  | additional member =>
    obtain ⟨rfl, -⟩ := hsame (x := .additionalProperties) member
    simp at hk
  | every member =>
    obtain ⟨rfl, -⟩ := hsame (x := .items) member
    simp at hk
  | each member =>
    obtain ⟨rfl, -⟩ := hsame (x := .items) member
    simp at hk
  | choice _ member element =>
    obtain ⟨-, hv⟩ := hsame member
    cases hv
    exact hds d element
  | negated member =>
    obtain ⟨rfl, -⟩ := hsame (x := .not) member
    simp at hk

theorem negation_shaped {d : Value} (h : Shaped d) : Shaped (.record [(Keyword.not.text, d)]) := by
  refine combines_shaped (.inr ⟨d, rfl⟩) (by simp) h.ne_null fun x hx => ?_
  have hsame : ∀ {k : Keyword} {v : Value}, (k.text, v) ∈ [(Keyword.not.text, d)] →
      k = .not ∧ v = d := by
    intro k v h
    obtain ⟨htext, hv⟩ := Prod.mk.inj (List.mem_singleton.mp h)
    exact ⟨Keyword.text_injective htext, hv⟩
  cases hx with
  | property member => cases (hsame (k := .properties) member).1
  | additional member => cases (hsame (k := .additionalProperties) member).1
  | every member => cases (hsame (k := .items) member).1
  | each member => cases (hsame (k := .items) member).1
  | choice combines member =>
    obtain ⟨rfl, -⟩ := hsame member
    simp at combines
  | negated member =>
    obtain ⟨-, rfl⟩ := hsame (k := .not) member
    exact h

namespace Store

variable {names : Value → Prop} {bound : Nat} {s : Store} {f : NodeId → Except Fault Value}

theorem propertyDocuments_shaped {es : Entries Value Value}
    (h : ∀ k v, (k, v) ∈ es → ∃ c, v = .node c ∧ Documents f c) :
    ∃ ds, s.propertyDocuments f es = .ok ds ∧ Entries.keys ds = Entries.keys es ∧
      ∀ e ∈ ds, Shaped e.2 := by
  induction es with
  | nil => exact ⟨[], rfl, rfl, fun _ h => absurd h List.not_mem_nil⟩
  | cons e es ih =>
    obtain ⟨k, v⟩ := e
    obtain ⟨c, rfl, d, hd, hshaped⟩ := h k v List.mem_cons_self
    obtain ⟨ds, hds, hkeys, hall⟩ := ih fun k v hv => h k v (List.mem_cons_of_mem _ hv)
    refine ⟨(k, d) :: ds, ?_, ?_, ?_⟩
    · exact except_bind_eq_ok.mpr ⟨d, hd, except_bind_eq_ok.mpr ⟨ds, hds, rfl⟩⟩
    · rw [Entries.keys_cons, Entries.keys_cons, hkeys]
    · intro e he
      rcases List.mem_cons.mp he with rfl | he
      · exact hshaped
      · exact hall e he

theorem childDocuments_shaped {ids : List NodeId} (h : ∀ c ∈ ids, Documents f c) :
    ∃ ds, childDocuments f ids = .ok ds ∧ ∀ d ∈ ds, Shaped d := by
  induction ids with
  | nil => exact ⟨[], rfl, fun _ h => absurd h List.not_mem_nil⟩
  | cons c ids ih =>
    obtain ⟨d, hd, hshaped⟩ := h c List.mem_cons_self
    obtain ⟨ds, hds, hall⟩ := ih fun c hc => h c (List.mem_cons_of_mem _ hc)
    exact ⟨d :: ds, except_bind_eq_ok.mpr ⟨d, hd, except_bind_eq_ok.mpr ⟨ds, hds, rfl⟩⟩,
      List.forall_mem_cons.mpr ⟨hshaped, hall⟩⟩

theorem itemsDocument_shaped {items : Items} (h : ∀ c ∈ items.children, Documents f c) :
    ∃ o, itemsDocument f items = .ok o ∧ ItemsShaped o := by
  cases items with
  | free => exact ⟨none, rfl, nofun⟩
  | every child =>
    obtain ⟨d, hd, hshaped⟩ := h child (List.mem_singleton.mpr rfl)
    refine ⟨some d, except_map_eq_ok.mpr ⟨d, hd, rfl⟩, fun x hx => ?_⟩
    cases hx
    exact .inl hshaped
  | each children =>
    obtain ⟨ds, hds, hall⟩ := childDocuments_shaped h
    refine ⟨some (.listing ds), except_map_eq_ok.mpr ⟨ds, hds, rfl⟩, fun x hx => ?_⟩
    cases hx
    exact .inr ⟨ds, rfl, hall⟩

variable {r : ObjectRule} (hproperties : ∀ k v, (k, v) ∈ r.properties →
    ∃ c, v = .node c ∧ Documents f c)
  (hadditional : ∀ v, r.additional = some v → ∃ c, v = .node c ∧ Documents f c) (hr : r.Covered)

include hproperties hadditional hr

theorem objectDocument_shaped : ∃ d, s.objectDocument f r = .ok d ∧ Shaped d := by
  obtain ⟨ps, hps, hkeys, hall⟩ := propertyDocuments_shaped (s := s) hproperties
  obtain ⟨o, ho, hshaped⟩ : ∃ o, additionalDocument f r.additional = .ok o ∧
      ∀ d, o = some d → Shaped d := by
    cases h : r.additional with
    | none => exact ⟨none, rfl, nofun⟩
    | some v =>
      obtain ⟨c, rfl, d, hd, hshaped⟩ := hadditional v h
      refine ⟨some d, except_map_eq_ok.mpr ⟨d, hd, rfl⟩, fun x hx => ?_⟩
      cases hx
      exact hshaped
  refine ⟨_, except_bind_eq_ok.mpr ⟨ps, hps, except_bind_eq_ok.mpr ⟨o, ho, rfl⟩⟩, ?_⟩
  have hdocument := object_shaped hkeys hall hshaped hr
  simpa only [written, List.flatMap_cons, List.flatMap_nil, List.append_nil, List.append_assoc]
    using hdocument

theorem schemaDocument_shaped : ∃ d, s.schemaDocument f r = .ok d ∧ Shaped d := by
  unfold schemaDocument
  split
  · rename_i c _ hc
    obtain ⟨_, hnode, hdocument⟩ := hadditional _ hc
    cases hnode
    exact hdocument
  · exact objectDocument_shaped hproperties hadditional hr

omit hproperties hadditional hr

/-- A tidy rule has a document of the shape if the rules inside have. -/
theorem documentOf_shaped {rule : Rule} (h : rule.Tidy names bound)
    (hf : ∀ c ∈ rule.references, c < bound → Documents f c) :
    ∃ d, s.documentOf f rule = .ok d ∧ Shaped d := by
  cases h with
  | pattern source => exact ⟨_, rfl, pattern_shaped source⟩
  | literal t => exact ⟨_, rfl, literal_shaped t⟩
  | truth b => exact ⟨_, rfl, truth_shaped b⟩
  | number => exact ⟨_, rfl, number_shaped _⟩
  | array known =>
    obtain ⟨o, ho, hshaped⟩ := itemsDocument_shaped fun c hc =>
      hf c (by simp [Rule.references, hc]) (known c hc)
    refine ⟨_, except_bind_eq_ok.mpr ⟨o, ho, rfl⟩, ?_⟩
    simpa [written, Keyword.member, ArrayRule.ofLengths, ArrayRule.any] using array_shaped hshaped
  | @object r properties additional required covered =>
    have hproperties : ∀ k v, (k, v) ∈ r.properties → ∃ c, v = .node c ∧ Documents f c := by
      intro k v hv
      obtain ⟨-, c, hc, rfl⟩ := properties k v hv
      have hmem : c ∈ Value.nodesUnder r.properties :=
        Value.mem_nodesUnder.mpr ⟨_, hv, .inr (by simp [Value.nodes])⟩
      exact ⟨c, rfl, hf c (by simp [Rule.references, ObjectRule.references, hmem]) hc⟩
    have hadditional : ∀ v, r.additional = some v → ∃ c, v = .node c ∧ Documents f c := by
      intro v hv
      obtain ⟨c, hc, rfl⟩ := additional v hv
      exact ⟨c, rfl, hf c
        (by simp [Rule.references, ObjectRule.references, hv, Value.nodesOf, Value.nodes]) hc⟩
    simp only [documentOf]
    split
    · exact objectDocument_shaped hproperties hadditional covered
    · exact schemaDocument_shaped hproperties hadditional covered
    · obtain ⟨inner, hinner, hshaped⟩ :=
        schemaDocument_shaped (s := s) hproperties hadditional covered
      exact ⟨_, except_bind_eq_ok.mpr ⟨inner, hinner, rfl⟩, dictionary_shaped hshaped⟩
  | combinator written known =>
    obtain ⟨ds, hds, hall⟩ := childDocuments_shaped fun c hc =>
      hf c (by simp [Rule.references, hc]) (known c hc)
    exact ⟨_, except_bind_eq_ok.mpr ⟨ds, hds, rfl⟩, combinator_shaped written hall⟩
  | @negation child known =>
    obtain ⟨d, hd, hshaped⟩ := hf child (by simp [Rule.references]) known
    exact ⟨_, except_bind_eq_ok.mpr ⟨d, hd, rfl⟩, negation_shaped hshaped⟩

/-- All rules of a store are tidy. -/
def Tidy (names : Value → Prop) (s : Store) : Prop :=
  ∀ id node, s.get? id = some node → node.rule.Tidy names s.size

/-- An acyclic rule of a tidy store has a document, and it has the shape at every depth. -/
theorem Tidy.document (h : s.Tidy names) {id : NodeId} (hid : id < s.size) (ha : s.Acyclic id) :
    ∃ d, s.document id = .ok d ∧ Shaped d := by
  obtain ⟨n, hn⟩ := ha
  induction n generalizing id with
  | zero => exact absurd hn (by simp [Shallow])
  | succ n ih =>
    obtain ⟨node, hnode⟩ : ∃ node, s.get? id = some node := ⟨_, List.getElem?_eq_getElem hid⟩
    rw [document_eq ⟨n + 1, hn⟩ hnode]
    refine documentOf_shaped (h id node hnode) fun c hc hlt => ?_
    exact ih hlt (hn c (references_of_get? hnode ▸ hc))

end Store

/-! ## The draft -/

theorem Entries.set_of_new {κ α : Type} [BEq κ] {es : Entries κ α} {key : κ}
    (h : Entries.has es.keys key = false) (v : α) : es.set key v = es ++ [(key, v)] := by
  induction es with
  | nil => rfl
  | cons e es ih =>
    obtain ⟨k, w⟩ := e
    obtain ⟨hk, hrest⟩ := Bool.or_eq_false_iff.mp h
    have hk : (k == key) = false := hk
    rw [Entries.set, hk, if_neg Bool.false_ne_true, ih hrest]
    rfl

/-- Members under new names are put at the end. -/
theorem foldl_set_texts (members acc : Entries String Value)
    (h : (acc.keys ++ members.keys).Nodup) :
    (members.map fun e => (Value.text e.1, e.2)).foldl (fun es e => Entries.set es e.1 e.2)
        (acc.map fun e => (Value.text e.1, e.2))
      = (acc ++ members).map fun e => (Value.text e.1, e.2) := by
  induction members generalizing acc with
  | nil => rw [List.append_nil]; rfl
  | cons e members ih =>
    obtain ⟨name, v⟩ := e
    have hnew : Entries.has (Entries.keys (acc.map fun e => (Value.text e.1, e.2))) (.text name)
        = false := by
      have hname : ∀ x ∈ acc, x.1 ≠ name := by
        rintro x hx rfl
        exact (List.nodup_append.mp h).2.2 x.1 (List.mem_map_of_mem hx) x.1 List.mem_cons_self rfl
      simpa [Entries.has, Entries.keys, Value.text_beq_text] using fun a b hab => hname (a, b) hab
    have hacc : (acc.map fun e => (Value.text e.1, e.2)) ++ [(.text name, v)]
        = (acc ++ [(name, v)]).map fun e => (Value.text e.1, e.2) := by simp
    rw [List.map_cons, List.foldl_cons, Entries.set_of_new hnew, hacc, ih]
    · simp
    · rw [Entries.keys, List.map_append, List.append_assoc]
      exact h

/-- A document of the shape names its draft before its members. -/
theorem withDraft_of_shape {members : Entries String Value} (h : Shape members) :
    withDraft (.record members) = .record ((Keyword.schema.text, .text draft04) :: members) := by
  have hdistinct : (Entries.keys [(Keyword.schema.text, Value.text draft04)] ++ members.keys).Nodup :=
    List.nodup_cons.mpr ⟨h.undrafted, h.distinct⟩
  have hfold := foldl_set_texts members [(Keyword.schema.text, .text draft04)] hdistinct
  rw [Value.record, withDraft, Value.record, Value.mapping]
  exact congrArg (Value.dict 0) hfold

end DraftSchema
