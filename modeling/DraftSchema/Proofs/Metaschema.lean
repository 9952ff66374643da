import DraftSchema.Proofs.JsonDocument

/-!
# The metaschema

What the draft itself asks of a document, for the keywords that rules are written with: which values
a keyword takes, and which keywords stand beside which. Lists of documents and of names are not
empty there, and bounds are finite numbers. A tidy rule is written as such a document exactly when
it has no empty list and no other bounds, and the rules inside are written as such documents.
-/

namespace DraftSchema

/-- A finite number, truth values aside. -/
def Value.IsNumber (v : Value) : Prop := v.isBound = true ∧ ∃ q, v.denote? = some (.exact q)

/-- What a keyword takes for a value. What it says of documents inside the value stands in
`Draft04.Legal`. -/
def Keyword.Takes (k : Keyword) (v : Value) : Prop :=
  match k with
  | .schema | .pattern | .format => ∃ s, v = .text s
  | .type => ∃ type ∈ Draft04.typeNames, v = .text type
  | .minimum | .maximum => v.IsNumber
  | .multipleOf => v.IsNumber ∧ ∃ q, v.denote? = some (.exact q) ∧ 0 < q
  | .exclusiveMinimum | .exclusiveMaximum | .uniqueItems | .additionalItems => ∃ b, v = .bool b
  | .minLength | .maxLength | .minItems | .maxItems => ∃ n : Nat, v = .int n
  | .items => v ≠ .listing []
  | .allOf | .anyOf | .oneOf => ∃ ds, v = .listing ds ∧ ds ≠ []
  | .required => ∃ names : List String, v = .listing (names.map .text) ∧ names ≠ [] ∧ names.Nodup
  | .enum => ∃ vs, v = .listing vs ∧ vs ≠ [] ∧ Distinct vs ∧ ∀ x ∈ vs, x.IsJson
  | .properties => ∃ es : Entries String Value, v = .record es ∧ es.keys.Nodup
  | .additionalProperties | .not => True

/-- What a rule's own lists and bounds are like in a document that the draft allows: an array does not
list no rules for its elements, a combination is of some rules, and bounds are finite numbers. -/
def Rule.Filled : Rule → Prop
  | .number r => ∀ v, r.minimum = some v ∨ r.maximum = some v → v.IsNumber
  | .array r => r.items ≠ .each []
  | .combinator _ children => children ≠ []
  | _ => True

namespace Draft04

/-- What the draft asks of the members of a document. -/
structure Lawful (members : Entries String Value) : Prop where
  distinct : members.keys.Nodup
  known : ∀ e ∈ members, ∃ k : Keyword, e.1 = k.text
  takes : ∀ (k : Keyword) v, (k.text, v) ∈ members → k.Takes v
  bounds : ∀ v, ((Keyword.exclusiveMinimum.text, v) ∈ members →
      ∃ u, (Keyword.minimum.text, u) ∈ members) ∧
    ((Keyword.exclusiveMaximum.text, v) ∈ members → ∃ u, (Keyword.maximum.text, u) ∈ members)

/-- A document that the draft allows, wherever a rule stands in it. Of further properties it says
something by a document only. -/
inductive Legal : Value → Prop
  | mk {members : Entries String Value} (lawful : Lawful members)
      (parts : ∀ d, Part members d → Legal d) : Legal (.record members)

theorem legal_record_iff {members : Entries String Value} :
    Legal (.record members) ↔ Lawful members ∧ ∀ d, Part members d → Legal d := by
  constructor
  · intro h
    generalize hd : Value.record members = d at h
    cases h with
    | mk lawful parts =>
      rw [Value.record_injective hd]
      exact ⟨lawful, parts⟩
  · exact fun ⟨lawful, parts⟩ => .mk lawful parts

variable {members : Entries String Value}

/-- What a document says besides its draft. -/
theorem mem_drafted_iff {k : Keyword} {v : Value} (hk : k ≠ .schema) :
    (k.text, v) ∈ (Keyword.schema.text, .text draft04) :: members ↔ (k.text, v) ∈ members := by
  rw [List.mem_cons, or_iff_right]
  exact fun he => hk (Keyword.text_injective (Prod.mk.inj he).1)

theorem part_drafted_iff (d : Value) :
    Part ((Keyword.schema.text, .text draft04) :: members) d ↔ Part members d := by
  constructor
  · intro hd
    cases hd with
    | property member entry =>
      exact .property ((mem_drafted_iff (k := .properties) nofun).mp member) entry
    | additional member =>
      exact .additional ((mem_drafted_iff (k := .additionalProperties) nofun).mp member)
    | every member single => exact .every ((mem_drafted_iff (k := .items) nofun).mp member) single
    | each member element => exact .each ((mem_drafted_iff (k := .items) nofun).mp member) element
    | choice combines member element =>
      refine .choice combines ((mem_drafted_iff ?_).mp member) element
      rcases combines with rfl | rfl | rfl <;> exact nofun
    | negated member => exact .negated ((mem_drafted_iff (k := .not) nofun).mp member)
  · intro hd
    cases hd with
    | property member entry => exact .property (.tail _ member) entry
    | additional member => exact .additional (.tail _ member)
    | every member single => exact .every (.tail _ member) single
    | each member element => exact .each (.tail _ member) element
    | choice combines member element => exact .choice combines (.tail _ member) element
    | negated member => exact .negated (.tail _ member)

theorem lawful_drafted_iff (h : Keyword.schema.text ∉ members.keys) :
    Lawful ((Keyword.schema.text, .text draft04) :: members) ↔ Lawful members := by
  constructor
  · intro hl
    refine ⟨(List.nodup_cons.mp hl.distinct).2, fun e he => hl.known e (.tail _ he),
      fun k v hv => hl.takes k v (.tail _ hv), fun v => ?_⟩
    simpa [mem_drafted_iff] using hl.bounds v
  · intro hl
    refine ⟨List.nodup_cons.mpr ⟨h, hl.distinct⟩, ?_, ?_, fun v => ?_⟩
    · exact List.forall_mem_cons.mpr ⟨⟨.schema, rfl⟩, hl.known⟩
    · intro k v hv
      rcases List.mem_cons.mp hv with he | hv
      · obtain ⟨hk, rfl⟩ := Prod.mk.inj he
        rw [Keyword.text_injective hk]
        exact ⟨_, rfl⟩
      · exact hl.takes k v hv
    · simpa [mem_drafted_iff] using hl.bounds v

/-- The draft does not stand in the way of what else a document says. -/
theorem legal_drafted_iff (h : Keyword.schema.text ∉ members.keys) :
    Legal (.record ((Keyword.schema.text, .text draft04) :: members)) ↔ Legal (.record members) := by
  rw [legal_record_iff, legal_record_iff, lawful_drafted_iff h]
  simp only [part_drafted_iff]

end Draft04

/-! ## Documents that are written from fields -/

/-- What is said of the documents inside the value of a keyword. -/
def Keyword.Inside (p : Value → Prop) (k : Keyword) (v : Value) : Prop :=
  match k with
  | .properties => ∀ es, v = .mapping es → ∀ e ∈ es, p e.2
  | .additionalProperties | .not => p v
  | .items => (∀ ds, v = .listing ds → ∀ d ∈ ds, p d) ∧ ((∀ ds, v ≠ .listing ds) → p v)
  | .anyOf | .oneOf | .allOf => ∀ ds, v = .listing ds → ∀ d ∈ ds, p d
  | _ => True

namespace Draft04

variable {fields : List (Keyword × Option Value)}

/-- To say something of the documents inside what is written is to say it keyword by keyword. -/
theorem forall_part_iff {p : Value → Prop} : (∀ d, Part (written fields) d → p d) ↔
    ∀ e ∈ fields, ∀ v, e.2 = some v → e.1.Inside p v := by
  constructor
  · rintro h ⟨k, _⟩ he v rfl
    have hmember : (k.text, v) ∈ written fields := mem_written.mpr he
    cases k with
    | properties =>
      rintro es rfl ⟨name, d⟩ hd
      exact h d (.property hmember hd)
    | additionalProperties => exact h v (.additional hmember)
    | not => exact h v (.negated hmember)
    | items =>
      refine ⟨?_, fun hsingle => h v (.every hmember hsingle)⟩
      rintro ds rfl d hd
      exact h d (.each hmember hd)
    | anyOf | oneOf | allOf =>
      rintro ds rfl d hd
      exact h d (.choice (by simp) hmember hd)
    | _ => trivial
  · intro h d hd
    have hinside : ∀ {k : Keyword} {v}, (k.text, v) ∈ written fields → k.Inside p v :=
      fun hv => h _ (mem_written.mp hv) _ rfl
    cases hd with
    | property member entry => exact hinside (k := .properties) member _ rfl _ entry
    | additional member => exact hinside (k := .additionalProperties) member
    | every member single => exact (hinside (k := .items) member).2 single
    | each member element => exact (hinside (k := .items) member).1 _ rfl d element
    | choice combines member element =>
      rcases combines with rfl | rfl | rfl <;> exact hinside member _ rfl d element
    | negated member => exact hinside (k := .not) member

/-- What is written is allowed when each keyword has a value that it takes, with such documents
inside. -/
theorem legal_written_iff (hkeys : (fields.map Prod.fst).Nodup)
    (hbounds : ∀ v, ((Keyword.exclusiveMinimum, some v) ∈ fields →
        ∃ u, (Keyword.minimum, some u) ∈ fields) ∧
      ((Keyword.exclusiveMaximum, some v) ∈ fields → ∃ u, (Keyword.maximum, some u) ∈ fields)) :
    Legal (.record (written fields)) ↔
      ∀ e ∈ fields, ∀ v, e.2 = some v → e.1.Takes v ∧ e.1.Inside Legal v := by
  have hlawful : Lawful (written fields) ↔ ∀ e ∈ fields, ∀ v, e.2 = some v → e.1.Takes v := by
    constructor
    · rintro h ⟨k, _⟩ he v rfl
      exact h.takes k v (mem_written.mpr he)
    · intro h
      refine ⟨?_, fun e he => ?_, fun k v hv => h _ (mem_written.mp hv) v rfl, ?_⟩
      · have htexts := hkeys.map Keyword.text_injective
        rw [List.map_map] at htexts
        exact (keys_written_sublist fields).nodup htexts
      · obtain ⟨k, hk, -⟩ := exists_of_mem_written he
        exact ⟨k, hk⟩
      · simpa only [mem_written] using hbounds
  rw [legal_record_iff, hlawful, forall_part_iff]
  exact ⟨fun h e he v hv => ⟨h.1 e he v hv, h.2 e he v hv⟩,
    fun h => ⟨fun e he v hv => (h e he v hv).1, fun e he v hv => (h e he v hv).2⟩⟩

/-! ## Rules without rules inside -/

theorem legal_pattern (source : String) : Legal (typedDocument "string"
    { StringRule.any with pattern := some (.text source) }.keywords) := by
  have hwritten : Legal (.record (written
      [(.type, some (.text "string")), (.pattern, some (.text source))])) := by
    rw [legal_written_iff (by simp) (by simp)]
    simp [Keyword.Takes, Keyword.Inside, typeNames]
  exact hwritten

theorem legal_enum {type : String} (htype : type ∈ typeNames) {v : Value} (hv : v.IsJson) :
    Legal (typedDocument type (allowedKeywords (some [v]))) := by
  have hwritten : Legal (.record (written
      [(.type, some (.text type)), (.enum, some (.listing [v]))])) := by
    rw [legal_written_iff (by simp) (by simp)]
    simp [Keyword.Takes, Keyword.Inside, Distinct, Value.listing, htype, hv]
  exact hwritten

theorem legal_number_iff (b : Bounds Value) :
    Legal (typedDocument "number" (NumberRule.ofBounds b).keywords) ↔
      (Rule.number (.ofBounds b)).Filled := by
  have hexclusive : ∀ v, (NumberRule.ofBounds b).exclusiveMinimum = some v ∨
      (NumberRule.ofBounds b).exclusiveMaximum = some v → v = .bool true := by
    intro v
    simp only [NumberRule.ofBounds, NumberRule.any]
    rintro (h | h) <;> split at h <;> cases h <;> rfl
  have hbound : ∀ {o : Option Value} {u v : Value}, (u.present.bind fun _ => o) = some v →
      (∃ x, some x = u.present) ∧ o = some v := by
    intro o u v h
    obtain ⟨x, hx, ho⟩ := Option.bind_eq_some_iff.mp h
    exact ⟨⟨x, hx.symm⟩, ho⟩
  rw [keywords_ofBounds]
  show Legal (.record (written ((.type, some (.text "number")) :: _))) ↔ _
  rw [legal_written_iff (by simp) fun v => ?bounds]
  case bounds =>
    simp only [List.mem_cons, Prod.mk.injEq, reduceCtorEq, false_and, true_and, List.not_mem_nil,
      or_false, false_or]
    exact ⟨fun h => (hbound h.symm).1, fun h => (hbound h.symm).1⟩
  simp only [List.forall_mem_cons, List.not_mem_nil, false_imp_iff, implies_true, and_true,
    Option.some.injEq, forall_eq']
  constructor
  · rintro ⟨-, hleast, -, hmost, -⟩ v (hv | hv)
    · exact (hleast v hv).1
    · exact (hmost v hv).1
  · intro h
    refine ⟨⟨⟨_, by decide, rfl⟩, trivial⟩, fun v hv => ⟨h v (.inl hv), trivial⟩,
      fun v hv => ⟨⟨true, ?_⟩, trivial⟩, fun v hv => ⟨h v (.inr hv), trivial⟩,
      fun v hv => ⟨⟨true, ?_⟩, trivial⟩⟩
    · exact hexclusive v (.inl (hbound hv).2)
    · exact hexclusive v (.inr (hbound hv).2)

/-! ## Rules with rules inside -/

theorem legal_array_iff {b : LengthBounds} {o : Option Value} :
    Legal (typedDocument "array" (written
      [(.minItems, lengthValue b.least), (.maxItems, lengthValue b.most), (.items, o)])) ↔
      ∀ v, o = some v → v ≠ .listing [] ∧ Keyword.items.Inside Legal v := by
  have hlength : ∀ {n : Option Nat} v, lengthValue n = some v → ∃ m : Nat, v = .int m := by
    intro n v h
    cases n with
    | none => cases h
    | some m => exact ⟨m, (Option.some.inj h).symm⟩
  show Legal (.record (written ((.type, some (.text "array")) :: _))) ↔ _
  rw [legal_written_iff (by simp) (by simp)]
  simp only [List.forall_mem_cons, List.not_mem_nil, false_imp_iff, implies_true, and_true,
    Option.some.injEq, forall_eq']
  constructor
  · rintro ⟨-, -, -, hitems⟩
    exact hitems
  · intro h
    exact ⟨⟨⟨_, by decide, rfl⟩, trivial⟩, fun v hv => ⟨hlength v hv, trivial⟩,
      fun v hv => ⟨hlength v hv, trivial⟩, h⟩

/-- The document of an object whose properties have texts for names, distinct ones, and which requires
distinct names. -/
theorem legal_object_iff {r : ObjectRule} {ps : Entries String Value} {names : List String}
    {additional : Option Value} (hps : ps.keys.Nodup) (hnames : r.required = names.map .text)
    (hdistinct : names.Nodup) :
    Legal (typedDocument "object" (written [(.properties, some (.record ps)),
      (.required, r.requiredPart), (.additionalProperties, additional)])) ↔
      (∀ e ∈ ps, Legal e.2) ∧ ∀ d, additional = some d → Legal d := by
  have hrequired : ∀ v, r.requiredPart = some v → Keyword.required.Takes v := by
    intro v h
    rw [ObjectRule.requiredPart, hnames] at h
    split at h
    · cases h
    · rename_i hne
      exact ⟨names, (Option.some.inj h).symm, by simpa using hne, hdistinct⟩
  show Legal (.record (written ((.type, some (.text "object")) :: _))) ↔ _
  rw [legal_written_iff (by simp) (by simp)]
  simp only [List.forall_mem_cons, List.not_mem_nil, false_imp_iff, implies_true, and_true,
    Option.some.injEq, forall_eq']
  constructor
  · rintro ⟨-, ⟨-, hproperties⟩, -, hadditional⟩
    exact ⟨fun e he => hproperties _ rfl _ (List.mem_map_of_mem he), fun d hd => (hadditional d hd).2⟩
  · rintro ⟨hproperties, hadditional⟩
    refine ⟨⟨⟨_, by decide, rfl⟩, trivial⟩, ⟨⟨ps, rfl, hps⟩, ?_⟩,
      fun v hv => ⟨hrequired v hv, trivial⟩, fun d hd => ⟨trivial, hadditional d hd⟩⟩
    rintro es hes e he
    cases hes
    obtain ⟨property, hproperty, rfl⟩ := List.mem_map.mp he
    exact hproperties property hproperty

/-- The document of a dictionary, around that of what it says of every value. -/
theorem legal_dictionary_iff {inner : Value} :
    Legal (typedDocument "object" (Keyword.additionalProperties.member (some inner))) ↔
      Legal inner := by
  show Legal (.record (written [(.type, some (.text "object")),
    (.additionalProperties, some inner)])) ↔ _
  rw [legal_written_iff (by simp) (by simp)]
  simp [Keyword.Takes, Keyword.Inside, typeNames]

theorem legal_negation_iff {d : Value} : Legal (.record [(Keyword.not.text, d)]) ↔ Legal d := by
  show Legal (.record (written [(.not, some d)])) ↔ _
  rw [legal_written_iff (by simp) (by simp)]
  simp [Keyword.Takes, Keyword.Inside]

theorem legal_combinator_iff {kind : CombinatorKind} {ds : List Value} (hkind : kind ≠ .plain) :
    Legal (.record [(kind.keyword, .listing ds)]) ↔ ds ≠ [] ∧ ∀ d ∈ ds, Legal d := by
  have hwritten : ∀ k ∈ [Keyword.anyOf, .oneOf, .allOf],
      (Legal (.record [(k.text, .listing ds)]) ↔ ds ≠ [] ∧ ∀ d ∈ ds, Legal d) := by
    intro k hk
    show Legal (.record (written [(k, some (.listing ds))])) ↔ _
    simp only [List.mem_cons, List.not_mem_nil, or_false] at hk
    rcases hk with rfl | rfl | rfl <;>
      rw [legal_written_iff (by simp) (by simp)] <;>
      simp [Keyword.Takes, Keyword.Inside, Value.listing]
  cases kind with
  | plain => exact absurd rfl hkind
  | anyOf => exact hwritten .anyOf (by simp)
  | oneOf => exact hwritten .oneOf (by simp)
  | allOf => exact hwritten .allOf (by simp)

end Draft04

end DraftSchema
