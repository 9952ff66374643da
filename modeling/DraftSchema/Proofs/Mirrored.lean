import DraftSchema.Proofs.Legality
import DraftSchema.Proofs.Loose
import DraftSchema.Proofs.Twin

/-!
# Rules that are the same but for the rules inside

In the document of a rule, the documents of the rules inside stand under the same keywords, whatever
these rules are. So rules that are the same but for paired rules inside, at any number of places and at
any depth, have loosely equal documents as soon as the pairs at the bottom have. All of these documents
are keyed, if the values are that rules are written with; those of assembled rules are.
-/

namespace DraftSchema

/-! ## Documents that are equal and keyed -/

theorem exists_of_forall₂ {α β : Type} {R : α → β → Prop} {as : List α} {bs : List β}
    (h : List.Forall₂ R as bs) {a : α} (ha : a ∈ as) : ∃ b ∈ bs, R a b := by
  induction h with
  | nil => cases ha
  | cons hab _ ih =>
    rcases List.mem_cons.mp ha with rfl | ha
    · exact ⟨_, List.mem_cons_self, hab⟩
    · exact (ih ha).imp fun _ h => ⟨List.mem_cons_of_mem _ h.1, h.2⟩

/-- Different texts are different names. -/
theorem distinct_texts {names : List String} (h : names.Nodup) : Distinct (names.map .text) :=
  List.pairwise_map.mpr (h.imp fun hne => by simpa [Value.text_beq_text] using hne)

namespace Value

variable {a b : Value} {nodes : NodeId → NodeId → Prop}

/-- Two values are loosely equal, and in both of them mappings have distinct keys. -/
structure Equals (nodes : NodeId → NodeId → Prop) (a b : Value) : Prop where
  loose : a.Loose nodes b
  left : a.Keyed
  right : b.Keyed

theorem Keyed.equals (h : a.Keyed) : a.Equals nodes a := ⟨.refl h, h, h⟩

namespace Equals

theorem listing {as bs : List Value} (h : List.Forall₂ (Equals nodes) as bs) :
    (listing as).Equals nodes (listing bs) where
  loose := .sequence rfl rfl h.length_eq fun n x y hx hy => by
    obtain ⟨hn, rfl⟩ := List.getElem?_eq_some_iff.mp hx
    obtain ⟨hn', rfl⟩ := List.getElem?_eq_some_iff.mp hy
    exact (h.get hn hn').loose
  left := .sequence rfl fun x hx => by
    obtain ⟨y, -, hxy⟩ := exists_of_forall₂ h hx
    exact hxy.left
  right := .sequence rfl fun y hy => by
    obtain ⟨x, -, hxy⟩ := exists_of_forall₂ (List.Forall₂.flip h) hy
    exact hxy.right

/-- Mappings with the same keys are equal if what stands under each of them is. -/
theorem dict {i j : Nat} {as bs : Entries Value Value} (hdistinct : Distinct as.keys)
    (h : List.Forall₂ (fun e e' => e.1 = e'.1 ∧ e.2.Equals nodes e'.2) as bs) :
    (Value.dict i as).Equals nodes (.dict j bs) := by
  have hdistinct' : Distinct bs.keys := Entries.keys_eq_of_forall₂ h ▸ hdistinct
  have hentry : ∀ k x, (k, x) ∈ as → ∃ y, bs.get? k = some y ∧ x.Equals nodes y := by
    intro k x hx
    obtain ⟨⟨k', y⟩, hy, hk, hxy⟩ := exists_of_forall₂ h hx
    cases hk
    exact ⟨y, get?_of_mem hdistinct' hy, hxy⟩
  refine ⟨.dict h.length_eq (fun k hk => ?_) fun k x y hx hy => ?_,
    .dict hdistinct fun k x hx => ?_, .dict hdistinct' fun k y hy => ?_⟩
  · obtain ⟨⟨k, x⟩, hx, rfl⟩ := List.mem_map.mp hk
    obtain ⟨y, hy, -⟩ := hentry k x hx
    rw [Entries.has_keys, hy]
    rfl
  · obtain ⟨y', hy', hxy⟩ := hentry k x hx
    cases hy.symm.trans hy'
    exact hxy.loose
  · obtain ⟨y, -, hxy⟩ := hentry k x hx
    exact hxy.left
  · obtain ⟨e, -, -, hxy⟩ := exists_of_forall₂ (List.Forall₂.flip h) hy
    exact hxy.right

end Equals

/-- What is written under the same keywords is equal if what stands under each of them is. -/
theorem equals_written {fields fields' : List (Keyword × Option Value)}
    (hkeys : (fields.map Prod.fst).Nodup)
    (h : List.Forall₂ (fun e e' => e.1 = e'.1 ∧ Option.Rel (Equals nodes) e.2 e'.2) fields fields') :
    (record (written fields)).Equals nodes (record (written fields')) := by
  refine .dict ?_ ?_
  · have hnames : (written fields).keys.Nodup := by
      refine (keys_written_sublist fields).nodup ?_
      have hmap := hkeys.map Keyword.text_injective
      rwa [List.map_map] at hmap
    have hdistinct := distinct_texts hnames
    rwa [Entries.keys, List.map_map] at hdistinct ⊢
  · rw [List.forall₂_map_left_iff, List.forall₂_map_right_iff]
    clear hkeys
    induction h with
    | nil => exact .nil
    | @cons e e' fields fields' he _ ih =>
      obtain ⟨k, o⟩ := e
      obtain ⟨k', o'⟩ := e'
      obtain ⟨rfl, ho⟩ := he
      cases ho with
      | none => exact ih
      | some hab => exact .cons ⟨rfl, hab⟩ ih

end Value

/-! ## Rules that are written with keyed values -/

/-- The names of an object's properties are distinct, and the values that it is written with are
keyed. -/
structure ObjectRule.Keyed (r : ObjectRule) : Prop where
  properties : Distinct r.properties.keys
  required : ∀ v ∈ r.required, v.Keyed
  additional : ∀ v, r.additional = some v → v.Keyed

/-- The values that a rule is written with are keyed. -/
structure Rule.Keyed (rule : Rule) : Prop where
  parts : ∀ v, some v ∈ rule.parts → v.Keyed
  object : ∀ r, rule = .object r → r.Keyed

/-- All rules are written with keyed values. -/
def Store.AllKeyed (s : Store) : Prop := ∀ id node, s.get? id = some node → node.rule.Keyed

theorem Value.keyed_of_isBound {v : Value} (h : v.isBound = true ∨ v = .null) : v.Keyed := by
  rcases h with h | rfl
  · exact .whole (by cases v <;> first | rfl | cases h)
  · exact .whole rfl

/-- Tidy rules under keyed names are written with keyed values. -/
theorem Rule.Tidy.keyed {names : Value → Prop} {bound : Nat} {rule : Rule}
    (h : rule.Tidy names bound) (hnames : ∀ k, names k → k.Keyed)
    (hsingle : ∀ r, rule = .object r → Distinct r.properties.keys) : rule.Keyed := by
  refine ⟨fun v hv => ?_, fun r hr => ?_⟩
  · cases h with
    | pattern source =>
      obtain rfl : v = .text source := by simpa [parts, StringRule.any] using hv
      exact .whole rfl
    | literal t =>
      obtain rfl : v = .listing [.text t] := by simpa [parts, StringRule.any] using hv
      exact .sequence rfl (by simpa using .whole rfl)
    | truth b =>
      obtain rfl : v = .listing [.bool b] := by simpa [parts] using hv
      exact .sequence rfl (by simpa using .whole rfl)
    | @number b least most =>
      have hbound : ∀ u : Value, (u.isBound = true ∨ u = .null) → u.present = some v → v.Keyed := by
        intro u hu hpresent
        obtain rfl : u = v := by cases u <;> simp_all [Value.present]
        exact Value.keyed_of_isBound hu
      have hflag : ∀ u : Value, (if u.isTrue then some (Value.bool true) else none) = some v →
          v.Keyed := by
        intro u hu
        split at hu
        · cases hu
          exact .whole rfl
        · cases hu
      simp only [parts, NumberRule.ofBounds, NumberRule.any, List.mem_cons, List.not_mem_nil,
        or_false] at hv
      rcases hv with hv | hv | hv | hv | hv
      · cases hv
      · exact hbound _ least hv.symm
      · exact hbound _ most hv.symm
      · exact hflag _ hv.symm
      · exact hflag _ hv.symm
    | @array b items known =>
      have hlength : ∀ n : Option Nat, lengthValue n = some v → v.Keyed := by
        intro n hn
        obtain ⟨n, -, rfl⟩ := Option.map_eq_some_iff.mp hn
        exact .whole rfl
      simp only [parts, ArrayRule.ofLengths, ArrayRule.any, List.mem_cons, List.not_mem_nil,
        or_false] at hv
      rcases hv with hv | hv | hv | hv
      · exact hlength _ hv.symm
      · exact hlength _ hv.symm
      · cases hv
      · cases hv
    | object | combinator | negation => cases hv
  · subst hr
    cases h with
    | object properties additional required covered =>
      refine ⟨hsingle r rfl, fun k hk => hnames k (required k hk), fun v hv => ?_⟩
      obtain ⟨c, -, rfl⟩ := additional v hv
      exact .rule c

/-- Assembled rules are written with keyed values, if the names are keyed. -/
theorem Assembly.allKeyed {call : Caller} {names : Value → Prop} {w : Workspace}
    (h : Assembly call names w) (hnames : ∀ k, names k → k.Keyed) : w.store.AllKeyed := by
  rintro id ⟨rule, required⟩ hnode
  refine (h.tidy id _ hnode).keyed hnames fun r hr => ?_
  exact (h.single id r (Store.object?_eq_some.mpr ⟨required, hr ▸ hnode⟩)).1

/-! ## Rules that are the same but for the rules inside -/

section Mirrors

variable (E : Pairing)

/-- The same is said of the elements of an array, by paired rules. -/
inductive Items.Mirrors : Items → Items → Prop
  | free : Mirrors .free .free
  | every {a b : NodeId} (pair : E a b) : Mirrors (.every a) (.every b)
  | each {as bs : List NodeId} (pairs : List.Forall₂ E as bs) : Mirrors (.each as) (.each bs)

/-- Where a rule belongs there are paired rules, or the same value that is no rule. -/
inductive Value.Mirrors : Value → Value → Prop
  | node {a b : NodeId} (pair : E a b) : Mirrors (.node a) (.node b)
  | plain {v : Value} (plain : Store.isNode v = false) : Mirrors v v

/-- Two object rules are the same but for the rules under their names and the rule for further
keys. -/
structure ObjectRule.Mirrors (r r' : ObjectRule) : Prop where
  kind : r.kind = r'.kind
  properties :
    List.Forall₂ (fun e e' => e.1 = e'.1 ∧ e.2.Mirrors E e'.2) r.properties r'.properties
  required : r.required = r'.required
  additional : Option.Rel (Value.Mirrors E) r.additional r'.additional

/-- Two rules are the same but for the rules inside, which are paired. -/
inductive Rule.Mirrors : Rule → Rule → Prop
  | string (r : StringRule) : Mirrors (.string r) (.string r)
  | number (r : NumberRule) : Mirrors (.number r) (.number r)
  | boolean (allowed : Option (List Value)) : Mirrors (.boolean allowed) (.boolean allowed)
  | array {r : ArrayRule} {items : Items} (mirrors : r.items.Mirrors E items) :
      Mirrors (.array r) (.array { r with items })
  | object {r r' : ObjectRule} (mirrors : r.Mirrors E r') : Mirrors (.object r) (.object r')
  | combinator {kind : CombinatorKind} {children children' : List NodeId}
      (pairs : List.Forall₂ E children children') :
      Mirrors (.combinator kind children) (.combinator kind children')
  | negation {a b : NodeId} (pair : E a b) : Mirrors (.negation a) (.negation b)

end Mirrors

/-- A rule is the same as itself, but for rules inside that are paired with themselves. -/
theorem Rule.Mirrors.refl {E : Pairing} (hE : ∀ a, E a a) (rule : Rule) : rule.Mirrors E rule := by
  have hvalue : ∀ v : Value, v.Mirrors E v := by
    intro v
    cases h : Store.isNode v with
    | false => exact .plain h
    | true =>
      cases v with
      | node a => exact .node (hE a)
      | _ => cases h
  cases rule with
  | string r => exact .string r
  | number r => exact .number r
  | boolean allowed => exact .boolean allowed
  | array r =>
    refine @Rule.Mirrors.array E r r.items ?_
    cases r.items with
    | free => exact .free
    | every a => exact .every (hE a)
    | each as => exact .each (List.forall₂_same.mpr fun a _ => hE a)
  | object r =>
    refine .object ⟨rfl, List.forall₂_same.mpr fun e _ => ⟨rfl, hvalue e.2⟩, rfl, ?_⟩
    cases r.additional with
    | none => exact .none
    | some v => exact .some (hvalue v)
  | combinator kind children => exact .combinator (List.forall₂_same.mpr fun a _ => hE a)
  | negation a => exact .negation (hE a)

namespace Store

variable {s t : Store} {f g : NodeId → Except Fault Value} {E : Pairing}
  {nodes : NodeId → NodeId → Prop}

/-! ### Their documents -/

theorem stringKeywords_eq (r : StringRule) : r.keywords = written
    [(.format, r.format), (.pattern, r.pattern), (.minLength, r.minLength),
     (.maxLength, r.maxLength), (.enum, r.allowed.map .listing)] := by
  simp [StringRule.keywords, written]

theorem numberKeywords_eq (r : NumberRule) : r.keywords = written
    [(.multipleOf, r.multipleOf), (.minimum, r.minimum),
     (.exclusiveMinimum, r.minimum.bind fun _ => r.exclusiveMinimum), (.maximum, r.maximum),
     (.exclusiveMaximum, r.maximum.bind fun _ => r.exclusiveMaximum)] := by
  rw [NumberRule.keywords]
  cases r.minimum <;> cases r.maximum <;> simp [written, Keyword.member]

/-- The document of a type, with equal values under the same keywords. -/
theorem equals_typed (type : String) {fields fields' : List (Keyword × Option Value)}
    (hkeys : (Keyword.type :: fields.map Prod.fst).Nodup)
    (h : List.Forall₂ (fun e e' => e.1 = e'.1 ∧ Option.Rel (Value.Equals nodes) e.2 e'.2)
      fields fields') :
    (typedDocument type (written fields)).Equals nodes (typedDocument type (written fields')) := by
  have htype : Value.Keyed (.text type) := .whole rfl
  have hall : List.Forall₂ (fun e e' => e.1 = e'.1 ∧ Option.Rel (Value.Equals nodes) e.2 e'.2)
      ((.type, some (.text type)) :: fields) ((.type, some (.text type)) :: fields') :=
    .cons ⟨rfl, .some htype.equals⟩ h
  refine Value.equals_written ?_ hall
  exact hkeys

theorem rel_equals {o : Option Value} (h : ∀ v, o = some v → v.Keyed) :
    Option.Rel (Value.Equals nodes) o o := by
  cases o with
  | none => exact .none
  | some v => exact .some (h v rfl).equals

/-- The document of a type, with keyed values under its keywords. -/
theorem equals_typed_self (type : String) {fields : List (Keyword × Option Value)}
    (hkeys : (Keyword.type :: fields.map Prod.fst).Nodup)
    (h : ∀ v, some v ∈ fields.map Prod.snd → v.Keyed) :
    (typedDocument type (written fields)).Equals nodes (typedDocument type (written fields)) :=
  equals_typed type hkeys (List.forall₂_same.mpr fun _ he =>
    ⟨rfl, rel_equals fun v hv => h v (hv ▸ List.mem_map_of_mem he)⟩)

/-- The document of a rule for numbers, if its parts are keyed. -/
theorem equals_number {r : NumberRule} (h : (Rule.number r).Keyed) :
    (typedDocument "number" r.keywords).Equals nodes (typedDocument "number" r.keywords) := by
  rw [numberKeywords_eq]
  refine equals_typed_self "number" (by simp) fun v hv => h.parts v ?_
  -- whether a bound is exclusive is said as in the rule, or not at all
  simp only [List.map_cons, List.map_nil, List.mem_cons, List.not_mem_nil, or_false] at hv
  have hbind : ∀ o o' : Option Value, some v = o.bind (fun _ => o') → some v = o' := by
    intro o o' h
    cases o with
    | none => cases h
    | some u => exact h
  simp only [Rule.parts, List.mem_cons, List.not_mem_nil, or_false]
  rcases hv with hv | hv | hv | hv | hv
  · exact .inl hv
  · exact .inr (.inl hv)
  · exact .inr (.inr (.inr (.inl (hbind _ _ hv))))
  · exact .inr (.inr (.inl hv))
  · exact .inr (.inr (.inr (.inr (hbind _ _ hv))))

section Step

variable (hfg : ∀ a b, E a b → ∀ d, f a = .ok d → ∃ d', g b = .ok d' ∧ d.Equals nodes d')

include hfg

theorem childDocuments_mirrors {as bs : List NodeId} {ds : List Value} (h : List.Forall₂ E as bs)
    (hds : childDocuments f as = .ok ds) :
    ∃ ds', childDocuments g bs = .ok ds' ∧ List.Forall₂ (Value.Equals nodes) ds ds' := by
  induction h generalizing ds with
  | nil =>
    cases hds
    exact ⟨[], rfl, .nil⟩
  | cons hab _ ih =>
    obtain ⟨d, hd, hds⟩ := except_bind_eq_ok.mp hds
    obtain ⟨rest, hrest, hds⟩ := except_bind_eq_ok.mp hds
    cases hds
    obtain ⟨d', hd', hequals⟩ := hfg _ _ hab d hd
    obtain ⟨rest', hrest', hall⟩ := ih hrest
    exact ⟨d' :: rest', except_bind_eq_ok.mpr ⟨d', hd', except_bind_eq_ok.mpr ⟨rest', hrest', rfl⟩⟩,
      .cons hequals hall⟩

theorem itemsDocument_mirrors {items items' : Items} {o : Option Value}
    (h : items.Mirrors E items') (ho : itemsDocument f items = .ok o) :
    ∃ o', itemsDocument g items' = .ok o' ∧ Option.Rel (Value.Equals nodes) o o' := by
  cases h with
  | free =>
    cases ho
    exact ⟨none, rfl, .none⟩
  | every pair =>
    obtain ⟨d, hd, rfl⟩ := except_map_eq_ok.mp ho
    obtain ⟨d', hd', hequals⟩ := hfg _ _ pair d hd
    exact ⟨some d', except_map_eq_ok.mpr ⟨d', hd', rfl⟩, .some hequals⟩
  | each pairs =>
    obtain ⟨ds, hds, rfl⟩ := except_map_eq_ok.mp ho
    obtain ⟨ds', hds', hall⟩ := childDocuments_mirrors hfg pairs hds
    exact ⟨some (.listing ds'), except_map_eq_ok.mpr ⟨ds', hds', rfl⟩, .some (.listing hall)⟩

theorem propertyDocuments_mirrors {es es' ds : Entries Value Value}
    (h : List.Forall₂ (fun e e' => e.1 = e'.1 ∧ e.2.Mirrors E e'.2) es es')
    (hds : s.propertyDocuments f es = .ok ds) : ∃ ds', s.propertyDocuments g es' = .ok ds' ∧
      ds.keys = es.keys ∧
      List.Forall₂ (fun e e' => e.1 = e'.1 ∧ e.2.Equals nodes e'.2) ds ds' := by
  induction h generalizing ds with
  | nil =>
    cases hds
    exact ⟨[], rfl, rfl, .nil⟩
  | @cons e e' es es' he _ ih =>
    obtain ⟨k, v⟩ := e
    obtain ⟨k', v'⟩ := e'
    obtain ⟨rfl, hv⟩ := he
    obtain ⟨d, hd, hds⟩ := except_bind_eq_ok.mp hds
    obtain ⟨rest, hrest, hds⟩ := except_bind_eq_ok.mp hds
    cases hds
    obtain ⟨a, rfl, ha⟩ := memberDocument_eq_ok.mp hd
    obtain ⟨b, rfl, hab⟩ : ∃ b, v' = .node b ∧ E a b := by
      cases hv with
      | node pair => exact ⟨_, rfl, pair⟩
      | plain plain => cases plain
    obtain ⟨d', hd', hequals⟩ := hfg a b hab d ha
    obtain ⟨rest', hrest', hkeys, hall⟩ := ih hrest
    refine ⟨(k, d') :: rest', except_bind_eq_ok.mpr ⟨d', hd', except_bind_eq_ok.mpr
      ⟨rest', hrest', rfl⟩⟩, ?_, .cons ⟨rfl, hequals⟩ hall⟩
    rw [Entries.keys_cons, Entries.keys_cons, hkeys]

theorem additionalDocument_mirrors {o o' d : Option Value} (h : Option.Rel (Value.Mirrors E) o o')
    (hkeyed : ∀ v, o = some v → v.Keyed) (hd : additionalDocument f o = .ok d) :
    ∃ d', additionalDocument g o' = .ok d' ∧ Option.Rel (Value.Equals nodes) d d' := by
  cases h with
  | none =>
    cases hd
    exact ⟨none, rfl, .none⟩
  | some hv =>
    cases hv with
    | node pair =>
      obtain ⟨x, hx, rfl⟩ := except_map_eq_ok.mp hd
      obtain ⟨y, hy, hequals⟩ := hfg _ _ pair x hx
      exact ⟨some y, except_map_eq_ok.mpr ⟨y, hy, rfl⟩, .some hequals⟩
    | plain plain =>
      rename_i v
      have hplain : ∀ h : NodeId → Except Fault Value,
          additionalDocument h (some v) = .ok (some v) := by
        intro h
        cases v <;> first | rfl | cases plain
      cases (hplain f).symm.trans hd
      exact ⟨some v, hplain g, .some (hkeyed v rfl).equals⟩

theorem objectDocument_mirrors {r r' : ObjectRule} {d : Value} (h : r.Mirrors E r')
    (hkeyed : r.Keyed) (hd : s.objectDocument f r = .ok d) :
    ∃ d', s.objectDocument g r' = .ok d' ∧ d.Equals nodes d' := by
  obtain ⟨ps, hps, hd⟩ := except_bind_eq_ok.mp hd
  obtain ⟨o, ho, hd⟩ := except_bind_eq_ok.mp hd
  cases hd
  obtain ⟨ps', hps', hkeys, hall⟩ := propertyDocuments_mirrors hfg h.properties hps
  obtain ⟨o', ho', hrel⟩ := additionalDocument_mirrors hfg h.additional hkeyed.additional ho
  refine ⟨_, except_bind_eq_ok.mpr ⟨ps', hps', except_bind_eq_ok.mpr ⟨o', ho', rfl⟩⟩, ?_⟩
  have hrequired : ∀ v, r.requiredPart = some v → v.Keyed := by
    intro v hv
    unfold ObjectRule.requiredPart at hv
    split at hv
    · cases hv
    · cases hv
      exact .sequence rfl hkeyed.required
  have hpart : r.requiredPart = r'.requiredPart := by
    rw [ObjectRule.requiredPart, ObjectRule.requiredPart, h.required]
  have hdocument : (typedDocument "object" (written [(.properties, some (.mapping ps)),
      (.required, r.requiredPart), (.additionalProperties, o)])).Equals nodes
        (typedDocument "object" (written [(.properties, some (.mapping ps')),
          (.required, r'.requiredPart), (.additionalProperties, o')])) :=
    equals_typed "object" (by simp)
      (.cons ⟨rfl, .some (.dict (hkeys ▸ hkeyed.properties) hall)⟩
        (.cons ⟨rfl, hpart ▸ rel_equals hrequired⟩ (.cons ⟨rfl, hrel⟩ .nil)))
  simpa only [written, List.flatMap_cons, List.flatMap_nil, List.append_nil, List.append_assoc]
    using hdocument

theorem schemaDocument_mirrors {r r' : ObjectRule} {d : Value} (h : r.Mirrors E r')
    (hkeyed : r.Keyed) (hd : s.schemaDocument f r = .ok d) :
    ∃ d', s.schemaDocument g r' = .ok d' ∧ d.Equals nodes d' := by
  have hnil : r.properties = [] ↔ r'.properties = [] := by
    rw [← List.length_eq_zero_iff, h.properties.length_eq, List.length_eq_zero_iff]
  rcases schemaDocument_cases r with ⟨a, hproperties, hadditional, hform⟩ | ⟨hnot, hform⟩
  · -- a builder with one rule for every key, and so is the other one
    have hrel := h.additional
    rw [hadditional] at hrel
    obtain ⟨b, hadditional', hab⟩ : ∃ b, r'.additional = some (.node b) ∧ E a b := by
      cases hsome : r'.additional with
      | none => simp [hsome] at hrel
      | some v =>
        rw [hsome, Option.rel_some_some] at hrel
        cases hrel with
        | node pair => exact ⟨_, rfl, pair⟩
        | plain plain => cases plain
    rw [hform] at hd
    obtain ⟨d', hd', hequals⟩ := hfg a b hab d hd
    refine ⟨d', ?_, hequals⟩
    rw [schemaDocument, hnil.mp hproperties, hadditional']
    exact hd'
  · rw [hform] at hd
    obtain ⟨d', hd', hequals⟩ := objectDocument_mirrors hfg h hkeyed hd
    refine ⟨d', ?_, hequals⟩
    rcases schemaDocument_cases r' with ⟨b, hproperties', hadditional', -⟩ | ⟨-, hform'⟩
    · have hrel := h.additional
      rw [hadditional'] at hrel
      cases hsome : r.additional with
      | none => simp [hsome] at hrel
      | some v =>
        rw [hsome, Option.rel_some_some] at hrel
        cases hrel with
        | node pair => exact absurd ⟨hnil.mpr hproperties', hsome⟩ (hnot _)
        | plain plain => cases plain
    · rw [hform']
      exact hd'

theorem arrayDocument_mirrors {r : ArrayRule} {items : Items} {d : Value}
    (h : r.items.Mirrors E items) (hkeyed : (Rule.array r).Keyed)
    (hd : s.documentOf f (.array r) = .ok d) :
    ∃ d', s.documentOf g (.array { r with items }) = .ok d' ∧ d.Equals nodes d' := by
  obtain ⟨o, ho, hd⟩ := except_bind_eq_ok.mp hd
  cases hd
  obtain ⟨o', ho', hrel⟩ := itemsDocument_mirrors hfg h ho
  refine ⟨_, except_bind_eq_ok.mpr ⟨o', ho', rfl⟩, ?_⟩
  have hpart : ∀ p ∈ (Rule.array r).parts, Option.Rel (Value.Equals nodes) p p := fun p hp =>
    rel_equals fun v hv => hkeyed.parts v (hv ▸ hp)
  have hdocument : (typedDocument "array" (written [(.minItems, r.minItems),
      (.maxItems, r.maxItems), (.uniqueItems, r.uniqueItems), (.items, o),
      (.additionalItems, r.additionalItems)])).Equals nodes
        (typedDocument "array" (written [(.minItems, r.minItems), (.maxItems, r.maxItems),
          (.uniqueItems, r.uniqueItems), (.items, o'),
          (.additionalItems, r.additionalItems)])) :=
    equals_typed "array" (by simp)
      (.cons ⟨rfl, hpart _ (by simp [Rule.parts])⟩ (.cons ⟨rfl, hpart _ (by simp [Rule.parts])⟩
        (.cons ⟨rfl, hpart _ (by simp [Rule.parts])⟩ (.cons ⟨rfl, hrel⟩
          (.cons ⟨rfl, hpart _ (by simp [Rule.parts])⟩ .nil)))))
  simpa only [written, List.flatMap_cons, List.flatMap_nil, List.append_nil, List.append_assoc]
    using hdocument

/-- A builder that mirrors another one has an equal document, whatever their kind. -/
theorem builderDocument_mirrors {r r' : ObjectRule} {d : Value} (h : r.Mirrors E r')
    (hkeyed : r.Keyed) (hd : s.documentOf f (.object r) = .ok d) :
    ∃ d', s.documentOf g (.object r') = .ok d' ∧ d.Equals nodes d' := by
  simp only [documentOf, ← h.kind] at hd ⊢
  cases hkind : r.kind with
  | plain =>
    rw [hkind] at hd
    exact objectDocument_mirrors hfg h hkeyed hd
  | schema =>
    rw [hkind] at hd
    exact schemaDocument_mirrors hfg h hkeyed hd
  | dictionary =>
    rw [hkind] at hd
    obtain ⟨inner, hinner, hd⟩ := except_bind_eq_ok.mp hd
    cases hd
    obtain ⟨inner', hinner', hequals⟩ := schemaDocument_mirrors hfg h hkeyed hinner
    refine ⟨_, except_bind_eq_ok.mpr ⟨inner', hinner', rfl⟩, ?_⟩
    have hdocument : (typedDocument "object" (written [(.additionalProperties, some inner)])).Equals
        nodes (typedDocument "object" (written [(.additionalProperties, some inner')])) :=
      equals_typed "object" (by simp) (.cons ⟨rfl, .some hequals⟩ .nil)
    simpa only [written, List.flatMap_cons, List.flatMap_nil, List.append_nil] using hdocument

/-- Rules that are the same but for paired rules inside have equal documents, if paired rules have. -/
theorem documentOf_mirrors {rule rule' : Rule} {d : Value} (h : rule.Mirrors E rule')
    (hkeyed : rule.Keyed) (hd : s.documentOf f rule = .ok d) :
    ∃ d', s.documentOf g rule' = .ok d' ∧ d.Equals nodes d' := by
  cases h with
  | string r =>
    cases hd
    refine ⟨_, rfl, ?_⟩
    rw [stringKeywords_eq]
    exact equals_typed_self "string" (by simp) hkeyed.parts
  | number r =>
    cases hd
    exact ⟨_, rfl, equals_number hkeyed⟩
  | boolean allowed =>
    cases hd
    refine ⟨_, rfl, ?_⟩
    have hdocument : (typedDocument "boolean" (written [(.enum, allowed.map .listing)])).Equals nodes
        (typedDocument "boolean" (written [(.enum, allowed.map .listing)])) :=
      equals_typed_self "boolean" (by simp) hkeyed.parts
    simpa only [allowedKeywords, written, List.flatMap_cons, List.flatMap_nil, List.append_nil]
      using hdocument
  | array mirrors => exact arrayDocument_mirrors hfg mirrors hkeyed hd
  | @object r r' mirrors => exact builderDocument_mirrors hfg mirrors (hkeyed.object r rfl) hd
  | combinator pairs =>
    obtain ⟨ds, hds, hd⟩ := except_bind_eq_ok.mp hd
    cases hd
    obtain ⟨ds', hds', hall⟩ := childDocuments_mirrors hfg pairs hds
    exact ⟨_, except_bind_eq_ok.mpr ⟨ds', hds', rfl⟩,
      .dict (List.pairwise_singleton _ _) (.cons ⟨rfl, .listing hall⟩ .nil)⟩
  | negation pair =>
    obtain ⟨x, hx, hd⟩ := except_bind_eq_ok.mp hd
    cases hd
    obtain ⟨y, hy, hequals⟩ := hfg _ _ pair x hx
    exact ⟨_, except_bind_eq_ok.mpr ⟨y, hy, rfl⟩,
      .dict (List.pairwise_singleton _ _) (.cons ⟨rfl, hequals⟩ .nil)⟩

end Step

/-- Rules that are the same but for paired rules inside have documents that are equal and keyed, where
paired rules are of this kind or have such documents. -/
theorem document_mirrors (hs : s.AllKeyed)
    (hE : ∀ a b, E a b →
      (∀ d, s.document a = .ok d → ∃ e, s.document b = .ok e ∧ d.Equals nodes e) ∨
      ∃ node node', s.get? a = some node ∧ s.get? b = some node' ∧ node.rule.Mirrors E node'.rule)
    {a b : NodeId} (hab : E a b) {d : Value} (hd : s.document a = .ok d) :
    ∃ e, s.document b = .ok e ∧ d.Equals nodes e := by
  -- by how deep rules are nested in the document
  have within : ∀ n a b, E a b → ∀ d, s.documentWithin n a = .ok d →
      ∃ e, s.document b = .ok e ∧ d.Equals nodes e := by
    intro n
    induction n with
    | zero => exact fun a b _ d hd => nomatch hd
    | succ n ih =>
      intro a b hab d hd
      rcases hE a b hab with hequal | ⟨node, node', ha, hb, hmirrors⟩
      · exact hequal d (document_of_documentWithin hd)
      · rw [documentWithin, ha] at hd
        obtain ⟨e, he, hequals⟩ := documentOf_mirrors ih hmirrors (hs a node ha) hd
        refine ⟨e, document_of_documentWithin (m := s.size + 1 + 1) ?_, hequals⟩
        rw [documentWithin, hb]
        exact he
  exact within _ a b hab d hd

/-- Documents are keyed. -/
theorem AllKeyed.document (hs : s.AllKeyed) {a : NodeId} {d : Value} (hd : s.document a = .ok d) :
    d.Keyed := by
  have hE : ∀ a b, a = b →
      (∀ d, s.document a = .ok d → ∃ e, s.document b = .ok e ∧ d.Equals (fun _ _ => True) e) ∨
      ∃ node node', s.get? a = some node ∧ s.get? b = some node' ∧
        node.rule.Mirrors Eq node'.rule := by
    rintro a _ rfl
    cases ha : s.get? a with
    | none =>
      refine .inl fun d hd => ?_
      rw [Store.document, documentWithin, ha] at hd
      cases hd
    | some node => exact .inr ⟨node, node, rfl, rfl, .refl (fun _ => rfl) node.rule⟩
  obtain ⟨e, -, hequals⟩ := document_mirrors hs hE rfl hd
  exact hequals.left

/-- Documents are mappings. -/
theorem document_dict {a : NodeId} {d : Value} (hd : s.document a = .ok d) :
    ∃ es, d = .dict 0 es := by
  have within : ∀ n a d, s.documentWithin n a = .ok d → ∃ es, d = .dict 0 es := by
    intro n
    induction n with
    | zero => exact fun a d hd => nomatch hd
    | succ n ih =>
      intro a d hd
      rw [documentWithin] at hd
      split at hd
      · cases hd
      rename_i node hnode
      have hobject : ∀ {r d}, s.objectDocument (s.documentWithin n) r = .ok d →
          ∃ es, d = .dict 0 es := by
        intro r d hd
        obtain ⟨ps, -, hd⟩ := except_bind_eq_ok.mp hd
        obtain ⟨o, -, hd⟩ := except_bind_eq_ok.mp hd
        cases hd
        exact ⟨_, rfl⟩
      cases hrule : node.rule with
      | string | number | boolean =>
        rw [hrule] at hd
        cases hd
        exact ⟨_, rfl⟩
      | array | combinator | negation =>
        rw [hrule] at hd
        obtain ⟨x, -, hd⟩ := except_bind_eq_ok.mp hd
        cases hd
        exact ⟨_, rfl⟩
      | object r =>
        simp only [hrule, documentOf] at hd
        split at hd
        · exact hobject hd
        · rcases schemaDocument_cases r with ⟨c, -, -, hform⟩ | ⟨-, hform⟩
          · exact ih c d ((hform s _).symm.trans hd)
          · exact hobject ((hform s _).symm.trans hd)
        · obtain ⟨x, -, hd⟩ := except_bind_eq_ok.mp hd
          cases hd
          exact ⟨_, rfl⟩
  exact within _ a d hd

end Store

end DraftSchema
