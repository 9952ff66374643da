import DraftSchema.Draft04
import DraftSchema.Proofs.Reading

/-!
# What documents hold

A document does not depend on the fuel it is computed with, once there is one. The document of an
object rule holds the documents of its properties under their names; only the body of a dictionary
stands one level further down.
-/

namespace DraftSchema

namespace Store

/-! ## Fuel -/

section Fuel

variable {s : Store} {f g : NodeId → Except Fault Value}
  (h : ∀ c d, f c = .ok d → g c = .ok d)

include h

theorem memberDocument_mono {v d : Value} (hd : s.memberDocument f v = .ok d) :
    s.memberDocument g v = .ok d := by
  unfold memberDocument at hd ⊢
  split at hd
  · exact h _ _ hd
  · cases hd
  · cases hd

theorem propertyDocuments_mono {es ds : Entries Value Value}
    (hd : s.propertyDocuments f es = .ok ds) : s.propertyDocuments g es = .ok ds := by
  induction es generalizing ds with
  | nil => exact hd
  | cons e es ih =>
    obtain ⟨d, hfirst, hd⟩ := except_bind_eq_ok.mp hd
    obtain ⟨rest, hrest, hd⟩ := except_bind_eq_ok.mp hd
    cases hd
    exact except_bind_eq_ok.mpr ⟨d, memberDocument_mono h hfirst,
      except_bind_eq_ok.mpr ⟨rest, ih hrest, rfl⟩⟩

theorem childDocuments_mono {ids : List NodeId} {ds : List Value}
    (hd : childDocuments f ids = .ok ds) : childDocuments g ids = .ok ds := by
  induction ids generalizing ds with
  | nil => exact hd
  | cons id ids ih =>
    obtain ⟨d, hfirst, hd⟩ := except_bind_eq_ok.mp hd
    obtain ⟨rest, hrest, hd⟩ := except_bind_eq_ok.mp hd
    cases hd
    exact except_bind_eq_ok.mpr ⟨d, h _ _ hfirst, except_bind_eq_ok.mpr ⟨rest, ih hrest, rfl⟩⟩

theorem additionalDocument_mono {v d : Option Value} (hd : additionalDocument f v = .ok d) :
    additionalDocument g v = .ok d := by
  unfold additionalDocument at hd ⊢
  split at hd
  · obtain ⟨doc, hdoc, rfl⟩ := except_map_eq_ok.mp hd
    exact except_map_eq_ok.mpr ⟨doc, h _ _ hdoc, rfl⟩
  · exact hd

theorem itemsDocument_mono {items : Items} {d : Option Value}
    (hd : itemsDocument f items = .ok d) : itemsDocument g items = .ok d := by
  cases items with
  | free => exact hd
  | every child =>
    obtain ⟨doc, hdoc, rfl⟩ := except_map_eq_ok.mp hd
    exact except_map_eq_ok.mpr ⟨doc, h _ _ hdoc, rfl⟩
  | each children =>
    obtain ⟨docs, hdocs, rfl⟩ := except_map_eq_ok.mp hd
    exact except_map_eq_ok.mpr ⟨docs, childDocuments_mono h hdocs, rfl⟩

theorem objectDocument_mono {r : ObjectRule} {d : Value} (hd : s.objectDocument f r = .ok d) :
    s.objectDocument g r = .ok d := by
  obtain ⟨properties, hps, hd⟩ := except_bind_eq_ok.mp hd
  obtain ⟨additional, hadd, hd⟩ := except_bind_eq_ok.mp hd
  exact except_bind_eq_ok.mpr ⟨properties, propertyDocuments_mono h hps,
    except_bind_eq_ok.mpr ⟨additional, additionalDocument_mono h hadd, hd⟩⟩

theorem schemaDocument_mono {r : ObjectRule} {d : Value} (hd : s.schemaDocument f r = .ok d) :
    s.schemaDocument g r = .ok d := by
  unfold schemaDocument at hd ⊢
  split at hd
  · exact h _ _ hd
  · exact objectDocument_mono h hd

theorem documentOf_mono {rule : Rule} {d : Value} (hd : s.documentOf f rule = .ok d) :
    s.documentOf g rule = .ok d := by
  cases rule with
  | string | number | boolean => exact hd
  | array r =>
    obtain ⟨items, hitems, hd⟩ := except_bind_eq_ok.mp hd
    exact except_bind_eq_ok.mpr ⟨items, itemsDocument_mono h hitems, hd⟩
  | object r =>
    cases hkind : r.kind with
    | plain =>
      simp only [documentOf, hkind] at hd ⊢
      exact objectDocument_mono h hd
    | schema =>
      simp only [documentOf, hkind] at hd ⊢
      exact schemaDocument_mono h hd
    | dictionary =>
      simp only [documentOf, hkind] at hd ⊢
      obtain ⟨inner, hinner, hd⟩ := except_bind_eq_ok.mp hd
      exact except_bind_eq_ok.mpr ⟨inner, schemaDocument_mono h hinner, hd⟩
  | combinator kind children =>
    obtain ⟨ds, hds, hd⟩ := except_bind_eq_ok.mp hd
    exact except_bind_eq_ok.mpr ⟨ds, childDocuments_mono h hds, hd⟩
  | negation child =>
    obtain ⟨d', hchild, hd⟩ := except_bind_eq_ok.mp hd
    exact except_bind_eq_ok.mpr ⟨d', h _ _ hchild, hd⟩

end Fuel

/-- More fuel gives no other document. -/
theorem documentWithin_mono {s : Store} {m n : Nat} {id : NodeId} {d : Value}
    (hd : s.documentWithin m id = .ok d) (hmn : m ≤ n) : s.documentWithin n id = .ok d := by
  induction m generalizing n id d with
  | zero => cases hd
  | succ m ih =>
    obtain ⟨n, rfl⟩ : ∃ k, n = k + 1 := ⟨n - 1, by omega⟩
    rw [documentWithin] at hd ⊢
    split at hd
    · cases hd
    · exact documentOf_mono (fun c d hc => ih hc (by omega)) hd

open Classical in
/-- The rules that have a document with some fuel. -/
noncomputable def documented (s : Store) (n : Nat) : Finset NodeId :=
  (Finset.range s.size).filter fun id => ∃ d, s.documentWithin n id = .ok d

theorem lt_size_of_documentWithin {s : Store} {n : Nat} {id : NodeId} {d : Value}
    (hd : s.documentWithin n id = .ok d) : id < s.size := by
  cases n with
  | zero => cases hd
  | succ n =>
    rw [documentWithin] at hd
    split at hd
    · cases hd
    · exact lt_size_of_get? ‹_›

theorem mem_documented {s : Store} {n : Nat} {id : NodeId} :
    id ∈ s.documented n ↔ ∃ d, s.documentWithin n id = .ok d := by
  simp only [documented, Finset.mem_filter, Finset.mem_range, and_iff_right_iff_imp]
  exact fun ⟨_, hd⟩ => lt_size_of_documentWithin hd

/-- Once more fuel documents no further rule, it never does. -/
theorem documentWithin_settled {s : Store} {m n : Nat} (h : s.documented (n + 1) ⊆ s.documented n)
    (hnm : n ≤ m) {id : NodeId} {d : Value} (hd : s.documentWithin m id = .ok d) :
    s.documentWithin n id = .ok d := by
  induction m, hnm using Nat.le_induction generalizing id d with
  | base => exact hd
  | succ m _ ih =>
    -- with less fuel inside there is a document, and it is found with the fuel that suffices
    have hnext : s.documentWithin (n + 1) id = .ok d := by
      rw [documentWithin] at hd ⊢
      split at hd
      · cases hd
      · exact documentOf_mono (fun c d hc => ih hc) hd
    obtain ⟨d', hd'⟩ := mem_documented.mp (h (mem_documented.mpr ⟨d, hnext⟩))
    cases (documentWithin_mono hd' (Nat.le_succ n)).symm.trans hnext
    exact hd'

/-- Sets of numbers below a bound that never shrink stand still before long. -/
theorem exists_still {k : Nat} {F : Nat → Finset Nat} (hin : ∀ n, F n ⊆ Finset.range k)
    (hgrows : ∀ n, F n ⊆ F (n + 1)) : ∃ n ≤ k, F (n + 1) ⊆ F n := by
  by_contra hnone
  push Not at hnone
  -- else every step adds one more number than there are
  have hmany : ∀ n ≤ k + 1, n ≤ (F n).card := by
    intro n hn
    induction n with
    | zero => exact Nat.zero_le _
    | succ n ih =>
      have hsub : F n ⊂ F (n + 1) :=
        Finset.ssubset_iff_subset_ne.mpr ⟨hgrows n, fun heq => hnone n (by omega) heq.ge⟩
      have hcard := Finset.card_lt_card hsub
      have := ih (by omega)
      omega
  have hfull := hmany (k + 1) (Nat.le_refl _)
  have hall := Finset.card_le_card (hin (k + 1))
  rw [Finset.card_range] at hall
  omega

/-- A document that there is with any fuel is the document. -/
theorem document_of_documentWithin {s : Store} {m : Nat} {id : NodeId} {d : Value}
    (hd : s.documentWithin m id = .ok d) : s.document id = .ok d := by
  obtain ⟨n, hn, hsettled⟩ : ∃ n ≤ s.size, s.documented (n + 1) ⊆ s.documented n := by
    refine exists_still (fun n x hx => ?_) fun n x hx => ?_
    · obtain ⟨d, hd⟩ := mem_documented.mp hx
      exact Finset.mem_range.mpr (lt_size_of_documentWithin hd)
    · obtain ⟨d, hd⟩ := mem_documented.mp hx
      exact mem_documented.mpr ⟨d, documentWithin_mono hd (Nat.le_succ n)⟩
  have hlate := documentWithin_mono hd (Nat.le_max_left m n)
  have hearly := documentWithin_settled hsettled (Nat.le_max_right m n) hlate
  exact documentWithin_mono hearly (by omega)

/-! ## Properties -/

/-- The part of a document that says what the properties of an object are: a dictionary says it of
every value, and not of itself. -/
def body (kind : ObjectKind) (document : Value) : Option Value :=
  match kind with
  | .dictionary => Draft04.member? document .additionalProperties
  | _ => some document

theorem body_of_accepts {kind : ObjectKind} (h : kind.acceptsProperties = true) (d : Value) :
    body kind d = some d := by
  cases kind <;> first | rfl | cases h

theorem memberDocument_eq_ok {s : Store} {f : NodeId → Except Fault Value} {v d : Value} :
    s.memberDocument f v = .ok d ↔ ∃ c, v = .node c ∧ f c = .ok d := by
  unfold memberDocument
  split
  · rename_i c
    constructor
    · exact fun h => ⟨c, rfl, h⟩
    · rintro ⟨_, hc, h⟩
      cases hc
      exact h
  · simp
  · rename_i hnode _
    simp only [reduceCtorEq, false_iff]
    rintro ⟨c, rfl, -⟩
    exact hnode c rfl

/-- The documents of properties stand under the names of the properties. -/
theorem get?_propertyDocuments {s : Store} {f : NodeId → Except Fault Value}
    {es ds : Entries Value Value} (h : s.propertyDocuments f es = .ok ds) (name : Value) :
    es.get? name = none ∧ ds.get? name = none ∨
      ∃ c d, es.get? name = some (.node c) ∧ f c = .ok d ∧ ds.get? name = some d := by
  induction es generalizing ds with
  | nil =>
    cases h
    exact .inl ⟨rfl, rfl⟩
  | cons e es ih =>
    obtain ⟨k, v⟩ := e
    obtain ⟨d, hd, h⟩ := except_bind_eq_ok.mp h
    obtain ⟨rest, hrest, h⟩ := except_bind_eq_ok.mp h
    cases h
    obtain ⟨c, rfl, hc⟩ := memberDocument_eq_ok.mp hd
    rw [Entries.get?_cons, Entries.get?_cons]
    by_cases hk : (k == name) = true
    · rw [if_pos hk, if_pos hk]
      exact .inr ⟨c, d, rfl, hc, rfl⟩
    · rw [if_neg hk, if_neg hk]
      exact ih hrest

/-- An object rule is written with its properties: it is no builder that holds nothing but one rule
for every key. -/
def WrittenOut (r : ObjectRule) : Prop :=
  r.kind = .plain ∨ r.properties ≠ [] ∨ ∀ c, r.additional ≠ some (.node c)

/-- The document of an object rule that is written with its properties holds their documents. -/
theorem properties_of_documentOf {s : Store} {f : NodeId → Except Fault Value} {r : ObjectRule}
    {d : Value} (h : s.documentOf f (.object r) = .ok d) (hr : WrittenOut r) :
    ∃ inner ps, body r.kind d = some inner ∧ s.propertyDocuments f r.properties = .ok ps ∧
      Draft04.member? inner .properties = some (.mapping ps) := by
  have object : ∀ inner, s.objectDocument f r = .ok inner →
      ∃ ps, s.propertyDocuments f r.properties = .ok ps ∧
        Draft04.member? inner .properties = some (.mapping ps) := by
    intro inner h
    obtain ⟨ps, hps, h⟩ := except_bind_eq_ok.mp h
    obtain ⟨additional, -, h⟩ := except_bind_eq_ok.mp h
    cases h
    exact ⟨ps, hps, rfl⟩
  -- a builder that is not written as its one rule for every key is written like any object
  have builder : r.kind ≠ .plain → s.schemaDocument f r = s.objectDocument f r := by
    intro hkind
    unfold schemaDocument
    split
    · rename_i id hprops hadd
      rcases hr with hr | hr | hr
      · exact absurd hr hkind
      · exact absurd hprops hr
      · exact absurd hadd (hr id)
    · rfl
  cases hkind : r.kind with
  | plain =>
    simp only [documentOf, hkind] at h
    obtain ⟨ps, hps, hmember⟩ := object d h
    exact ⟨d, ps, rfl, hps, hmember⟩
  | schema =>
    simp only [documentOf, hkind] at h
    rw [builder (by simp [hkind])] at h
    obtain ⟨ps, hps, hmember⟩ := object d h
    exact ⟨d, ps, rfl, hps, hmember⟩
  | dictionary =>
    simp only [documentOf, hkind] at h
    obtain ⟨inner, hinner, h⟩ := except_bind_eq_ok.mp h
    cases h
    rw [builder (by simp [hkind])] at hinner
    obtain ⟨ps, hps, hmember⟩ := object inner hinner
    exact ⟨inner, ps, rfl, hps, hmember⟩

/-- One step down into the document of an object rule that is written with its properties. -/
theorem properties_of_documentWithin {s : Store} {n : Nat} {id : NodeId} {r : ObjectRule} {d : Value}
    (hget : ∃ required, s.get? id = some ⟨.object r, required⟩) (hr : WrittenOut r)
    (hd : s.documentWithin n id = .ok d) :
    ∃ k ps, n = k + 1 ∧ s.propertyDocuments (s.documentWithin k) r.properties = .ok ps ∧
      ∀ name rest, (body r.kind d).bind (Draft04.property? · (name :: rest))
        = (ps.get? name).bind (Draft04.property? · rest) := by
  obtain ⟨required, hget⟩ := hget
  cases n with
  | zero => cases hd
  | succ k =>
    rw [documentWithin, hget] at hd
    obtain ⟨inner, ps, hbody, hps, hmember⟩ := properties_of_documentOf hd hr
    refine ⟨k, ps, rfl, hps, fun name rest => ?_⟩
    rw [hbody]
    simp only [Option.bind_some, Draft04.property?, hmember, Value.mapping]

/-- Under a name the document of an object rule holds the document of what the property holds, or
nothing if there is no such property. -/
theorem property_cases {s : Store} {n : Nat} {id : NodeId} {r : ObjectRule} {d : Value}
    (hget : ∃ required, s.get? id = some ⟨.object r, required⟩) (hr : WrittenOut r)
    (hd : s.documentWithin n id = .ok d) (name : Value) :
    (r.properties.get? name = none ∧
        ∀ rest, (body r.kind d).bind (Draft04.property? · (name :: rest)) = none) ∨
      ∃ k c dc, n = k + 1 ∧ r.properties.get? name = some (.node c) ∧
        s.documentWithin k c = .ok dc ∧
        ∀ rest, (body r.kind d).bind (Draft04.property? · (name :: rest))
          = Draft04.property? dc rest := by
  obtain ⟨k, ps, rfl, hps, hbody⟩ := properties_of_documentWithin hget hr hd
  rcases get?_propertyDocuments hps name with ⟨hnone, hdnone⟩ | ⟨c, dc, hc, hdc, hname⟩
  · exact .inl ⟨hnone, fun rest => by rw [hbody, hdnone, Option.bind_none]⟩
  · exact .inr ⟨k, c, dc, rfl, hc, hdc, fun rest => by rw [hbody, hname, Option.bind_some]⟩

/-- An object rule with a property is written with it. -/
theorem property_of_child {s : Store} {n : Nat} {id c : NodeId} {r : ObjectRule} {d name : Value}
    (hget : ∃ required, s.get? id = some ⟨.object r, required⟩)
    (hchild : r.properties.get? name = some (.node c)) (hd : s.documentWithin n id = .ok d) :
    ∃ k dc, n = k + 1 ∧ s.documentWithin k c = .ok dc ∧
      ∀ rest, (body r.kind d).bind (Draft04.property? · (name :: rest))
        = Draft04.property? dc rest := by
  have hne : r.properties ≠ [] := by
    intro hnil
    rw [hnil] at hchild
    cases hchild
  rcases property_cases hget (.inr (.inl hne)) hd name with
    ⟨hnone, -⟩ | ⟨k, c', dc, rfl, hc, hdc, hbody⟩
  · rw [hchild] at hnone
    cases hnone
  · cases hchild.symm.trans hc
    exact ⟨k, dc, rfl, hdc, hbody⟩

/-- Stores that agree on a rule give it the same document with the same fuel. -/
theorem documentWithin_congr {s t : Store} (n : Nat) {id : NodeId} (h : s.Agree t id) :
    t.documentWithin n id = s.documentWithin n id := by
  induction n generalizing id with
  | zero => rfl
  | succ n ih =>
    rw [documentWithin, documentWithin, ← h.self]
    cases hnode : s.get? id with
    | none => rfl
    | some node =>
      refine documentOf_congr node.rule fun c hc => ?_
      have hmem : c ∈ s.references id := references_of_get? hnode ▸ hc
      exact ⟨(h.child hmem).self.symm, ih (h.child hmem)⟩

/-- Stores that agree on a rule give it no two different documents. -/
theorem document_unique {s t : Store} {m n : Nat} {id : NodeId} {d d' : Value} (h : s.Agree t id)
    (hd : s.documentWithin m id = .ok d) (hd' : t.documentWithin n id = .ok d') : d' = d := by
  have hs := documentWithin_mono hd (Nat.le_max_left m n)
  have ht := documentWithin_mono hd' (Nat.le_max_right m n)
  rw [documentWithin_congr _ h, hs] at ht
  cases ht
  rfl

end Store

end DraftSchema
