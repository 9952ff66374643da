import DraftSchema.Node.Path

/-!
# Pointers tell paths apart

A name inside a pointer is escaped in one go, which comes to the same as replacing first the tildes and
then the slashes in it. No escaped name holds a slash, so the slashes of a pointer part its names, and
what is read between them is each name as it was. The pointer that goes with a refused path of texts
is therefore that of no other path.
-/

namespace DraftSchema

namespace Pointer

/-- A text with every occurrence of a character replaced by others. -/
def substitute (c : Char) (by' cs : List Char) : List Char :=
  cs.flatMap fun d => if d = c then by' else [d]

/-- Escaping is replacing the tildes and then the slashes. The tildes that stand for slashes are not
there yet when tildes are replaced. -/
theorem escapeChars_eq_substitute (cs : List Char) :
    escapeChars cs = substitute '/' ['~', '1'] (substitute '~' ['~', '0'] cs) := by
  induction cs with
  | nil => rfl
  | cons c cs ih =>
    rw [escapeChars_cons, ih]
    by_cases htilde : c = '~'
    · subst htilde
      rfl
    · by_cases hslash : c = '/'
      · subst hslash
        rfl
      · simp [escapeChar, substitute, htilde, hslash]

/-- Different paths have different pointers. -/
theorem encode_injective {path other : List String} (h : encode path = encode other) :
    path = other := by
  have hread : decode? (encode path) = decode? (encode other) := by rw [h]
  rw [decode?_encode, decode?_encode] at hread
  exact Option.some.inj hread

end Pointer

namespace Store

/-- Texts can always be pointed to. -/
theorem pointer_texts (s : Store) (path : List String) :
    s.pointer (path.map .text) = .ok (Pointer.encode path) := by
  have htexts : (path.map Value.text).mapM s.valueText = .ok path := by
    induction path with
    | nil => rfl
    | cons name path ih =>
      rw [List.map_cons, List.mapM_cons, ih]
      rfl
  rw [pointer, htexts]
  rfl

end Store

/-- Pointers lose nothing: reading one gives back the names that it was written for. No escaped name
holds a slash; escaping is replacing the tildes and then the slashes. So the pointers that are given for
two paths of texts are the same only if the paths are. -/
theorem Pointer.encode_lossless :
    (∀ path : List String, decode? (encode path) = some path) ∧
    (∀ name : String, '/' ∉ (escape name).toList ∧
      (escape name).toList = substitute '/' ['~', '1'] (substitute '~' ['~', '0'] name.toList)) ∧
    (∀ path other : List String, encode path = encode other ↔ path = other) ∧
    ∀ (s t : Store) (path other : List String),
      s.pointer (path.map .text) = .ok (encode path) ∧
      (s.pointer (path.map .text) = t.pointer (other.map .text) ↔ path = other) := by
  have hinjective : ∀ path other : List String, encode path = encode other ↔ path = other := by
    intro path other
    exact ⟨encode_injective, fun h => by rw [h]⟩
  refine ⟨decode?_encode, ?_, hinjective, ?_⟩
  · intro name
    rw [escape, String.toList_ofList]
    exact ⟨slash_not_mem_escapeChars _, escapeChars_eq_substitute _⟩
  · intro s t path other
    refine ⟨Store.pointer_texts s path, ?_⟩
    rw [Store.pointer_texts, Store.pointer_texts, Except.ok.injEq]
    exact hinjective path other

end DraftSchema
