import DraftSchema.Construction
import DraftSchema.Draft04
import DraftSchema.Node.Document
import DraftSchema.Proofs.Run

/-!
# Patterns that match one text

A literal is escaped character by character, so its pattern is read back as these characters between
the marks of the start and the end. The start mark keeps the search at the front of a text; the end
mark lets a final line break pass, which the look-ahead then stops. So the pattern is found in the
literal and in no other text, and it makes no difference whether a literal is compiled to its pattern
or to the one value that is allowed.
-/

namespace DraftSchema

namespace Pattern

/-! ## Reading what was written -/

/-- An escaped mark is read as itself. -/
theorem parts?_escaped {c : Char} (h : isMark c = true) (rest : List Char) :
    parts? ('\\' :: c :: rest) = (parts? rest).map (.char c :: ·) := by
  rw [parts?, if_pos h]

/-- A character that is no mark is read as itself. -/
theorem parts?_plain {c : Char} (h : isMark c = false) (rest : List Char) :
    parts? (c :: rest) = (parts? rest).map (.char c :: ·) := by
  have hmark : ∀ mark, isMark mark = true → c ≠ mark := by
    rintro mark hmark rfl
    exact absurd hmark (by simp [h])
  -- what is read otherwise begins with a mark
  have hgroup := hmark '(' rfl
  have hstart := hmark '^' rfl
  have hfinish := hmark '$' rfl
  have hescape := hmark '\\' rfl
  rw [parts?]
  · rw [if_neg (by simp [h])]
  all_goals grind

/-- The characters that are escaped are the marks. -/
theorem mem_specials_iff (c : Char) : c ∈ specials ↔ isMark c = true := by
  constructor
  · intro h
    have hall : ∀ mark ∈ specials, isMark mark = true := by simp [specials, isMark]
    exact hall c h
  · unfold isMark
    split <;> simp [specials]

theorem parts?_escapeChar (c : Char) (rest : List Char) :
    parts? (escapeChar c ++ rest) = (parts? rest).map (.char c :: ·) := by
  unfold escapeChar
  split
  · exact parts?_escaped ((mem_specials_iff c).mp ‹_›) rest
  · rename_i hplain
    rw [mem_specials_iff, Bool.not_eq_true] at hplain
    exact parts?_plain hplain rest

/-- An escaped literal is read as its characters, whatever follows. -/
theorem parts?_escapeChars (cs rest : List Char) :
    parts? (escapeChars cs ++ rest) = (parts? rest).map (cs.map .char ++ ·) := by
  induction cs with
  | nil => simp [escapeChars]
  | cons c cs ih =>
    have hcons : escapeChars (c :: cs) = escapeChar c ++ escapeChars cs := rfl
    rw [hcons, List.append_assoc, parts?_escapeChar, ih, Option.map_map]
    rfl

/-- The parts of the pattern of a literal. -/
def exactParts (cs : List Char) : List Part := .start :: (cs.map .char ++ [.finish, .noBreak])

theorem parts?_exactChars (cs : List Char) : parts? (exactChars cs) = some (exactParts cs) := by
  have hend : parts? ['$', '(', '?', '!', '\\', 'n', ')'] = some [.finish, .noBreak] := rfl
  rw [exactChars, parts?, parts?_escapeChars, hend]
  rfl

/-! ## Looking for it -/

/-- The marks at the end of a pattern match where nothing is left, not even a line break. -/
theorem matchesAt_end (first : Bool) (text : List Char) :
    matchesAt first text [.finish, .noBreak] = decide (text = []) := by
  cases text with
  | nil => rfl
  | cons c text =>
    by_cases hc : c = '\n'
    · subst hc
      cases text <;> simp [matchesAt]
    · simp [matchesAt, hc]

/-- The characters of a literal and the end marks match the literal alone. -/
theorem matchesAt_chars (first : Bool) (cs text : List Char) :
    matchesAt first text (cs.map .char ++ [.finish, .noBreak]) = decide (text = cs) := by
  induction cs generalizing first text with
  | nil => exact matchesAt_end first text
  | cons c cs ih =>
    cases text with
    | nil => rfl
    | cons d text =>
      have hcons : decide (d :: text = c :: cs) = (decide (c = d) && decide (text = cs)) := by
        simp [eq_comm]
      rw [List.map_cons, List.cons_append, matchesAt, ih, hcons]

/-- Behind its front nothing of a text matches a start mark. -/
theorem searchFrom_start_false (parts : List Part) (text : List Char) :
    searchFrom (.start :: parts) false text = false := by
  induction text with
  | nil => rfl
  | cons c text ih => rw [searchFrom, ih, matchesAt, Bool.false_and, Bool.or_false]

/-- Looking for what begins with a start mark is matching it at the front. -/
theorem searchFrom_start (parts : List Part) (text : List Char) :
    searchFrom (.start :: parts) true text = matchesAt true text parts := by
  cases text with
  | nil => rfl
  | cons c text =>
    rw [searchFrom, searchFrom_start_false, Bool.or_false, matchesAt, Bool.true_and]

/-- The pattern of a literal is found in the literal and nowhere else. -/
theorem search_exact (literal text : String) :
    search (exact literal) text = some (decide (text = literal)) := by
  rw [search, exact, String.toList_ofList, parts?_exactChars, Option.map_some, exactParts,
    searchFrom_start, matchesAt_chars]
  simp only [String.toList_inj]

end Pattern

/-! ## The documents of literals -/

namespace Draft04

/-- The members of the document of a rule for texts. -/
theorem member?_string (r : StringRule) :
    let document := typedDocument "string" r.keywords
    member? document .type = some (.text "string") ∧ member? document .pattern = r.pattern ∧
    member? document .minLength = r.minLength ∧ member? document .maxLength = r.maxLength ∧
    member? document .enum = r.allowed.map .listing := by
  cases hformat : r.format <;> cases hpattern : r.pattern <;> cases hleast : r.minLength <;>
    cases hmost : r.maxLength <;> cases hallowed : r.allowed <;>
    simp [member?, typedDocument, Value.record, StringRule.keywords, Keyword.member, Keyword.text,
      Entries.get?_cons, Value.text_beq_text, hformat, hpattern, hleast, hmost, hallowed]

section

variable {r : StringRule} (hleast : r.minLength = none) (hmost : r.maxLength = none)
include hleast hmost

/-- Without bounds and allowed values a rule accepts the texts that its pattern is found in. -/
theorem acceptsText_pattern {pattern : String} (hpattern : r.pattern = some (.text pattern))
    (hallowed : r.allowed = none) (text : String) :
    acceptsText (typedDocument "string" r.keywords) text = Pattern.search pattern text := by
  obtain ⟨htype, hpattern', hleast', hmost', hallowed'⟩ := member?_string r
  rw [acceptsText, patternHolds?, isForTexts, lengthHolds, lengthHolds, isAllowed, htype,
    hpattern', hleast', hmost', hallowed', hpattern, hleast, hmost, hallowed]
  simp

/-- Without bounds and a pattern a rule that allows one text accepts this text. -/
theorem acceptsText_enum {literal : String} (hpattern : r.pattern = none)
    (hallowed : r.allowed = some [.text literal]) (text : String) :
    acceptsText (typedDocument "string" r.keywords) text = some (decide (text = literal)) := by
  obtain ⟨htype, hpattern', hleast', hmost', hallowed'⟩ := member?_string r
  rw [acceptsText, patternHolds?, isForTexts, lengthHolds, lengthHolds, isAllowed, htype,
    hpattern', hleast', hmost', hallowed', hpattern, hleast, hmost, hallowed]
  simp [Value.listing, Value.text_beq_text, eq_comm]

end

end Draft04

/-- A rule for texts that was just made is written as its keywords. -/
theorem Store.document_alloc_string (s : Store) (rule : StringRule) (required : Value) :
    (s.alloc ⟨.string rule, required⟩).1.document (s.alloc ⟨.string rule, required⟩).2
      = .ok (typedDocument "string" rule.keywords) := by
  rw [document, documentWithin, get?_alloc_self]
  rfl

/-- The pattern of a literal is found in the literal and in no other text. So whichever of the two
ways a literal is compiled in, the document of its rule accepts the literal and no other text. -/
theorem Pattern.exact_literal (literal : String) :
    (∀ text, search (exact literal) text = some (decide (text = literal))) ∧
    ∀ call mode w, ∃ node w' document,
      Construction.compile call mode (.text literal) w = .ok node w' ∧
      w'.store.document node = .ok document ∧
      ∀ text, Draft04.acceptsText document text = some (decide (text = literal)) := by
  refine ⟨search_exact literal, fun call mode w => ?_⟩
  cases mode with
  | pattern =>
    refine ⟨_, _, _, rfl, Store.document_alloc_string w.store _ _, fun text => ?_⟩
    rw [Draft04.acceptsText_pattern rfl rfl rfl rfl, search_exact]
  | enum =>
    exact ⟨_, _, _, rfl, Store.document_alloc_string w.store _ _,
      Draft04.acceptsText_enum rfl rfl rfl rfl⟩

end DraftSchema
