import DraftSchema.Proofs.JsonNumber
import DraftSchema.Proofs.JsonText
import DraftSchema.Proofs.Output
import DraftSchema.Proofs.Placement
import DraftSchema.Proofs.Shape

/-!
# Documents in JSON texts

A document of nothing but what JSON has is read back from its text, member by member in their order,
however the text is laid out with blanks. So documents whose texts are the same are the same.
-/

namespace DraftSchema

/-! ## JSON documents -/

/-- A document of what JSON has. Whole numbers have no more digits than can be written; members have
distinct texts for names. -/
inductive Value.IsJson : Value → Prop
  | null : IsJson .null
  | bool (b : Bool) : IsJson (.bool b)
  | int {n : Int} (written : n.natAbs < Whole.limit) : IsJson (.int n)
  | float {x : Binary64} (finite : x.isFinite = true) : IsJson (.float x)
  | text (s : String) : IsJson (.text s)
  | list {id : Nat} {xs : List Value} (elements : ∀ x ∈ xs, IsJson x) : IsJson (.list id xs)
  | dict {id : Nat} {es : List (String × Value)} (distinct : (Entries.keys es).Nodup)
      (members : ∀ e ∈ es, IsJson e.2) : IsJson (.dict id (es.map fun e => (.text e.1, e.2)))

namespace Value

mutual

/-- The same document in lists and mappings made on the spot. -/
def copy : Value → Value
  | .list _ xs => .listing (copyAll xs)
  | .dict _ es => .mapping (copyUnder es)
  | v => v

def copyAll : List Value → List Value
  | [] => []
  | x :: xs => x.copy :: copyAll xs

def copyUnder : List (Value × Value) → List (Value × Value)
  | [] => []
  | (k, x) :: es => (k, x.copy) :: copyUnder es

end

theorem copyUnder_texts (es : List (String × Value)) :
    copyUnder (es.map fun e => (.text e.1, e.2))
      = (es.map fun e => (e.1, e.2.copy)).map fun e => (.text e.1, e.2) := by
  induction es with
  | nil => rfl
  | cons e es ih => rw [List.map_cons, copyUnder, ih]; rfl

end Value

namespace Json

variable {α : Type} {layout : Layout} {f g : Value → String}

/-! ## Blanks -/

/-- A text of blanks alone. -/
def Blanks (cs : List Char) : Prop := ∀ c ∈ cs, isBlank c = true

theorem Blanks.flatten_replicate {cs : List Char} (h : Blanks cs) (n : Nat) :
    Blanks (List.replicate n cs).flatten := by
  intro c hc
  obtain ⟨ds, hds, hc⟩ := List.mem_flatten.mp hc
  exact h c (List.eq_of_mem_replicate hds ▸ hc)

/-- Blanks are left out up to what is none. -/
theorem skip_append {bs cs : List Char} (hb : Blanks bs) (hc : ∀ c ∈ cs.head?, isBlank c = false) :
    skip (bs ++ cs) = cs := by
  rw [skip, List.dropWhile_append_of_pos hb]
  cases cs with
  | nil => rfl
  | cons c cs => simp [hc c rfl]

theorem ends_append {bs cs : List Char} (hb : Blanks bs) (hc : Ends cs) : Ends (bs ++ cs) := by
  cases bs with
  | nil => exact hc
  | cons b bs =>
    intro c h
    cases h
    have hblank := hb b List.mem_cons_self
    unfold isBlank at hblank
    simp only [Bool.or_eq_true, decide_eq_true_eq] at hblank
    rcases hblank with ((rfl | rfl) | rfl) | rfl <;> decide

/-- A layout that indents with blanks, or not at all. -/
def Layout.Blank : Layout → Prop
  | .compact => True
  | .indented unit => Blanks unit

theorem blanks_newline (h : layout.Blank) (depth : Nat) : Blanks (newline layout depth) := by
  cases layout with
  | compact => exact fun c hc => absurd hc List.not_mem_nil
  | indented unit =>
    intro c hc
    rcases List.mem_cons.mp hc with rfl | hc
    · rfl
    · exact Blanks.flatten_replicate h depth c hc

theorem exists_gap (h : layout.Blank) (depth : Nat) :
    ∃ gap, separator layout depth = ',' :: gap ∧ Blanks gap := by
  cases layout with
  | compact => exact ⟨[' '], rfl, by simp [Blanks, isBlank]⟩
  | indented unit => exact ⟨_, rfl, blanks_newline h depth⟩

/-! ## Parts and sequences of parts -/

/-- A text that nothing is left out of, and that closes nothing. -/
def Starts (cs : List Char) : Prop :=
  ∃ c tail, cs = c :: tail ∧ isBlank c = false ∧ c ≠ ']' ∧ c ≠ '\x7d'

namespace Starts

variable {cs : List Char}

theorem append (h : Starts cs) (ds : List Char) : Starts (cs ++ ds) := by
  obtain ⟨c, tail, rfl, hc⟩ := h
  exact ⟨c, tail ++ ds, rfl, hc⟩

theorem head (h : Starts cs) : ∀ c ∈ cs.head?, isBlank c = false := by
  obtain ⟨c, tail, rfl, hc, -⟩ := h
  intro d hd
  cases hd
  exact hc

end Starts

/-- A text that something is read from, with what ends it left over. -/
def Reads (item? : Nat → List Char → Option (α × List Char)) (cs : List Char) (a : α) : Prop :=
  Starts cs ∧ ∀ fuel rest, cs.length ≤ fuel → Ends rest → item? fuel (cs ++ rest) = some (a, rest)

theorem Reads.of_succ {item? : Nat → List Char → Option (α × List Char)} {cs : List Char} {a : α}
    (hstarts : Starts cs) (h : ∀ fuel rest, cs.length ≤ fuel + 1 → Ends rest →
      item? (fuel + 1) (cs ++ rest) = some (a, rest)) : Reads item? cs a := by
  refine ⟨hstarts, fun fuel rest hfuel hrest => ?_⟩
  obtain ⟨c, tail, rfl, -⟩ := hstarts
  obtain ⟨k, rfl⟩ := Nat.exists_eq_succ_of_ne_zero (Nat.ne_zero_of_lt hfuel)
  exact h k rest hfuel hrest

/-- Parts with what stands between them. -/
def joined (sep : List Char) (parts : List (List Char)) : List Char := (parts.intersperse sep).flatten

theorem joined_singleton (sep cs : List Char) : joined sep [cs] = cs := by
  rw [joined, List.intersperse_singleton, List.flatten_singleton]

theorem joined_cons_cons (sep cs ds : List Char) (parts : List (List Char)) :
    joined sep (cs :: ds :: parts) = cs ++ (sep ++ joined sep (ds :: parts)) := by
  rw [joined, List.intersperse_cons_cons, List.flatten_cons, List.flatten_cons]
  rfl

theorem starts_joined {cs : List Char} (h : Starts cs) (sep : List Char)
    (parts : List (List Char)) : Starts (joined sep (cs :: parts)) := by
  cases parts with
  | nil => exact (joined_singleton sep cs).symm ▸ h
  | cons ds parts => exact joined_cons_cons sep cs ds parts ▸ h.append _

/-- Parts with commas between them, up to a last character. -/
def Sequence (item? : Nat → List Char → Option (α × List Char))
    (items? : Nat → List Char → Option (List α × List Char)) (last : Char) : Prop :=
  ∀ fuel cs, items? (fuel + 1) cs = (item? fuel cs).bind fun r =>
    if (skip r.2).head? = some last then some ([r.1], (skip r.2).tail)
    else if (skip r.2).head? = some ',' then
      (items? fuel (skip (skip r.2).tail)).map fun more => (r.1 :: more.1, more.2)
    else none

theorem sequence_elements : Sequence value? elements? ']' := by
  intro fuel cs
  rw [elements?]
  cases value? fuel cs <;> rfl

theorem sequence_members : Sequence member? members? '\x7d' := by
  intro fuel cs
  rw [members?]
  cases member? fuel cs <;> rfl

section
variable {item? : Nat → List Char → Option (α × List Char)}
  {items? : Nat → List Char → Option (List α × List Char)} {last : Char}

/-- A sequence is read part by part. -/
theorem items?_joined (hitems : Sequence item? items? last) {parts : List (List Char)} {as : List α}
    (hparts : List.Forall₂ (Reads item?) parts as) (hne : parts ≠ []) {gap bs : List Char}
    (hgap : Blanks gap) (hbs : Blanks bs) (hlast : last = ']' ∨ last = '\x7d')
    {fuel : Nat} (hfuel : (joined (',' :: gap) parts).length < fuel) (rest : List Char) :
    items? fuel (joined (',' :: gap) parts ++ (bs ++ last :: rest)) = some (as, rest) := by
  have hclose : isBlank last = false ∧ last ≠ ',' ∧ Ends (last :: rest) := by
    rcases hlast with rfl | rfl <;> refine ⟨rfl, by decide, fun c hc => ?_⟩ <;> cases hc <;> decide
  have hskip : skip (bs ++ last :: rest) = last :: rest :=
    skip_append hbs fun c hc => by cases hc; exact hclose.1
  -- a part uses up one unit of fuel, for which the comma after it makes up
  induction hparts generalizing fuel with
  | nil => exact absurd rfl hne
  | @cons cs a parts as hcs hparts ih =>
    obtain ⟨k, rfl⟩ := Nat.exists_eq_succ_of_ne_zero (Nat.ne_zero_of_lt hfuel)
    cases hparts with
    | nil =>
      rw [joined_singleton] at hfuel ⊢
      rw [hitems, hcs.2 k _ (Nat.le_of_lt_succ hfuel) (ends_append hbs hclose.2.2),
        Option.bind_some, hskip]
      exact if_pos rfl
    | @cons ds b parts as hds hparts =>
      rw [joined_cons_cons, List.length_append, List.length_append, List.length_cons] at hfuel
      have hlength : (joined (',' :: gap) (ds :: parts)).length < k := by omega
      have hmore := ih (List.cons_ne_nil _ _) hlength
      have htext : joined (',' :: gap) (cs :: ds :: parts) ++ (bs ++ last :: rest)
          = cs ++ ',' :: (gap ++ (joined (',' :: gap) (ds :: parts) ++ (bs ++ last :: rest))) := by
        rw [joined_cons_cons, List.append_assoc, List.append_assoc]
        rfl
      have hcomma : ∀ xs, Ends (',' :: xs) := fun xs c hc => by cases hc; decide
      have hnext : skip (gap ++ (joined (',' :: gap) (ds :: parts) ++ (bs ++ last :: rest)))
          = joined (',' :: gap) (ds :: parts) ++ (bs ++ last :: rest) :=
        skip_append hgap ((starts_joined hds.1 _ _).append _).head
      have hother : ¬ some ',' = some last := fun h => hclose.2.1 (Option.some.inj h).symm
      rw [htext, hitems, hcs.2 k _ (by omega) (hcomma _), Option.bind_some]
      dsimp only
      rw [show ∀ xs, skip (',' :: xs) = ',' :: xs from fun _ => rfl, List.head?_cons, List.tail_cons,
        if_neg hother, if_pos rfl, hnext, hmore]
      rfl

/-- What stands between brackets is read as a whole. -/
theorem reads_bracket (hitems : Sequence item? items? last) (hlast : last = ']' ∨ last = '\x7d')
    {first : Char} (hfirst : Starts [first]) (make : List α → Value)
    (hvalue : ∀ fuel rest, value? (fuel + 1) (first :: rest)
      = if (skip rest).head? = some last then some (make [], (skip rest).tail)
        else (items? fuel (skip rest)).map fun r => (make r.1, r.2))
    (hlayout : layout.Blank) (depth : Nat) {parts : List (List Char)} {as : List α}
    (hparts : List.Forall₂ (Reads item?) parts as) :
    Reads value? (bracket layout depth first last parts) (make as) := by
  unfold bracket
  cases hparts with
  | nil =>
    refine .of_succ (hfirst.append [last]) fun fuel rest _ _ => ?_
    have hskip : skip (last :: rest) = last :: rest := by
      rcases hlast with rfl | rfl <;> rfl
    exact (hvalue fuel (last :: rest)).trans (by rw [hskip]; exact if_pos rfl)
  | @cons cs a parts as hcs hparts =>
    obtain ⟨gap, hgap, hblanks⟩ := exists_gap hlayout depth
    have hhead : ∀ ds, (joined (',' :: gap) (cs :: parts) ++ ds).head? ≠ some last := by
      intro ds
      obtain ⟨c, tail, hc, -, hclose⟩ := (starts_joined hcs.1 (',' :: gap) parts).append ds
      rw [hc, List.head?_cons, ne_eq, Option.some.injEq]
      rcases hlast with rfl | rfl
      · exact hclose.1
      · exact hclose.2
    rw [if_neg (by simp), hgap, ← joined]
    refine .of_succ (hfirst.append _) fun fuel rest hfuel _ => ?_
    have hlength : (joined (',' :: gap) (cs :: parts)).length < fuel := by
      rw [List.length_cons, List.length_append, List.length_append, List.length_append,
        List.length_singleton] at hfuel
      omega
    have hread := items?_joined hitems (.cons hcs hparts) (List.cons_ne_nil _ _) hblanks
      (blanks_newline hlayout (depth - 1)) hlast hlength rest
    have hskip := skip_append (blanks_newline hlayout depth)
      ((starts_joined hcs.1 (',' :: gap) parts).append
        (newline layout (depth - 1) ++ last :: rest)).head
    rw [List.cons_append, hvalue, List.append_assoc, List.append_assoc, List.append_assoc,
      List.singleton_append, hskip, if_neg (hhead _), hread]
    rfl

end

/-! ## Numbers, words and texts -/

theorem head_of_number? {cs : List Char} {r : Value × List Char} (h : number? cs = some r) :
    ∃ c tail, cs = c :: tail ∧ (c.isDigit = true ∨ c = '-') := by
  cases cs with
  | nil => cases h
  | cons c tail =>
    refine ⟨c, tail, rfl, ?_⟩
    by_contra hc
    rw [not_or, Bool.not_eq_true] at hc
    have hdigits : wholeDigits? (c :: tail) = none := by
      rw [wholeDigits?, spanDigits, List.takeWhile_cons, if_neg (by simp [hc.1])]
      rfl
    have hsign : ¬ (c :: tail).head? = some '-' := fun h => hc.2 (Option.some.inj h)
    rw [number?, if_neg hsign] at h
    simp [hdigits] at h

theorem reads_number {cs : List Char} {v : Value}
    (h : ∀ rest, Ends rest → number? (cs ++ rest) = some (v, rest)) : Reads value? cs v := by
  have hnone : Ends [] := fun c hc => by cases hc
  obtain ⟨c, tail, htail, hc⟩ := head_of_number? (h [] hnone)
  rw [List.append_nil] at htail
  subst htail
  have hother : ∀ d : Char, d.isDigit = false → d ≠ '-' → c ≠ d := by
    rintro d hd hminus rfl
    rcases hc with hc | hc
    · rw [hd] at hc
      cases hc
    · exact hminus hc
  refine .of_succ ⟨c, tail, rfl, ?_, hother _ rfl (by decide), hother _ rfl (by decide)⟩
    fun fuel rest _ hrest => ?_
  · simp [isBlank, hother]
  · rw [← h rest hrest, List.cons_append, value?]
    simp [hother]

theorem reads_null : Reads value? nullChars .null :=
  .of_succ ⟨'n', _, rfl, rfl, by decide, by decide⟩ fun _ _ _ _ => rfl

theorem reads_bool (b : Bool) : Reads value? (boolChars b) (.bool b) := by
  cases b with
  | false => exact .of_succ ⟨'f', _, rfl, rfl, by decide, by decide⟩ fun _ _ _ _ => rfl
  | true => exact .of_succ ⟨'t', _, rfl, rfl, by decide, by decide⟩ fun _ _ _ _ => rfl

theorem length_le_flatMap (cs : List Char) : cs.length ≤ (cs.flatMap charChars).length := by
  induction cs with
  | nil => exact Nat.le_refl _
  | cons c cs ih =>
    have hpos : charChars c ≠ [] := fun h => by
      have hread := char?_append c []
      rw [h] at hread
      cases hread
    have hlength := List.length_pos_iff.mpr hpos
    rw [List.flatMap_cons, List.length_append, List.length_cons]
    omega

/-- A text is read up to its closing quote, with no more fuel than it is long. -/
theorem text?_textChars (s : String) {fuel : Nat} (hfuel : (textChars s).length ≤ fuel + 1)
    (rest : List Char) : text? fuel ((textChars s).tail ++ rest) = some (s.toList, rest) := by
  have hlength := length_le_flatMap s.toList
  rw [textChars, List.length_cons, List.length_append] at hfuel
  rw [textChars, List.tail_cons, List.append_assoc]
  exact text?_append s.toList (by simp only [List.length_singleton] at hfuel; omega) rest

theorem starts_textChars (s : String) : Starts (textChars s) :=
  ⟨'"', _, rfl, rfl, by decide, by decide⟩

theorem reads_text (s : String) : Reads value? (textChars s) (.text s) := by
  refine .of_succ (starts_textChars s) fun fuel rest hfuel _ => ?_
  have hread := text?_textChars s hfuel rest
  have hvalue : value? (fuel + 1) (textChars s ++ rest)
      = (text? fuel ((textChars s).tail ++ rest)).map fun r => (.text (String.ofList r.1), r.2) := by
    rw [textChars, List.cons_append, value?]
    exact if_pos rfl
  rw [hvalue, hread, Option.map_some, String.ofList_toList]

theorem reads_member (name : String) {part : List Char} {v : Value} (h : Reads value? part v) :
    Reads member? (textChars name ++ ':' :: ' ' :: part) (.text name, v) := by
  refine .of_succ ((starts_textChars name).append _) fun fuel rest hfuel hrest => ?_
  rw [List.length_append, List.length_cons, List.length_cons] at hfuel
  have hlength : (textChars name).length ≤ fuel + 1 := by omega
  have hname := text?_textChars name hlength (':' :: ' ' :: part ++ rest)
  have hblank : Blanks [' '] := by simp [Blanks, isBlank]
  have hskip : skip (' ' :: part ++ rest) = part ++ rest := skip_append hblank (h.1.append rest).head
  have hmember : member? (fuel + 1) (textChars name ++ (':' :: ' ' :: part ++ rest))
      = (text? fuel ((textChars name).tail ++ (':' :: ' ' :: part ++ rest))).bind fun r =>
          if (skip r.2).head? = some ':' then
            (value? fuel (skip (skip r.2).tail)).map fun x => ((.text (String.ofList r.1), x.1), x.2)
          else none := by
    rw [textChars, List.cons_append, member?, List.head?_cons, if_pos rfl, List.tail_cons,
      List.tail_cons]
    cases text? fuel _ <;> rfl
  have hcolon : ∀ cs, skip (':' :: cs) = ':' :: cs := fun _ => rfl
  rw [List.append_assoc, hmember, hname, Option.bind_some]
  dsimp only
  rw [List.cons_append, hcolon, List.head?_cons, if_pos rfl, List.tail_cons, hskip,
    h.2 fuel rest (by omega) hrest, Option.map_some, String.ofList_toList]

/-! ## Documents -/

theorem elementChars_reads (f : Value → String) (layout : Layout) (depth : Nat) {xs : List Value}
    (h : ∀ x ∈ xs, ∃ cs, chars f layout depth x = .ok cs ∧ Reads value? cs x.copy) :
    ∃ parts, elementChars f layout depth xs = .ok parts ∧
      List.Forall₂ (Reads value?) parts (Value.copyAll xs) := by
  induction xs with
  | nil => exact ⟨[], rfl, .nil⟩
  | cons x xs ih =>
    obtain ⟨cs, hcs, hread⟩ := h x List.mem_cons_self
    obtain ⟨parts, hparts, hreads⟩ := ih fun y hy => h y (List.mem_cons_of_mem x hy)
    refine ⟨cs :: parts, ?_, .cons hread hreads⟩
    rw [elementChars, hcs, hparts]
    rfl

theorem memberChars_reads (f : Value → String) (layout : Layout) (depth : Nat)
    {es : List (String × Value)}
    (h : ∀ e ∈ es, ∃ cs, chars f layout depth e.2 = .ok cs ∧ Reads value? cs e.2.copy) :
    ∃ parts, memberChars f layout depth (es.map fun e => (.text e.1, e.2)) = .ok parts ∧
      List.Forall₂ (Reads member?) parts (Value.copyUnder (es.map fun e => (.text e.1, e.2))) := by
  induction es with
  | nil => exact ⟨[], rfl, .nil⟩
  | cons e es ih =>
    obtain ⟨cs, hcs, hread⟩ := h e List.mem_cons_self
    obtain ⟨parts, hparts, hreads⟩ := ih fun y hy => h y (List.mem_cons_of_mem e hy)
    refine ⟨(textChars e.1 ++ ':' :: ' ' :: cs) :: parts, ?_, .cons (reads_member e.1 hread) hreads⟩
    rw [List.map_cons, memberChars, nameChars, hcs, hparts]
    rfl

/-- Members with distinct names stay as they are when they are put under their names. -/
theorem ofList_copyUnder {es : List (String × Value)} (h : (Entries.keys es).Nodup) :
    Entries.ofList (Value.copyUnder (es.map fun e => (.text e.1, e.2)))
      = Value.copyUnder (es.map fun e => (.text e.1, e.2)) := by
  have hkeys : Entries.keys (es.map fun e => (e.1, e.2.copy)) = Entries.keys es := by
    simp [Entries.keys]
  rw [Value.copyUnder_texts]
  exact foldl_set_texts _ [] (by rw [hkeys]; exact h)

/-- A JSON document is written, and read back from its text. -/
theorem reads_chars {v : Value} (h : v.IsJson) (f : Value → String) (hlayout : layout.Blank)
    (depth : Nat) : ∃ cs, chars f layout depth v = .ok cs ∧ Reads value? cs v.copy := by
  induction h generalizing depth with
  | null => exact ⟨_, rfl, reads_null⟩
  | bool b => exact ⟨_, rfl, reads_bool b⟩
  | @int n written =>
    exact ⟨_, Whole.chars_eq_ok_iff.mpr ⟨written, rfl⟩, reads_number fun _ => number?_digits n⟩
  | @float x finite =>
    cases x with
    | nan payload => cases finite
    | infinity negative => cases finite
    | finite negative m e fits => exact ⟨_, rfl, reads_number fun _ => number?_finiteChars fits⟩
  | text s => exact ⟨_, rfl, reads_text s⟩
  | @list id xs _ ih =>
    obtain ⟨parts, hparts, hreads⟩ := elementChars_reads f layout (depth + 1)
      fun x hx => ih x hx (depth + 1)
    refine ⟨bracket layout (depth + 1) '[' ']' parts, ?_, ?_⟩
    · rw [chars, hparts]
      rfl
    · exact reads_bracket sequence_elements (.inl rfl) ⟨'[', [], rfl, rfl, by decide, by decide⟩
        .listing (fun _ _ => rfl) hlayout (depth + 1) hreads
  | @dict id es distinct _ ih =>
    obtain ⟨parts, hparts, hreads⟩ := memberChars_reads f layout (depth + 1)
      fun e he => ih e he (depth + 1)
    refine ⟨bracket layout (depth + 1) '\x7b' '\x7d' parts, ?_, ?_⟩
    · rw [chars, hparts]
      rfl
    · rw [Value.copy, ← ofList_copyUnder distinct]
      exact reads_bracket sequence_members (.inr rfl) ⟨'\x7b', [], rfl, rfl, by decide, by decide⟩
        (fun es => .mapping (Entries.ofList es)) (fun _ _ => rfl) hlayout (depth + 1) hreads

/-- A JSON document is read back from its text. -/
theorem read?_write {v : Value} (h : v.IsJson) (f : Value → String) (hlayout : layout.Blank) :
    ∃ text, write f layout v = .ok text ∧ read? text = some v.copy := by
  obtain ⟨cs, hcs, hstarts, hread⟩ := reads_chars h f hlayout 0
  refine ⟨String.ofList cs, by rw [write, hcs]; rfl, ?_⟩
  have hskip : skip cs = cs := skip_append (fun _ h => absurd h List.not_mem_nil) hstarts.head
  have hvalue := hread (3 * cs.length + 3) [] (by omega) fun c hc => by cases hc
  rw [List.append_nil] at hvalue
  rw [read?, String.toList_ofList, hskip, hvalue]
  rfl

theorem elementChars_copy (depth : Nat) {xs : List Value}
    (h : ∀ x ∈ xs, chars f layout depth x = chars g layout depth x.copy) :
    elementChars f layout depth xs = elementChars g layout depth (Value.copyAll xs) := by
  induction xs with
  | nil => rfl
  | cons x xs ih =>
    rw [Value.copyAll, elementChars, elementChars, h x List.mem_cons_self,
      ih fun y hy => h y (List.mem_cons_of_mem x hy)]

theorem memberChars_copy (depth : Nat) {es : List (String × Value)}
    (h : ∀ e ∈ es, chars f layout depth e.2 = chars g layout depth e.2.copy) :
    memberChars f layout depth (es.map fun e => (.text e.1, e.2))
      = memberChars g layout depth (Value.copyUnder (es.map fun e => (.text e.1, e.2))) := by
  induction es with
  | nil => rfl
  | cons e es ih =>
    rw [List.map_cons, Value.copyUnder, memberChars, memberChars, nameChars, nameChars,
      h e List.mem_cons_self, ih fun y hy => h y (List.mem_cons_of_mem e hy)]

/-- The text of a document does not tell which lists and mappings it is made of. -/
theorem chars_copy {v : Value} (h : v.IsJson) (depth : Nat) :
    chars f layout depth v = chars g layout depth v.copy := by
  induction h generalizing depth with
  | null | bool | int | float | text => simp only [Value.copy, chars]
  | list _ ih =>
    rw [Value.copy, Value.listing, chars, chars, elementChars_copy (depth + 1) fun x hx => ih x hx _]
  | dict _ _ ih =>
    rw [Value.copy, Value.mapping, chars, chars, memberChars_copy (depth + 1) fun e he => ih e he _]

/-- The text of a document does not tell which lists and mappings it is made of. -/
theorem write_copy {v : Value} (h : v.IsJson) : write f layout v = write g layout v.copy := by
  rw [write, write, chars_copy h]

/-- Documents have the same text exactly when they are the same, but for the lists and mappings that
they are made of. -/
theorem write_eq_iff {v v' : Value} (h : v.IsJson) (h' : v'.IsJson) (hlayout : layout.Blank) :
    write f layout v = write g layout v' ↔ v.copy = v'.copy := by
  constructor
  · intro hsame
    obtain ⟨text, htext, hread⟩ := read?_write h f hlayout
    obtain ⟨text', htext', hread'⟩ := read?_write h' g hlayout
    rw [htext, htext'] at hsame
    cases hsame
    exact Option.some.inj (hread.symm.trans hread')
  · intro hsame
    have hcopy : write f layout v = write g layout v.copy := write_copy h
    rw [hcopy, hsame]
    exact (write_copy h').symm

/-- The layouts that are asked for by nothing or by a width that there is room for. -/
theorem ofIndent_blank {indent : Value}
    (h : indent = .null ∨ ∃ n : Int, indent.toInt? = some n ∧ 0 ≤ n ∧ n ≤ roomLimit) :
    ∃ layout, layout.Blank ∧ ∀ kindName, Layout.ofIndent kindName indent = .ok layout := by
  rcases h with rfl | ⟨n, hn, hlow, hhigh⟩
  · exact ⟨.compact, trivial, fun _ => rfl⟩
  · have hspaces : Blanks (List.replicate n.toNat ' ') := fun c hc => by
      rw [List.eq_of_mem_replicate hc]
      rfl
    have hroom : (roomLimit : Int) < widthLimit := by decide
    refine ⟨.indented (List.replicate n.toNat ' '), hspaces, fun kindName => ?_⟩
    unfold Layout.ofIndent
    split
    · cases hn
    · cases hn
    · rw [hn]
      dsimp only
      rw [if_neg (by omega), if_neg (by omega)]

end Json

/-! ## Builders -/

namespace Builder

open Build

/-- The JSON text of a builder is read back to the document it gives, in the order of its members.
Two builders have the same text exactly when they give the same document. -/
theorem json_read {id id' : NodeId} {w w₁ w' w₁' : Workspace} {d d' indent : Value}
    (hd : build id w = .ok d w₁) (hjson : d.IsJson) (hd' : build id' w' = .ok d' w₁')
    (hjson' : d'.IsJson)
    (hindent : indent = .null ∨ ∃ n : Int, indent.toInt? = some n ∧ 0 ≤ n ∧ n ≤ Json.roomLimit) :
    (∃ text w₂, json id indent w = .ok text w₂ ∧ Json.read? text = some d.copy) ∧
      ((json id indent).result w = (json id' indent).result w' ↔ d.copy = d'.copy) := by
  obtain ⟨layout, hlayout, hof⟩ := Json.ofIndent_blank hindent
  have hresult : ∀ {id w d w₁}, build id w = .ok d w₁ →
      (json id indent).result w = Json.write w.store.typeName layout d := fun h => by
    rw [result_json, result, h, hof]
    rfl
  constructor
  · obtain ⟨text, htext, hread⟩ := Json.read?_write hjson w.store.typeName hlayout
    exact ⟨text, _, ok_of_result ((hresult hd).trans htext), hread⟩
  · rw [hresult hd, hresult hd']
    exact Json.write_eq_iff hjson hjson' hlayout

/-- The number one half. -/
def half : Binary64 := .finite false (Nat.pow 2 52) (-53) (by decide)

/-- A builder with a rule under a name that is written by codes, and one without rules. -/
theorem json_read_name :
    ∃ w w₁ w₁' w₂ d d' text, add Build.call 0 (.list 0 [.text "größe"]) (.float half) alone = .ok () w ∧
      build 0 w = .ok d w₁ ∧ build 0 alone = .ok d' w₁' ∧
      json 0 (.int 2) w = .ok text w₂ ∧ Json.read? text = some d.copy ∧
      ((json 0 (.int 2)).result w = (json 0 (.int 2)).result alone ↔ d.copy = d'.copy) := by
  let property : Value := .record [("type", .text "number"), ("minimum", .float half),
    ("maximum", .float half)]
  obtain ⟨w, w₁, w₁', hadd, hbuild, hbuild'⟩ : ∃ w w₁ w₁',
      add Build.call 0 (.list 0 [.text "größe"]) (.float half) alone = .ok () w ∧
      build 0 w = .ok (.record [("$schema", .text draft04), ("type", .text "object"),
        ("properties", .record [("größe", property)]), ("required", .listing [.text "größe"])]) w₁ ∧
      build 0 alone = .ok (.record [("$schema", .text draft04), ("type", .text "object"),
        ("properties", .record [])]) w₁' :=
    ⟨_, _, _, rfl, rfl, rfl⟩
  have hproperty : property.IsJson := .dict (by decide) (by
    simp only [List.forall_mem_cons, List.not_mem_nil, false_imp_iff, implies_true, and_true]
    exact ⟨.text _, .float rfl, .float rfl⟩)
  have hdocument : Value.IsJson (.record [("$schema", .text draft04), ("type", .text "object"),
      ("properties", .record [("größe", property)]), ("required", .listing [.text "größe"])]) :=
    .dict (by decide) (by
      simp only [List.forall_mem_cons, List.not_mem_nil, false_imp_iff, implies_true, and_true]
      refine ⟨.text _, .text _, .dict (by decide) ?_, .list ?_⟩
      · simpa using hproperty
      · simpa using Value.IsJson.text "größe")
  have hempty : Value.IsJson (.record [("$schema", .text draft04), ("type", .text "object"),
      ("properties", .record [])]) :=
    .dict (by decide) (by
      simp only [List.forall_mem_cons, List.not_mem_nil, false_imp_iff, implies_true, and_true]
      exact ⟨.text _, .text _, .dict (by decide) (by simp)⟩)
  have hindent : ∃ n : Int, (Value.int 2).toInt? = some n ∧ 0 ≤ n ∧ n ≤ Json.roomLimit :=
    ⟨2, rfl, by decide, by decide⟩
  obtain ⟨⟨text, w₂, hjson, hread⟩, hiff⟩ := json_read hbuild hdocument hbuild' hempty (.inr hindent)
  exact ⟨w, w₁, w₁', w₂, _, _, text, hadd, hbuild, hbuild', hjson, hread, hiff⟩

/-- `x >= n`. -/
def atLeast (n : Int) : Value := .function 0 (.compare .ge .arg (.const (.int n)))

/-- Whole numbers with more digits than can be written are in the way of a text, and so are widths that
there is no room for. -/
theorem json_unwritten :
    (json 0 (.int Json.widthLimit)).result alone = .error .countTooLarge ∧
    (json 0 (.int (Json.roomLimit + 1))).result alone = .error .outOfMemory ∧
    ∃ w₁ w₂ w₃,
      Construction.construct Build.call .anyOf [(.schemas, .list 0 [atLeast Whole.limit])] alone
        = .ok 2 w₁ ∧
      add Build.call 0 (.list 0 [.text "x"]) (.node 2) w₁ = .ok () w₂ ∧
      build 0 w₂ = .ok (.record [("$schema", .text draft04), ("type", .text "object"),
        ("properties", .mapping [(.text "x", .record [("anyOf", .listing
          [.record [("type", .text "number"), ("minimum", .int Whole.limit)]])])]),
        ("required", .listing [.text "x"])]) w₃ ∧
      (json 0 .null).result w₂ = .error (.tooManyDigits Whole.digitLimit none) := by
  have hchars : Whole.chars Whole.limit = .error (.tooManyDigits Whole.digitLimit none) :=
    if_neg (by rw [Int.natAbs_natCast]; exact Nat.lt_irrefl _)
  -- nothing else is asked about the number
  generalize (Whole.limit : Int) = n at hchars ⊢
  obtain ⟨w₁, w₂, w₃, hmake, hadd, hbuild⟩ : ∃ w₁ w₂ w₃,
      Construction.construct Build.call .anyOf [(.schemas, .list 0 [atLeast n])] alone = .ok 2 w₁ ∧
      add Build.call 0 (.list 0 [.text "x"]) (.node 2) w₁ = .ok () w₂ ∧
      build 0 w₂ = .ok (.record [("$schema", .text draft04), ("type", .text "object"),
        ("properties", .mapping [(.text "x", .record [("anyOf", .listing
          [.record [("type", .text "number"), ("minimum", .int n)]])])]),
        ("required", .listing [.text "x"])]) w₃ :=
    ⟨_, _, _, rfl, rfl, rfl⟩
  refine ⟨rfl, rfl, w₁, w₂, w₃, hmake, hadd, hbuild, ?_⟩
  rw [result_json, result, hbuild]
  simp only [bind, Except.bind, Value.record, Value.mapping, Value.listing, Json.Layout.ofIndent,
    Json.write, Json.chars, Json.memberChars, Json.elementChars, Json.nameChars, List.map_cons,
    List.map_nil, hchars]
  rfl

end Builder

end DraftSchema
