/-!
Pointers into a document after RFC 6901: each name follows a slash, with `~` written `~0` and `/`
written `~1`. Main statement: `decode?` gives back the names that `encode` was given.
-/
namespace DraftSchema.Pointer

/-! ## Writing -/

/-- One character of a name inside a pointer. -/
def escapeChar (c : Char) : List Char :=
  if c = '~' then ['~', '0'] else if c = '/' then ['~', '1'] else [c]

/-- A name inside a pointer. -/
def escapeChars (cs : List Char) : List Char := cs.flatMap escapeChar

def escape (name : String) : String := String.ofList (escapeChars name.toList)

/-- The characters of the pointer to a path of names. -/
def encodeChars : List (List Char) → List Char
  | [] => []
  | name :: rest => '/' :: (escapeChars name ++ encodeChars rest)

/-- The pointer to a path of names; the empty path is the empty text. -/
def encode (path : List String) : String := String.ofList (encodeChars (path.map String.toList))

/-! ## Reading -/

/-- A text with `~` and the given digit replaced by one character. -/
def replaceMark (digit by' : Char) : List Char → List Char
  | [] => []
  | [c] => [c]
  | c :: d :: rest =>
    if c = '~' ∧ d = digit then by' :: replaceMark digit by' rest
    else c :: replaceMark digit by' (d :: rest)

/-- The name that a part of a pointer stands for: slashes are put back first, so that a tilde put
back is not read again. -/
def unescapeChars (cs : List Char) : List Char :=
  replaceMark '0' '~' (replaceMark '1' '/' cs)

/-- The parts of a text between slashes. -/
def parts : List Char → List (List Char)
  | [] => [[]]
  | c :: rest =>
    if c = '/' then [] :: parts rest
    else
      match parts rest with
      | [] => [[c]]
      | p :: ps => (c :: p) :: ps

/-- The names of the path that a pointer leads along, unless it starts otherwise than by a slash. -/
def decodeChars? : List Char → Option (List (List Char))
  | [] => some []
  | c :: rest => if c = '/' then some ((parts rest).map unescapeChars) else none

/-- The path that a pointer leads along. -/
def decode? (pointer : String) : Option (List String) :=
  (decodeChars? pointer.toList).map fun path => path.map String.ofList

/-! ## Reading what was written -/

theorem escapeChars_cons (c : Char) (cs : List Char) :
    escapeChars (c :: cs) = escapeChar c ++ escapeChars cs := rfl

/-- No part of a pointer holds a bare slash. -/
theorem slash_not_mem_escapeChars (cs : List Char) : '/' ∉ escapeChars cs := by
  intro h
  obtain ⟨c, -, hc⟩ := List.mem_flatMap.mp h
  unfold escapeChar at hc
  split at hc
  · simp at hc
  · split at hc
    · simp at hc
    · rename_i hs
      exact hs (List.mem_singleton.mp hc).symm

/-- What follows an escaped character is no digit that belongs to it, so that reading goes on
behind it. -/
theorem replaceMark_cons_ne {digit by' c : Char} (h : c ≠ '~') (rest : List Char) :
    replaceMark digit by' (c :: rest) = c :: replaceMark digit by' rest := by
  cases rest with
  | nil => rfl
  | cons d rest => simp [replaceMark, h]

/-- Putting the slashes back leaves tildes escaped. -/
theorem replaceMark_escapeChars (cs : List Char) :
    replaceMark '1' '/' (escapeChars cs)
      = cs.flatMap fun c => if c = '~' then ['~', '0'] else [c] := by
  induction cs with
  | nil => rfl
  | cons c cs ih =>
    rw [escapeChars_cons, List.flatMap_cons, ← ih]
    unfold escapeChar
    split
    · simp [replaceMark, replaceMark_cons_ne]
    · split
      · rename_i hs
        subst hs
        simp [replaceMark]
      · rename_i hn _
        exact replaceMark_cons_ne hn _

theorem unescapeChars_escapeChars (cs : List Char) : unescapeChars (escapeChars cs) = cs := by
  rw [unescapeChars, replaceMark_escapeChars]
  induction cs with
  | nil => rfl
  | cons c cs ih =>
    rw [List.flatMap_cons]
    split
    · rename_i hc
      subst hc
      simpa [replaceMark] using ih
    · rename_i hc
      rw [List.singleton_append, replaceMark_cons_ne hc, ih]

theorem parts_of_no_slash {cs : List Char} (h : '/' ∉ cs) : parts cs = [cs] := by
  induction cs with
  | nil => rfl
  | cons c cs ih =>
    simp only [List.mem_cons, not_or] at h
    simp [parts, Ne.symm h.1, ih h.2]

theorem parts_append_slash {cs : List Char} (h : '/' ∉ cs) (rest : List Char) :
    parts (cs ++ '/' :: rest) = cs :: parts rest := by
  induction cs with
  | nil => simp [parts]
  | cons c cs ih =>
    simp only [List.mem_cons, not_or] at h
    simp [parts, Ne.symm h.1, ih h.2]

theorem parts_encodeChars (name : List Char) (path : List (List Char)) :
    parts (escapeChars name ++ encodeChars path) = escapeChars name :: path.map escapeChars := by
  induction path generalizing name with
  | nil => simpa [encodeChars] using parts_of_no_slash (slash_not_mem_escapeChars name)
  | cons next path ih =>
    rw [encodeChars, parts_append_slash (slash_not_mem_escapeChars name), ih, List.map_cons]

theorem decodeChars?_encodeChars (path : List (List Char)) :
    decodeChars? (encodeChars path) = some path := by
  cases path with
  | nil => rfl
  | cons name path =>
    simp [encodeChars, decodeChars?, parts_encodeChars, unescapeChars_escapeChars, Function.comp_def]

/-- Reading a pointer gives back the path it was written for. -/
theorem decode?_encode (path : List String) : decode? (encode path) = some path := by
  simp [decode?, encode, decodeChars?_encodeChars, Function.comp_def]

end DraftSchema.Pointer
