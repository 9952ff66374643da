import DraftSchema.Json.Reader
import DraftSchema.Json.Writer
import Mathlib.Tactic.IntervalCases

/-!
# Texts in JSON texts

Every character is read back from what it is written as: itself, a mark after a backslash, or its code
in one or two parts. So a text is read back from its quotes on, with what follows it left over.
-/

namespace DraftSchema.Json

variable {rest : List Char} {n : Nat}

/-! ## Codes -/

theorem hexDigit?_digitChar (hn : n < 16) : hexDigit? (Nat.digitChar n) = some n := by
  interval_cases n <;> rfl

theorem hexValue?_append (acc : Nat) (cs ds : List Char) :
    hexValue? acc (cs ++ ds) = (hexValue? acc cs).bind fun n => hexValue? n ds := by
  induction cs generalizing acc with
  | nil => rfl
  | cons c cs ih =>
    rw [List.cons_append, hexValue?, hexValue?, Option.bind_assoc]
    exact congrArg _ (funext fun d => ih (16 * acc + d))

theorem hexValue?_zeros (n : Nat) : hexValue? 0 (List.replicate n '0') = some 0 := by
  induction n with
  | zero => rfl
  | succ n ih => exact ih

theorem hexValue?_toDigits (n : Nat) : hexValue? 0 (Nat.toDigits 16 n) = some n := by
  induction n using Nat.strong_induction_on with
  | h n ih =>
    have hlast : ∀ acc d, d < 16 → hexValue? acc [Nat.digitChar d] = some (16 * acc + d) :=
      fun acc d hd => by rw [hexValue?, hexDigit?_digitChar hd]; rfl
    rw [Nat.toDigits_eq_if (by decide)]
    split
    · rename_i hn
      rw [hlast 0 n hn, Nat.mul_zero, Nat.zero_add]
    · rename_i hn
      rw [hexValue?_append, ih (n / 16) (by omega), Option.bind_some,
        hlast _ _ (Nat.mod_lt n (by decide)), Nat.div_add_mod]

theorem hexValue?_hex (width n : Nat) : hexValue? 0 (Quoted.hex width n) = some n := by
  rw [Quoted.hex, hexValue?_append, hexValue?_zeros, Option.bind_some, hexValue?_toDigits]

theorem length_hex (hn : n < 0x10000) : (Quoted.hex 4 n).length = 4 := by
  have hlength : (Nat.toDigits 16 n).length ≤ 4 :=
    (Nat.length_toDigits_le_iff (by decide) (by decide)).mpr hn
  rw [Quoted.hex, List.length_append, List.length_replicate]
  omega

theorem unit?_hex (hn : n < 0x10000) (rest : List Char) :
    unit? (Quoted.hex 4 n ++ rest) = some (n, rest) := by
  have hlength := length_hex hn
  have hlong : ¬ (Quoted.hex 4 n ++ rest).length < 4 := by
    rw [List.length_append]
    omega
  rw [unit?, if_neg hlong, List.take_left' hlength, List.drop_left' hlength, hexValue?_hex]
  rfl

/-! ## Characters -/

theorem char?_unitChars (hn : n < 0x10000) (rest : List Char) :
    char? (unitChars n ++ rest)
      = if 0xd800 ≤ n ∧ n < 0xe000 then trailing? n rest else some (Char.ofNat n, rest) := by
  rw [unitChars, List.cons_append, List.cons_append, char?, unit?_hex hn]

theorem trailing?_unitChars {first : Nat} (hfirst : first < 0xdc00) (hlow : 0xdc00 ≤ n)
    (hhigh : n < 0xe000) (rest : List Char) :
    trailing? first (unitChars n ++ rest)
      = some (Char.ofNat (0x10000 + (first - 0xd800) * 0x400 + (n - 0xdc00)), rest) := by
  rw [unitChars, List.cons_append, List.cons_append, trailing?, unit?_hex (by omega)]
  exact if_pos ⟨hfirst, hlow, hhigh⟩

/-- A character is read from its code. -/
theorem char?_codeChars (c : Char) (rest : List Char) :
    char? (codeChars c.toNat ++ rest) = some (c, rest) := by
  have hvalid : c.toNat < 0xd800 ∨ 0xdfff < c.toNat ∧ c.toNat < 0x110000 := c.valid
  unfold codeChars
  split
  · rename_i hsmall
    rw [char?_unitChars hsmall, if_neg (by omega), Char.ofNat_toNat]
  · rename_i hlarge
    have hquot : (c.toNat - 0x10000) / 0x400 < 0x400 := by omega
    have hrem : (c.toNat - 0x10000) % 0x400 < 0x400 := Nat.mod_lt _ (by decide)
    have hcode : 0x10000 + (0xd800 + (c.toNat - 0x10000) / 0x400 - 0xd800) * 0x400
        + (0xdc00 + (c.toNat - 0x10000) % 0x400 - 0xdc00) = c.toNat := by omega
    rw [List.append_assoc, char?_unitChars (by omega), if_pos (by omega),
      trailing?_unitChars (by omega) (by omega) (by omega), hcode, Char.ofNat_toNat]

/-- A character is read from what it is written as. -/
theorem char?_append (c : Char) (rest : List Char) :
    char? (charChars c ++ rest) = some (c, rest) := by
  unfold charChars
  split_ifs with hquote hslash hn hr ht hb hf hplain
  · subst hquote; rfl
  · subst hslash; rfl
  · subst hn; rfl
  · subst hr; rfl
  · subst ht; rfl
  · subst hb; rfl
  · subst hf; rfl
  · -- a character that stands for itself
    have hself : ¬ (c = '"' ∨ c = '\\' ∨ c.toNat < 0x20) := by
      rintro (h | h | h)
      · exact hquote h
      · exact hslash h
      · omega
    rw [List.singleton_append, char?, if_neg hself]
    · exact fun _ h => absurd h hslash
    · exact fun _ _ h => absurd h hslash
  · exact char?_codeChars c rest

/-- No character is written as the quote that ends a text. -/
theorem head?_charChars (c : Char) (rest : List Char) : (charChars c ++ rest).head? ≠ some '"' := by
  have hcode : ∀ n, (codeChars n ++ rest).head? = some '\\' := fun n => by
    unfold codeChars
    split <;> rfl
  by_cases hquote : c = '"'
  · subst hquote
    simp [charChars]
  · unfold charChars
    rw [if_neg hquote]
    split_ifs <;> simp [hquote, hcode]

/-! ## Texts -/

/-- A text is read up to its closing quote. -/
theorem text?_append (cs : List Char) {fuel : Nat} (hfuel : cs.length < fuel) (rest : List Char) :
    text? fuel (cs.flatMap charChars ++ '"' :: rest) = some (cs, rest) := by
  induction cs generalizing fuel with
  | nil =>
    obtain ⟨k, rfl⟩ := Nat.exists_eq_succ_of_ne_zero (Nat.ne_zero_of_lt hfuel)
    rfl
  | cons c cs ih =>
    obtain ⟨k, rfl⟩ := Nat.exists_eq_succ_of_ne_zero (Nat.ne_zero_of_lt hfuel)
    rw [List.flatMap_cons, List.append_assoc, text?, if_neg (head?_charChars c _), char?_append]
    dsimp only
    rw [ih (Nat.lt_of_succ_lt_succ hfuel)]
    rfl

end DraftSchema.Json
