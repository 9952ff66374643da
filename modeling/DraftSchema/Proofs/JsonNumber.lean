import DraftSchema.Json.Reader
import DraftSchema.Json.Writer
import DraftSchema.Proofs.Rounding
import Mathlib.Data.List.DropRight

/-!
# Numbers in JSON texts

A number is written as digits, with a fraction and a power of ten where it is no whole one, and read
from these parts again. What is left of the text is known from its first character: none that a number
would go on with.
-/

namespace DraftSchema.Json

variable {ds rest : List Char}

/-! ## Digits -/

theorem spanDigits_append (hds : ∀ c ∈ ds, c.isDigit = true)
    (hrest : ∀ c ∈ rest.head?, c.isDigit = false) : spanDigits (ds ++ rest) = (ds, rest) := by
  have htake : rest.takeWhile Char.isDigit = [] ∧ rest.dropWhile Char.isDigit = rest := by
    cases rest with
    | nil => exact ⟨rfl, rfl⟩
    | cons c cs => simp [hrest c rfl]
  rw [spanDigits, List.takeWhile_append_of_pos hds, List.dropWhile_append_of_pos hds, htake.1, htake.2,
    List.append_nil]

theorem digitsValue_toDigits (n : Nat) : digitsValue (Nat.toDigits 10 n) = n :=
  Nat.ofDigitChars_toDigits (by decide) (by decide)

theorem digitsValue_append_zeros (ds : List Char) (n : Nat) :
    digitsValue (ds ++ List.replicate n '0') = digitsValue ds * 10 ^ n := by
  rw [digitsValue, Nat.ofDigitChars_append, Nat.ofDigitChars_replicate_zero, Nat.mul_comm]
  rfl

theorem digitsValue_zeros_append (n : Nat) (ds : List Char) :
    digitsValue (List.replicate n '0' ++ ds) = digitsValue ds := by
  rw [digitsValue, Nat.ofDigitChars_append, Nat.ofDigitChars_replicate_zero, Nat.mul_zero]
  rfl

theorem isDigit_toDigits (n : Nat) : ∀ c ∈ Nat.toDigits 10 n, c.isDigit = true :=
  fun _ h => Nat.isDigit_of_mem_toDigits (by decide) (by decide) h

theorem isDigit_zeros (n : Nat) : ∀ c ∈ List.replicate n '0', c.isDigit = true :=
  fun _ h => List.eq_of_mem_replicate h ▸ rfl

/-- No other number than zero is written with a leading zero. -/
theorem head?_toDigits {n : Nat} (hn : n ≠ 0) : (Nat.toDigits 10 n).head? ≠ some '0' := by
  induction n using Nat.strong_induction_on with
  | h n ih =>
    rw [Nat.toDigits_eq_if (by decide)]
    split
    · intro hzero
      exact hn (Nat.digitChar_eq_zero.mp (Option.some.inj hzero))
    · rename_i hlarge
      rw [List.head?_append_of_ne_nil _ Nat.toDigits_ne_nil]
      exact ih (n / 10) (by omega) (by omega)

/-! ## The parts of a number -/

/-- The parts of a number as it is written: the digits before and after the point, and the sign and the
digits of a power of ten. -/
structure NumberParts where
  whole : List Char
  fraction : List Char
  power : Option (Bool × List Char)

namespace NumberParts

variable {p : NumberParts}

/-- The digits after the point, with the point. -/
def fractionChars (p : NumberParts) : List Char :=
  if p.fraction.isEmpty then [] else '.' :: p.fraction

/-- The power of ten, with its mark. -/
def powerChars (p : NumberParts) : List Char :=
  match p.power with
  | none => []
  | some (negative, ds) => 'e' :: (if negative then '-' else '+') :: ds

/-- The number as it is written. -/
def chars (p : NumberParts) : List Char := p.whole ++ (p.fractionChars ++ p.powerChars)

/-- The power of ten as a number. -/
def exponent? (p : NumberParts) : Option Int :=
  p.power.map fun e => if e.1 then -(digitsValue e.2 : Int) else digitsValue e.2

/-- The numeral that the parts make. -/
def numeral (p : NumberParts) : Decimal.Numeral :=
  { digits := digitsValue (p.whole ++ p.fraction), exponent := p.exponent?.getD 0 - p.fraction.length }

/-- Parts as JSON has them. -/
structure WellFormed (p : NumberParts) : Prop where
  whole : ∀ c ∈ p.whole, c.isDigit = true
  present : p.whole ≠ []
  lead : p.whole.head? = some '0' → p.whole = ['0']
  fraction : ∀ c ∈ p.fraction, c.isDigit = true
  power : ∀ e ∈ p.power, e.2 ≠ [] ∧ ∀ c ∈ e.2, c.isDigit = true

end NumberParts

/-- A text that no number goes on with. -/
def Ends (rest : List Char) : Prop :=
  ∀ c ∈ rest.head?, c.isDigit = false ∧ c ≠ '.' ∧ c ≠ 'e' ∧ c ≠ 'E'

variable {p : NumberParts}

theorem power?_append (h : p.WellFormed) (hrest : Ends rest) :
    power? (p.powerChars ++ rest) = some (p.exponent?, rest) := by
  have hdigit : ∀ c ∈ rest.head?, c.isDigit = false := fun c hc => (hrest c hc).1
  unfold NumberParts.powerChars NumberParts.exponent?
  cases hpower : p.power with
  | none =>
    have hmark : ¬ (rest.head? = some 'e' ∨ rest.head? = some 'E') := fun hmark =>
      hmark.elim (fun he => (hrest _ he).2.2.1 rfl) fun he => (hrest _ he).2.2.2 rfl
    rw [power?, List.nil_append, if_neg hmark]
    rfl
  | some e =>
    obtain ⟨negative, ds⟩ := e
    obtain ⟨hne, hds⟩ := h.power _ hpower
    have hsign : Decimal.sign ((if negative then '-' else '+') :: (ds ++ rest))
        = (negative, ds ++ rest) := by
      cases negative <;> rfl
    have hempty : ds.isEmpty = false := List.isEmpty_eq_false_iff.mpr hne
    simp [power?, hsign, spanDigits_append hds hdigit, hempty]

theorem fraction?_append (h : p.WellFormed)
    (hrest : ∀ c ∈ rest.head?, c.isDigit = false ∧ c ≠ '.') :
    fraction? (p.fractionChars ++ rest) = some (p.fraction, rest) := by
  unfold NumberParts.fractionChars
  cases hempty : p.fraction.isEmpty with
  | true =>
    have hpoint : rest.head? ≠ some '.' := fun hpoint => (hrest _ hpoint).2 rfl
    rw [fraction?, if_pos rfl, List.nil_append, if_neg hpoint, List.isEmpty_iff.mp hempty]
  | false =>
    simp [fraction?, spanDigits_append h.fraction fun c hc => (hrest c hc).1, hempty]

theorem wholeDigits?_append (h : p.WellFormed) (hrest : ∀ c ∈ rest.head?, c.isDigit = false) :
    wholeDigits? (p.whole ++ rest) = some (p.whole, rest) := by
  have hlead : ¬ (p.whole.isEmpty ∨ (p.whole.head? = some '0' ∧ p.whole ≠ ['0'])) := by
    rintro (hempty | ⟨hzero, hne⟩)
    · exact h.present (List.isEmpty_iff.mp hempty)
    · exact hne (h.lead hzero)
  rw [wholeDigits?, spanDigits_append h.whole hrest]
  exact if_neg hlead

/-- A number is read from its parts. -/
theorem number?_append (negative : Bool) (h : p.WellFormed) (hrest : Ends rest) :
    number? ((if negative then '-' :: p.chars else p.chars) ++ rest)
      = some (numberOf negative p.whole p.fraction p.exponent?, rest) := by
  -- what follows the power, the fraction and the whole part
  have hpower : ∀ c ∈ (p.powerChars ++ rest).head?, c.isDigit = false ∧ c ≠ '.' := by
    unfold NumberParts.powerChars
    split
    · exact fun c hc => ⟨(hrest c hc).1, (hrest c hc).2.1⟩
    · intro c hc
      cases hc
      exact ⟨rfl, by decide⟩
  have hfraction : ∀ c ∈ (p.fractionChars ++ (p.powerChars ++ rest)).head?, c.isDigit = false := by
    unfold NumberParts.fractionChars
    split
    · exact fun c hc => (hpower c hc).1
    · intro c hc
      cases hc
      rfl
  have hbody : p.chars ++ rest = p.whole ++ (p.fractionChars ++ (p.powerChars ++ rest)) := by
    rw [NumberParts.chars, List.append_assoc, List.append_assoc]
  have hminus : (p.chars ++ rest).head? ≠ some '-' := by
    rw [hbody, List.head?_append_of_ne_nil _ h.present]
    intro hminus
    exact absurd (h.whole _ (List.mem_of_mem_head? hminus)) (by decide)
  cases negative with
  | false =>
    simp only [number?, Bool.false_eq_true, if_false, if_neg hminus]
    simp [hbody, wholeDigits?_append h hfraction, fraction?_append h hpower, power?_append h hrest]
  | true =>
    simp only [number?, if_true, List.cons_append, List.head?_cons, List.tail_cons]
    simp [hbody, wholeDigits?_append h hfraction, fraction?_append h hpower, power?_append h hrest]

/-! ## Whole numbers -/

theorem sign_natAbs (n : Int) : (if decide (n < 0) then -(n.natAbs : Int) else n.natAbs) = n := by
  by_cases hn : n < 0
  · rw [if_pos (decide_eq_true hn)]
    omega
  · rw [if_neg (by simpa using hn)]
    omega

theorem number?_digits (n : Int) (hrest : Ends rest) :
    number? (Whole.digits n ++ rest) = some (.int n, rest) := by
  let p : NumberParts := ⟨Nat.toDigits 10 n.natAbs, [], none⟩
  have hp : p.WellFormed :=
    { whole := isDigit_toDigits n.natAbs
      present := Nat.toDigits_ne_nil
      lead := fun hzero => by
        have hn : n.natAbs = 0 := by
          by_contra hn
          exact head?_toDigits hn hzero
        simp only [p, hn]
        rfl
      fraction := by simp [p]
      power := by simp [p] }
  have hdigits : Whole.digits n = if decide (n < 0) then '-' :: p.chars else p.chars := by
    simp [Whole.digits, p, NumberParts.chars, NumberParts.fractionChars, NumberParts.powerChars]
  rw [hdigits, number?_append _ hp hrest]
  simp only [numberOf, p, NumberParts.exponent?, Option.map_none, digitsValue_toDigits, sign_natAbs]

/-! ## Floating-point numbers -/

/-- Digits of a number that is not zero, from its first one on. -/
structure Significant (ds : List Char) : Prop where
  present : ds ≠ []
  lead : ds.head? ≠ some '0'
  digits : ∀ c ∈ ds, c.isDigit = true

/-- The digits of a number are significant ones and zeros after them. -/
theorem exists_significant {n : Nat} (hn : n ≠ 0) :
    ∃ ds zeros, ((Nat.toDigits 10 n).reverse.dropWhile (· = '0')).reverse = ds ∧
      Nat.toDigits 10 n = ds ++ List.replicate zeros '0' ∧ Significant ds := by
  let ds := List.rdropWhile (· = '0') (Nat.toDigits 10 n)
  let tail := List.rtakeWhile (· = '0') (Nat.toDigits 10 n)
  have htail : tail = List.replicate tail.length '0' :=
    List.eq_replicate_iff.mpr ⟨rfl, fun c hc => by simpa using List.mem_rtakeWhile_imp hc⟩
  have hsplit : Nat.toDigits 10 n = ds ++ List.replicate tail.length '0' := by
    rw [← htail]
    exact List.rdropWhile_append_rtakeWhile.symm
  have hhead := head?_toDigits hn
  have hne : ds ≠ [] := by
    intro hempty
    rw [hempty, List.nil_append] at hsplit
    cases hlength : tail.length with
    | zero =>
      rw [hlength] at hsplit
      exact Nat.toDigits_ne_nil hsplit
    | succ k =>
      rw [hsplit, hlength] at hhead
      exact hhead rfl
  refine ⟨ds, tail.length, rfl, hsplit, hne, ?_, fun c hc => isDigit_toDigits n c ?_⟩
  · rwa [hsplit, List.head?_append_of_ne_nil _ hne] at hhead
  · rw [hsplit]
    exact List.mem_append_left _ hc

namespace Significant

/-- A number below one. -/
theorem below (h : Significant ds) (n : Nat) :
    NumberParts.WellFormed ⟨['0'], List.replicate n '0' ++ ds, none⟩ ∧
      NumberParts.numeral ⟨['0'], List.replicate n '0' ++ ds, none⟩
        = ⟨digitsValue ds, -(n + ds.length : Nat)⟩ := by
  refine ⟨⟨by simp, by simp, fun _ => rfl, ?_, by simp⟩, ?_⟩
  · intro c hc
    exact (List.mem_append.mp hc).elim (isDigit_zeros n c) (h.digits c)
  · have hdigits : digitsValue (['0'] ++ (List.replicate n '0' ++ ds)) = digitsValue ds := by
      rw [← List.append_assoc, ← List.replicate_one, List.replicate_append_replicate,
        digitsValue_zeros_append]
    rw [NumberParts.numeral, hdigits, List.length_append, List.length_replicate]
    simp [NumberParts.exponent?]

/-- A whole number, which is written with a zero after the point. -/
theorem whole (h : Significant ds) (n : Nat) :
    NumberParts.WellFormed ⟨ds ++ List.replicate n '0', ['0'], none⟩ ∧
      NumberParts.numeral ⟨ds ++ List.replicate n '0', ['0'], none⟩
        = ⟨digitsValue ds * 10 ^ (n + 1), -1⟩ := by
  refine ⟨⟨?_, by simp [h.present], fun hzero => ?_, by simp, by simp⟩, ?_⟩
  · intro c hc
    exact (List.mem_append.mp hc).elim (h.digits c) (isDigit_zeros n c)
  · rw [List.head?_append_of_ne_nil _ h.present] at hzero
    exact absurd hzero h.lead
  · have hdigits : digitsValue (ds ++ List.replicate n '0' ++ ['0'])
        = digitsValue ds * 10 ^ (n + 1) := by
      rw [List.append_assoc, ← List.replicate_one, List.replicate_append_replicate,
        digitsValue_append_zeros]
    rw [NumberParts.numeral, hdigits]
    simp [NumberParts.exponent?]

/-- A number with the point between its digits, and perhaps a power of ten. -/
theorem split (h : Significant ds) {n : Nat} (hn : n ≠ 0) (power : Option (Bool × List Char))
    (hpower : ∀ e ∈ power, e.2 ≠ [] ∧ ∀ c ∈ e.2, c.isDigit = true) :
    NumberParts.WellFormed ⟨ds.take n, ds.drop n, power⟩ ∧
      NumberParts.numeral ⟨ds.take n, ds.drop n, power⟩
        = ⟨digitsValue ds,
            (NumberParts.exponent? ⟨ds.take n, ds.drop n, power⟩).getD 0 - (ds.length - n : Nat)⟩ := by
  refine ⟨⟨?_, ?_, fun hzero => ?_, ?_, hpower⟩, ?_⟩
  · exact fun c hc => h.digits c (List.mem_of_mem_take hc)
  · simp [hn, h.present]
  · rw [List.head?_take, if_neg hn] at hzero
    exact absurd hzero h.lead
  · exact fun c hc => h.digits c (List.mem_of_mem_drop hc)
  · rw [NumberParts.numeral, List.take_append_drop, List.length_drop]

end Significant

/-- The digits of a power of ten, at least two of them. -/
theorem exists_places (n : Nat) :
    ∃ places, (if (Nat.toDigits 10 n).length < 2 then '0' :: Nat.toDigits 10 n
        else Nat.toDigits 10 n) = places ∧
      places ≠ [] ∧ (∀ c ∈ places, c.isDigit = true) ∧ digitsValue places = n := by
  split
  · refine ⟨_, rfl, List.cons_ne_nil _ _, fun c hc => ?_, ?_⟩
    · rcases List.mem_cons.mp hc with rfl | hc
      · rfl
      · exact isDigit_toDigits n c hc
    · exact (digitsValue_zeros_append 1 _).trans (digitsValue_toDigits n)
  · exact ⟨_, rfl, Nat.toDigits_ne_nil, isDigit_toDigits n, digitsValue_toDigits n⟩

theorem value_shift (d n : Nat) (e : Int) :
    (Decimal.Numeral.mk (d * 10 ^ n) e).value = (Decimal.Numeral.mk d (e + n)).value := by
  rw [Decimal.Numeral.value, Decimal.Numeral.value, zpow_add₀ (by norm_num), zpow_natCast,
    Nat.cast_mul, Nat.cast_pow, Nat.cast_ofNat, mul_assoc, mul_comm ((10 : ℚ) ^ n)]

/-- A numeral is written in parts that make a numeral of the same value, and no whole number. -/
theorem exists_parts {x : Decimal.Numeral} (hx : x.digits ≠ 0) :
    ∃ p : NumberParts, p.WellFormed ∧ p.chars = x.toChars ∧ (p.fraction ≠ [] ∨ p.power ≠ none) ∧
      p.numeral.value = x.value := by
  obtain ⟨ds, zeros, hds, hall, hsig⟩ := exists_significant hx
  have hdigits : x.digits = digitsValue ds * 10 ^ zeros := by
    rw [← digitsValue_append_zeros, ← hall, digitsValue_toDigits]
  let point : Int := (ds.length + zeros : Nat) + x.exponent
  have hvalue : x.value = (Decimal.Numeral.mk (digitsValue ds) (point - ds.length)).value := by
    have hshift := value_shift (digitsValue ds) zeros x.exponent
    rw [← hdigits] at hshift
    refine hshift.trans (congrArg (fun e => (Decimal.Numeral.mk _ e).value) ?_)
    omega
  have hpoint : (ds ++ List.replicate zeros '0').length + x.exponent = point := by
    rw [List.length_append, List.length_replicate]
  unfold Decimal.Numeral.toChars
  dsimp only
  rw [hds, hall, hpoint, hvalue]
  split
  · rename_i hplain
    split
    · rename_i hbelow
      obtain ⟨hp, hnumeral⟩ := hsig.below (-point).toNat
      refine ⟨_, hp, ?_, .inl (by simp [hsig.present]), ?_⟩
      · simp [NumberParts.chars, NumberParts.fractionChars, NumberParts.powerChars, hsig.present]
      · rw [hnumeral]
        exact congrArg (fun e => (Decimal.Numeral.mk _ e).value) (by omega)
    · split
      · rename_i hbelow hwhole
        obtain ⟨hp, hnumeral⟩ := hsig.whole (point.toNat - ds.length)
        refine ⟨_, hp, ?_, .inl (by simp), ?_⟩
        · simp [NumberParts.chars, NumberParts.fractionChars, NumberParts.powerChars]
        · rw [hnumeral, value_shift]
          exact congrArg (fun e => (Decimal.Numeral.mk _ e).value) (by omega)
      · rename_i hbelow hwhole
        obtain ⟨hp, hnumeral⟩ := hsig.split (n := point.toNat) (by omega) none (by simp)
        have hrest : ds.drop point.toNat ≠ [] := by
          simp only [ne_eq, List.drop_eq_nil_iff]
          omega
        refine ⟨_, hp, ?_, .inl hrest, ?_⟩
        · simp [NumberParts.chars, NumberParts.fractionChars, NumberParts.powerChars, hrest]
        · rw [hnumeral]
          refine congrArg (fun e => (Decimal.Numeral.mk _ e).value) ?_
          simp [NumberParts.exponent?]
          omega
  · -- with a power of ten
    obtain ⟨places, hplaces, hne, hplaceDigits, hplaceValue⟩ := exists_places (point - 1).natAbs
    obtain ⟨hp, hnumeral⟩ := hsig.split one_ne_zero (some (decide (point - 1 < 0), places)) fun e he => by
      cases he
      exact ⟨hne, hplaceDigits⟩
    rw [hplaces]
    refine ⟨_, hp, ?_, .inr (by simp), ?_⟩
    · have hsingle : (ds.drop 1).isEmpty = true ↔ ds.length = 1 := by
        have hpos := List.length_pos_iff.mpr hsig.present
        rw [List.isEmpty_iff, List.drop_eq_nil_iff]
        omega
      rw [NumberParts.chars, NumberParts.fractionChars, NumberParts.powerChars]
      dsimp only
      rw [if_congr hsingle rfl rfl]
      simp [List.append_assoc]
    · rw [hnumeral]
      refine congrArg (fun e => (Decimal.Numeral.mk _ e).value) ?_
      rw [NumberParts.exponent?, Option.map_some, Option.getD_some]
      dsimp only
      rw [hplaceValue, sign_natAbs]
      have hpos := List.length_pos_iff.mpr hsig.present
      omega

/-- A finite number is read from its text. -/
theorem number?_finiteChars {negative : Bool} {m : Nat} {e : Int} (fits : Binary64.Fits m e)
    (hrest : Ends rest) :
    number? (Binary64.finiteChars negative m e ++ rest)
      = some (.float (.finite negative m e fits), rest) := by
  by_cases hm : m = 0
  · -- zero has the least exponent
    subst hm
    obtain ⟨-, -, -, hlead | rfl⟩ := id fits
    · exact absurd hlead (by decide)
    have hzero : NumberParts.WellFormed ⟨['0'], ['0'], none⟩ :=
      ⟨by simp, by simp, fun _ => rfl, by simp, by simp⟩
    exact number?_append negative hzero hrest
  · have hdigits := Decimal.shortest_digits_ne_zero fits hm
    obtain ⟨p, hp, hchars, hpart, hvalue⟩ := exists_parts hdigits
    have hfloat : numberOf negative p.whole p.fraction p.exponent?
        = .float (p.numeral.toBinary64 negative) := by
      unfold numberOf
      split
      · rename_i hfraction hpower
        rcases hpart with hpart | hpart
        · exact absurd hfraction hpart
        · exact absurd (Option.map_eq_none_iff.mp hpower) hpart
      · rfl
    rw [Binary64.finiteChars, if_neg hm, ← hchars, number?_append negative hp hrest,
      hfloat, Decimal.Numeral.toBinary64_congr negative hvalue,
      Decimal.shortest_reads negative fits hm]

end Json

end DraftSchema
