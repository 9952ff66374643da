import DraftSchema.Number.Arithmetic
import DraftSchema.Number.Shortest
import Mathlib.Data.Int.Log
import Mathlib.Data.Rat.Floor
import Mathlib.Tactic.FieldSimp
import Mathlib.Tactic.GCongr
import Mathlib.Tactic.Linarith
import Mathlib.Tactic.Positivity
import Mathlib.Tactic.Ring

/-!
# Reading floating-point numbers back

A numeral is read as the floating-point number nearest to the rational that it stands for, whatever
its digits and its power of ten are. A rational that is a floating-point number is read as just this
number, so the numeral that a floating-point number is written with reads back as the same number:
either it was chosen for that, or it has all the digits of the number.
-/

namespace DraftSchema

namespace Binary64

variable {num den : Nat} {negative : Bool} {m : Nat} {e : Int}

/-! ## Logarithms -/

theorem log_eq_of_between {b : Nat} (hb : 1 < b) {q : ℚ} (hq : 0 < q) {k : Int}
    (hlow : (b : ℚ) ^ k ≤ q) (hhigh : q < (b : ℚ) ^ (k + 1)) : Int.log b q = k := by
  have hle : k ≤ Int.log b q := (Int.zpow_le_iff_le_log hb hq).mp hlow
  have hlt : Int.log b q < k + 1 := (Int.lt_zpow_iff_log_lt hb hq).mp hhigh
  omega

theorem log_mul_zpow {b : Nat} (hb : 1 < b) (hm : m ≠ 0) (e : Int) :
    Int.log b ((m : ℚ) * (b : ℚ) ^ e) = (Nat.log b m : Int) + e := by
  have hbase : (0 : ℚ) < b := by exact_mod_cast Nat.zero_lt_of_lt hb
  have hpow : (0 : ℚ) < (b : ℚ) ^ e := zpow_pos hbase e
  have hpos : (0 : ℚ) < m := by exact_mod_cast Nat.pos_of_ne_zero hm
  refine log_eq_of_between hb (mul_pos hpos hpow) ?_ ?_
  · rw [zpow_add₀ hbase.ne', zpow_natCast]
    exact mul_le_mul_of_nonneg_right (by exact_mod_cast Nat.pow_log_le_self b hm) hpow.le
  · rw [add_right_comm, zpow_add₀ hbase.ne']
    refine mul_lt_mul_of_pos_right ?_ hpow
    exact_mod_cast Nat.lt_pow_succ_log_self hb m

/-! ## The leading exponent -/

/-- A power of two that may be negative, kept in whole numbers. -/
theorem two_zpow_le_div_iff (num : Nat) (k : Int) (hden : 0 < den) :
    (if 0 ≤ k then den * Nat.pow 2 k.toNat ≤ num else den ≤ num * Nat.pow 2 (-k).toNat) ↔
      (2 : ℚ) ^ k ≤ (num : ℚ) / den := by
  have hd : (0 : ℚ) < den := by exact_mod_cast hden
  rw [le_div_iff₀ hd]
  split
  · rename_i hk
    obtain ⟨n, rfl⟩ := Int.eq_ofNat_of_zero_le hk
    rw [Int.toNat_natCast, zpow_natCast, mul_comm, Nat.pow_eq]
    exact_mod_cast Iff.rfl
  · rename_i hk
    obtain ⟨n, rfl⟩ : ∃ n : Nat, k = -(n : Int) := ⟨(-k).toNat, by omega⟩
    have hpow : (0 : ℚ) < 2 ^ n := by positivity
    rw [neg_neg, Int.toNat_natCast, zpow_neg, zpow_natCast, ← div_eq_inv_mul, div_le_iff₀ hpow,
      Nat.pow_eq]
    exact_mod_cast Iff.rfl

/-- The logarithms of numerator and denominator leave two values for that of a quotient. -/
theorem div_between (hnum : num ≠ 0) (hden : den ≠ 0) :
    (2 : ℚ) ^ ((num.log2 : Int) - den.log2 - 1) ≤ (num : ℚ) / den ∧
      (num : ℚ) / den < (2 : ℚ) ^ ((num.log2 : Int) - den.log2 + 1) := by
  have hbounds : ∀ n : Nat, n ≠ 0 → (2 : ℚ) ^ n.log2 ≤ n ∧ (n : ℚ) < 2 ^ (n.log2 + 1) :=
    fun n hn => ⟨by exact_mod_cast Nat.log2_self_le hn, by exact_mod_cast Nat.lt_log2_self⟩
  have hn := hbounds num hnum
  have hd := hbounds den hden
  have hpos : (0 : ℚ) < den := by exact_mod_cast Nat.pos_of_ne_zero hden
  constructor
  · have hexp : (2 : ℚ) ^ ((num.log2 : Int) - den.log2 - 1) = 2 ^ num.log2 / 2 ^ (den.log2 + 1) := by
      rw [← zpow_natCast, ← zpow_natCast, ← zpow_sub₀ (by norm_num)]
      push_cast
      ring_nf
    rw [hexp, div_le_div_iff₀ (by positivity) hpos]
    exact mul_le_mul hn.1 hd.2.le hpos.le (by positivity)
  · have hexp : (2 : ℚ) ^ ((num.log2 : Int) - den.log2 + 1) = 2 ^ (num.log2 + 1) / 2 ^ den.log2 := by
      rw [← zpow_natCast, ← zpow_natCast, ← zpow_sub₀ (by norm_num)]
      push_cast
      ring_nf
    rw [hexp, div_lt_div_iff₀ hpos (by positivity)]
    exact mul_lt_mul hn.2 hd.1 (by positivity) (by positivity)

theorem leadingExponent_eq (hnum : num ≠ 0) (hden : den ≠ 0) :
    leadingExponent num den = Int.log 2 ((num : ℚ) / den) := by
  have hq : (0 : ℚ) < (num : ℚ) / den :=
    div_pos (by exact_mod_cast Nat.pos_of_ne_zero hnum) (by exact_mod_cast Nat.pos_of_ne_zero hden)
  obtain ⟨hlow, hhigh⟩ := div_between hnum hden
  have hreached := two_zpow_le_div_iff num ((num.log2 : Int) - den.log2)
    (Nat.pos_of_ne_zero hden)
  unfold leadingExponent
  dsimp only
  rw [if_congr hreached rfl rfl]
  by_cases h : (2 : ℚ) ^ ((num.log2 : Int) - den.log2) ≤ (num : ℚ) / den
  · rw [if_pos h]
    exact (log_eq_of_between (by decide) hq (by exact_mod_cast h) (by exact_mod_cast hhigh)).symm
  · rw [if_neg h]
    refine (log_eq_of_between (by decide) hq (by exact_mod_cast hlow) ?_).symm
    rw [sub_add_cancel]
    exact_mod_cast not_le.mp h

/-! ## Rounding a quotient -/

theorem roundQuotient_mul_right (num den : Nat) {c : Nat} (hc : 0 < c) :
    roundQuotient (num * c) (den * c) = roundQuotient num den := by
  have htwice : 2 * (num * c % (den * c)) = 2 * (num % den) * c := by
    rw [Nat.mul_mod_mul_right, Nat.mul_assoc]
  unfold roundQuotient
  simp only [Nat.mul_div_mul_right _ _ hc, htwice, Nat.mul_lt_mul_right hc, Nat.mul_left_inj hc.ne']

/-- A quotient is rounded as the rational that it is. -/
theorem ofQuotient_mul_right (negative : Bool) (num : Nat) {c : Nat} (hden : den ≠ 0) (hc : 0 < c) :
    ofQuotient negative (num * c) (den * c) = ofQuotient negative num den := by
  unfold ofQuotient
  by_cases hnum : num = 0
  · rw [if_pos hnum, if_pos (by rw [hnum, Nat.zero_mul])]
  have hexponent : leadingExponent (num * c) (den * c) = leadingExponent num den := by
    rw [leadingExponent_eq (Nat.mul_ne_zero hnum hc.ne') (Nat.mul_ne_zero hden hc.ne'),
      leadingExponent_eq hnum hden]
    push_cast
    rw [mul_div_mul_right _ _ (by exact_mod_cast hc.ne')]
  rw [if_neg (Nat.mul_ne_zero hnum hc.ne'), if_neg hnum, hexponent]
  simp only [Nat.mul_right_comm _ c, roundQuotient_mul_right _ _ hc]

theorem ofQuotient_congr {num' den' : Nat} (hden : den ≠ 0) (hden' : den' ≠ 0)
    (h : (num : ℚ) / den = num' / den') :
    ofQuotient negative num den = ofQuotient negative num' den' := by
  have hcross : num * den' = num' * den := by
    rw [div_eq_div_iff (by exact_mod_cast hden) (by exact_mod_cast hden')] at h
    exact_mod_cast h
  rw [← ofQuotient_mul_right negative num hden (Nat.pos_of_ne_zero hden'), hcross,
    Nat.mul_comm den, ofQuotient_mul_right negative num' hden' (Nat.pos_of_ne_zero hden)]

theorem roundQuotient_exact (m : Nat) (hden : 0 < den) : roundQuotient (m * den) den = m := by
  unfold roundQuotient
  dsimp only
  rw [Nat.mul_div_cancel _ hden, Nat.mul_mod_left, Nat.mul_zero, if_neg]
  rintro (h | ⟨h, -⟩)
  · exact absurd h (Nat.not_lt_zero _)
  · exact hden.ne h

/-- The exponent of a number of the format, from the leading one. -/
theorem exponent_of_fits (fits : Fits m e) (hm : m ≠ 0) :
    max (Int.log 2 ((m : ℚ) * 2 ^ e) - 52) (-1074) = e := by
  obtain ⟨hlt, hlow, -, hlead⟩ := fits
  have hlog : Nat.log 2 m ≤ 52 := Nat.le_of_lt_succ (Nat.log_lt_of_lt_pow hm hlt)
  have hscaled : Int.log 2 ((m : ℚ) * 2 ^ e) = (Nat.log 2 m : Int) + e := by
    exact_mod_cast log_mul_zpow (b := 2) (by decide) hm e
  rw [hscaled]
  rcases hlead with hlead | rfl
  · have hfull : 52 ≤ Nat.log 2 m := Nat.le_log_of_pow_le (by decide) hlead
    omega
  · omega

/-- A quotient that is a number of the format is rounded to it. -/
theorem ofQuotient_exact (fits : Fits m e) (hm : m ≠ 0) (hden : den ≠ 0)
    (h : (num : ℚ) / den = m * 2 ^ e) : ofQuotient negative num den = .finite negative m e fits := by
  have hd : (0 : ℚ) < den := by exact_mod_cast Nat.pos_of_ne_zero hden
  have hnum : num ≠ 0 := by
    rintro rfl
    rw [Nat.cast_zero, zero_div] at h
    exact absurd h.symm (mul_ne_zero (by exact_mod_cast hm) (zpow_ne_zero e (by norm_num)))
  have hround : (if 0 ≤ e then roundQuotient num (den * Nat.pow 2 e.toNat)
      else roundQuotient (num * Nat.pow 2 (-e).toNat) den) = m := by
    rw [div_eq_iff hd.ne'] at h
    split
    · rename_i he
      obtain ⟨n, rfl⟩ := Int.eq_ofNat_of_zero_le he
      have hnum : num = m * (den * Nat.pow 2 n) := by
        rw [zpow_natCast] at h
        have hcast : (num : ℚ) = ((m * 2 ^ n * den : Nat) : ℚ) := by exact_mod_cast h
        rw [Nat.cast_inj.mp hcast, Nat.pow_eq]
        ring
      rw [Int.toNat_natCast, hnum]
      exact roundQuotient_exact m (Nat.mul_pos (Nat.pos_of_ne_zero hden) (Nat.pow_pos (by decide)))
    · rename_i he
      obtain ⟨n, rfl⟩ : ∃ n : Nat, e = -(n : Int) := ⟨(-e).toNat, by omega⟩
      have hnum : num * Nat.pow 2 n = m * den := by
        rw [zpow_neg, zpow_natCast] at h
        field_simp at h
        rw [Nat.pow_eq]
        have hcast : ((num * 2 ^ n : Nat) : ℚ) = ((m * den : Nat) : ℚ) := by
          push_cast
          linarith
        exact_mod_cast hcast
      rw [neg_neg, Int.toNat_natCast, hnum]
      exact roundQuotient_exact m (Nat.pos_of_ne_zero hden)
  have hexponent : max (leadingExponent num den - 52) (-1074) = e := by
    rw [leadingExponent_eq hnum hden, h, exponent_of_fits fits hm]
  unfold ofQuotient
  rw [if_neg hnum]
  dsimp only
  rw [hexponent, hround, if_neg fits.1.ne, ofParts, dif_pos fits]

theorem ofParts_not (negative : Bool) (m : Nat) (e : Int) :
    ofParts (!negative) m e = (ofParts negative m e).neg := by
  unfold ofParts
  split <;> rfl

/-- The sign has no part in rounding. -/
theorem ofQuotient_not (negative : Bool) (num den : Nat) :
    ofQuotient (!negative) num den = (ofQuotient negative num den).neg := by
  unfold ofQuotient
  dsimp only
  simp only [ofParts_not, apply_ite neg]
  rfl

end Binary64

/-! ## Numerals -/

namespace Decimal

open Binary64 (Fits)

theorem width_eq {n : Nat} (hn : n ≠ 0) : width n = Nat.log 10 n + 1 := by
  have hiff : ∀ k, width n ≤ k + 1 ↔ Nat.log 10 n ≤ k := fun k => by
    rw [width, Nat.length_toDigits_le_iff (by decide) (Nat.succ_pos k),
      ← Nat.log_lt_iff_lt_pow (by decide) hn, Nat.lt_succ_iff]
  have hpos : width n ≠ 0 := fun h => Nat.toDigits_ne_nil (List.length_eq_zero_iff.mp h)
  have hle := (hiff _).mpr le_rfl
  have hge := (hiff (width n - 1)).mp (by omega)
  omega

namespace Numeral

variable {x y : Numeral}

/-- The rational that a numeral stands for. -/
def value (x : Numeral) : ℚ := x.digits * 10 ^ x.exponent

theorem value_eq_zero_iff : x.value = 0 ↔ x.digits = 0 := by
  rw [value, mul_eq_zero_iff_right (zpow_ne_zero _ (by norm_num)), Nat.cast_eq_zero]

theorem magnitude_eq (hx : x.digits ≠ 0) :
    (width x.digits : Int) + x.exponent = Int.log 10 x.value + 1 := by
  have hlog : Int.log 10 x.value = (Nat.log 10 x.digits : Int) + x.exponent := by
    exact_mod_cast Binary64.log_mul_zpow (b := 10) (by decide) hx x.exponent
  rw [hlog, width_eq hx]
  omega

/-- Within the range a numeral is rounded as a quotient. -/
theorem quotient_of_between (hx : x.digits ≠ 0) (hhigh : Int.log 10 x.value < 400)
    (hlow : -400 ≤ Int.log 10 x.value + 1) :
    ∃ num den : Nat, den ≠ 0 ∧ (num : ℚ) / den = x.value ∧
      ∀ negative, x.toBinary64 negative = .ofQuotient negative num den := by
  have hmagnitude := magnitude_eq hx
  unfold toBinary64
  dsimp only
  rw [hmagnitude]
  by_cases he : 0 ≤ x.exponent
  · refine ⟨x.digits * Nat.pow 10 x.exponent.toNat, 1, one_ne_zero, ?_, fun negative => ?_⟩
    · rw [value, Nat.cast_one, div_one, Nat.cast_mul, Nat.pow_eq, Nat.cast_pow]
      obtain ⟨n, hn⟩ := Int.eq_ofNat_of_zero_le he
      rw [hn, Int.toNat_natCast, zpow_natCast]
      rfl
    · rw [if_neg hx, if_neg (by omega), if_neg (by omega), if_pos he]
  · refine ⟨x.digits, Nat.pow 10 (-x.exponent).toNat, (Nat.pow_pos (by decide)).ne', ?_,
      fun negative => ?_⟩
    · obtain ⟨n, hn⟩ : ∃ n : Nat, x.exponent = -(n : Int) := ⟨(-x.exponent).toNat, by omega⟩
      rw [value, hn, neg_neg, Int.toNat_natCast, zpow_neg, zpow_natCast, Nat.pow_eq, Nat.cast_pow,
        div_eq_mul_inv]
      rfl
    · rw [if_neg hx, if_neg (by omega), if_neg (by omega), if_neg he]

/-- A numeral is read as the rational that it stands for. -/
theorem toBinary64_congr (negative : Bool) (h : x.value = y.value) :
    x.toBinary64 negative = y.toBinary64 negative := by
  by_cases hx : x.digits = 0
  · have hy : y.digits = 0 := value_eq_zero_iff.mp (h ▸ value_eq_zero_iff.mpr hx)
    rw [toBinary64, toBinary64, if_pos hx, if_pos hy]
  have hy : y.digits ≠ 0 := fun hy => hx (value_eq_zero_iff.mp (h ▸ value_eq_zero_iff.mpr hy))
  by_cases hrange : Int.log 10 x.value < 400 ∧ -400 ≤ Int.log 10 x.value + 1
  · obtain ⟨num, den, hden, hvalue, hnum⟩ := quotient_of_between hx hrange.1 hrange.2
    rw [h] at hrange
    obtain ⟨num', den', hden', hvalue', hnum'⟩ := quotient_of_between hy hrange.1 hrange.2
    rw [hnum, hnum']
    exact Binary64.ofQuotient_congr hden hden' (by rw [hvalue, hvalue', h])
  · have hmagnitude := magnitude_eq hx
    have hmagnitude' := magnitude_eq hy
    rw [← h] at hmagnitude'
    unfold toBinary64
    dsimp only
    rw [hmagnitude, hmagnitude', if_neg hx, if_neg hy]
    by_cases hhigh : 400 < Int.log 10 x.value + 1
    · rw [if_pos hhigh, if_pos hhigh]
    · have hlow : Int.log 10 x.value + 1 < -400 := by omega
      rw [if_neg hhigh, if_neg hhigh, if_pos hlow, if_pos hlow]

theorem toBinary64_not (x : Numeral) (negative : Bool) :
    x.toBinary64 (!negative) = (x.toBinary64 negative).neg := by
  unfold toBinary64
  simp only [Binary64.ofQuotient_not, apply_ite Binary64.neg]
  rfl

/-- A numeral that stands for a number of the format is read as this number. -/
theorem toBinary64_exact {m : Nat} {e : Int} (negative : Bool) (fits : Fits m e) (hm : m ≠ 0)
    (h : x.value = m * 2 ^ e) : x.toBinary64 negative = .finite negative m e fits := by
  have hpow : ∀ k : Int, (0 : ℚ) < 2 ^ k := fun k => zpow_pos (by norm_num) k
  have hm' : (1 : ℚ) ≤ m := by exact_mod_cast Nat.one_le_iff_ne_zero.mpr hm
  have hpos : 0 < x.value := by
    rw [h]
    exact mul_pos (by linarith) (hpow e)
  have hx : x.digits ≠ 0 := fun hx => hpos.ne' (value_eq_zero_iff.mpr hx)
  -- three binary digits make less than a decimal one
  have height : (2 : ℚ) ^ (3 : Int) ≤ 10 := by norm_num
  have hthree : ∀ k : Nat, (2 : ℚ) ^ (3 * k : Int) ≤ 10 ^ (k : Int) := fun k => by
    rw [zpow_mul, zpow_natCast, zpow_natCast]
    exact pow_le_pow_left₀ (by norm_num) height k
  obtain ⟨hlt, hlow, hhigh, -⟩ := id fits
  have hsmall : Int.log 10 x.value < 342 := by
    refine (Int.lt_zpow_iff_log_lt (by decide) hpos).mp (lt_of_lt_of_le ?_ (hthree 342))
    have hmant : (m : ℚ) < 2 ^ (53 : Int) := by exact_mod_cast hlt
    calc x.value = m * 2 ^ e := h
      _ < 2 ^ (53 : Int) * 2 ^ e := mul_lt_mul_of_pos_right hmant (hpow e)
      _ = 2 ^ (53 + e) := (zpow_add₀ (by norm_num) 53 e).symm
      _ ≤ 2 ^ (3 * (342 : Nat) : Int) := zpow_le_zpow_right₀ (by norm_num) (by omega)
  have hlarge : -358 ≤ Int.log 10 x.value := by
    refine (Int.zpow_le_iff_le_log (by decide) hpos).mp ?_
    calc (10 : ℚ) ^ (-358 : Int) ≤ 2 ^ (-(3 * (358 : Nat) : Int)) := by
          rw [zpow_neg, zpow_neg]
          exact inv_anti₀ (hpow _) (hthree 358)
      _ ≤ 2 ^ e := zpow_le_zpow_right₀ (by norm_num) (by omega)
      _ ≤ m * 2 ^ e := le_mul_of_one_le_left (hpow e).le hm'
      _ = x.value := h.symm
  obtain ⟨num, den, hden, hvalue, hnum⟩ := quotient_of_between hx (by omega) (by omega)
  rw [hnum]
  exact Binary64.ofQuotient_exact fits hm hden (hvalue.trans h)

end Numeral

/-! ## The shortest numeral -/

variable {m : Nat} {e : Int}

theorem search_accepts {accept : Numeral → Bool} {num den : Nat} {point : Int} {fuel count : Nat}
    {x : Numeral} (h : search accept num den point fuel count = some x) : accept x = true := by
  induction fuel generalizing count with
  | zero => cases h
  | succ fuel ih =>
    rw [search] at h
    dsimp only at h
    split at h
    · cases h
      assumption
    · split at h
      · cases h
        assumption
      · exact ih h

theorem exactly_value (m : Nat) (e : Int) : (exactly m e).value = m * 2 ^ e := by
  unfold exactly
  split
  · rename_i he
    obtain ⟨n, rfl⟩ := Int.eq_ofNat_of_zero_le he
    rw [Numeral.value, zpow_zero, mul_one, Int.toNat_natCast, zpow_natCast, Nat.pow_eq, Nat.cast_mul,
      Nat.cast_pow]
    rfl
  · rename_i he
    obtain ⟨n, rfl⟩ : ∃ n : Nat, e = -(n : Int) := ⟨(-e).toNat, by omega⟩
    have hsplit : (10 : ℚ) ^ n = 5 ^ n * 2 ^ n := by rw [← mul_pow]; norm_num
    rw [Numeral.value, neg_neg, Int.toNat_natCast, zpow_neg, zpow_neg, zpow_natCast, zpow_natCast,
      Nat.pow_eq, Nat.cast_mul, Nat.cast_pow, Nat.cast_ofNat, hsplit]
    field_simp

/-- The numeral that a number is written with reads back as the number. -/
theorem shortest_reads (negative : Bool) (fits : Fits m e) (hm : m ≠ 0) :
    (shortest m e).toBinary64 negative = .finite negative m e fits := by
  have hread : (shortest m e).toBinary64 false = .finite false m e fits := by
    unfold shortest
    dsimp only
    cases hsearch : search _ _ _ _ 17 1 with
    | some x =>
      have haccept := of_decide_eq_true (search_accepts hsearch)
      rwa [Binary64.ofParts, dif_pos fits] at haccept
    | none => exact Numeral.toBinary64_exact false fits hm (exactly_value m e)
  cases negative with
  | false => exact hread
  | true =>
    have hnot := Numeral.toBinary64_not (shortest m e) false
    rw [hread] at hnot
    exact hnot

theorem shortest_digits_ne_zero (fits : Fits m e) (hm : m ≠ 0) : (shortest m e).digits ≠ 0 := by
  intro h
  have hread := shortest_reads false fits hm
  rw [Numeral.toBinary64, if_pos h] at hread
  injection hread with _ hzero
  exact hm hzero.symm

end Decimal

end DraftSchema
