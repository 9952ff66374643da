import DraftSchema.Number.Shortest

/-!
Numbers with a given number of decimal places: written out, with a power of ten, or in whichever of
the two forms is meant for their size. The last place is the nearest one, a half going to the even
neighbour.
-/
namespace DraftSchema.Places

/-- Decimal digits, at least a number of them. -/
def digits (least n : Nat) : List Char :=
  let ds := Nat.toDigits 10 n
  List.replicate (least - ds.length) '0' ++ ds

/-- The nearest whole number to `num / den · 10 ^ exponent`. -/
def scaled (num den : Nat) (exponent : Int) : Nat :=
  if 0 ≤ exponent then Binary64.roundQuotient (num * Nat.pow 10 exponent.toNat) den
  else Binary64.roundQuotient num (den * Nat.pow 10 (-exponent).toNat)

/-- Digits with a point before the last so many of them; without any of those the point stands only
where it is asked for. -/
def pointed (point : Bool) (places : Nat) (ds : List Char) : List Char :=
  let whole := ds.take (ds.length - places)
  let fraction := ds.drop (ds.length - places)
  whole ++ (if fraction.isEmpty && !point then [] else '.' :: fraction)

/-- A quotient written out with a number of places. -/
def fixed (point : Bool) (places num den : Nat) : List Char :=
  pointed point places (digits (places + 1) (scaled num den places))

/-- The digits of a quotient with a number of places behind the first, and the power of ten of the
first digit. -/
def leading (places num den : Nat) : Nat × Int :=
  if num = 0 then (0, 0)
  else
    let e := Decimal.pointOf num den - 1
    let n := scaled num den (places - e)
    if n = Nat.pow 10 (places + 1) then (n / 10, e + 1) else (n, e)

/-- A power of ten with its mark, with at least two digits. -/
def power (e : Int) : List Char := 'e' :: (if e < 0 then '-' else '+') :: digits 2 e.natAbs

/-- A quotient with a number of places and a power of ten. -/
def scientific (point : Bool) (places num den : Nat) : List Char :=
  let (n, e) := leading places num den
  pointed point places (digits (places + 1) n) ++ power e

/-- Digits without zeros at their end, and without a point that nothing follows. -/
def trimmed (cs : List Char) : List Char :=
  if cs.contains '.' then
    let cs := (cs.reverse.dropWhile (· = '0')).reverse
    if cs.getLast? = some '.' then cs.dropLast else cs
  else cs

/-- A quotient with a number of significant digits, of which zeros at the end are kept only on
demand. Small and large powers of ten are written as such. -/
def general (keep : Bool) (significant num den : Nat) : List Char :=
  let places := significant - 1
  let (n, e) := leading places num den
  let tidy (cs : List Char) := if keep then cs else trimmed cs
  if e < -4 ∨ (significant : Int) ≤ e then
    tidy (pointed keep places (digits significant n)) ++ power e
  else tidy (fixed keep ((places : Int) - e).toNat num den)

end DraftSchema.Places
