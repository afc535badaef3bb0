/-!
# Percentages

A share of a total as a percentage with one place. The quotient and its product with a hundred are
each rounded to 53 significant bits, then the result to tenths; at every step a tie goes to the even
neighbour.
-/

namespace PLZero.Percent

/-- The quotient rounded to the nearest natural number, a tie to the even one. -/
def roundDiv (num den : Nat) : Nat :=
  let quotient := num / den
  let twice := 2 * (num % den)
  if twice < den then quotient
  else if den < twice then quotient + 1
  else quotient + quotient % 2

/-- The number `mantissa * 2 ^ exponent`. -/
structure Dyadic where
  mantissa : Nat
  exponent : Int
deriving DecidableEq

/-- The value of a dyadic number as a fraction. -/
def Dyadic.fraction (d : Dyadic) : Nat × Nat :=
  (d.mantissa <<< d.exponent.toNat, 1 <<< (-d.exponent).toNat)

/-- The fraction `num / den` rounded to 53 significant bits. -/
def toBits53 (num den : Nat) : Dyadic :=
  let guess : Int := Nat.log2 num - Nat.log2 den - 53
  let scaled (exponent : Int) := (num <<< (-exponent).toNat, den <<< exponent.toNat)
  let (n, d) := scaled guess
  let exponent := if n / d < 1 <<< 53 then guess else guess + 1
  let (n, d) := scaled exponent
  ⟨roundDiv n d, exponent⟩

/-- The share `part / total` in tenths of a percent. -/
def tenths (part total : Nat) : Nat :=
  let (num, den) := (toBits53 part total).fraction
  let (num, den) := (toBits53 (100 * num) den).fraction
  roundDiv (10 * num) den

/-- The share `part / total` as a percentage with one place. -/
def text (part total : Nat) : String :=
  let tenths := tenths part total
  s!"{tenths / 10}.{tenths % 10}"

end PLZero.Percent
