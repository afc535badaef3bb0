/-!
# Decimal numerals

Reading and writing integers in decimal. A numeral is an optional single sign and at least one digit;
one that is read into a machine word must fit it.
-/

namespace PLZero.Decimal

/-- The value of a run of digits, most significant first. -/
def value (digits : List Char) : Nat :=
  digits.foldl (fun n d => 10 * n + (d.toNat - '0'.toNat)) 0

/-- The value of an unsigned numeral: one digit or more, and nothing else. -/
def natural? (text : List Char) : Option Nat :=
  if text ≠ [] ∧ text.all Char.isDigit then some (value text) else none

/-- The value of a numeral with an optional sign. -/
def integer? : List Char → Option Int
  | '+' :: digits => (natural? digits).map Int.ofNat
  | '-' :: digits => (natural? digits).map fun n => -Int.ofNat n
  | digits => (natural? digits).map Int.ofNat

/-- One more than the greatest signed 64-bit word, `2 ^ 63`; its negation is the least one. -/
def int64Bound : Nat := 0x8000000000000000

/-- The signed 64-bit word that a numeral denotes, if the value fits one. -/
def int64? (text : List Char) : Option Int64 :=
  match integer? text with
  | some n => if -(int64Bound : Int) ≤ n ∧ n < int64Bound then some (Int64.ofInt n) else none
  | none => none

/-- The count that a numeral denotes: below `2 ^ 64`, with an optional plus sign only. -/
def count? (text : List Char) : Option Nat :=
  let digits := match text with
    | '+' :: digits => digits
    | digits => digits
  match natural? digits with
  | some n => if n < UInt64.size then some n else none
  | none => none

/-- An integer in decimal, with a sign only if it is negative. -/
def ofInt (n : Int) : String := n.repr

def ofInt64 (n : Int64) : String := ofInt n.toInt

/-- An integer in at least `width` places: zeros stand between the sign and the digits. -/
def padded (width : Nat) (n : Int) : String :=
  let sign := if n < 0 then ['-'] else []
  let digits := Nat.toDigits 10 n.natAbs
  String.ofList (sign ++ List.replicate (width - sign.length - digits.length) '0' ++ digits)

end PLZero.Decimal
