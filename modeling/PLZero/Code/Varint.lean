/-!
# Variable-length numbers

A number is written in groups of seven bits, least significant first, with the high bit of every byte
but the last set. The shortest form is written; a longer one is read as well, up to the number of
bytes that the width of the word allows. A signed word is first folded onto the natural numbers, so
that words close to zero are short.
-/

namespace PLZero.Varint

inductive Error where
  | unexpectedEnd
  | tooLong
deriving DecidableEq

/-- A number in its shortest form. -/
def encode (n : Nat) : List UInt8 :=
  if n < 128 then [UInt8.ofNat n] else UInt8.ofNat (n % 128 + 128) :: encode (n / 128)

/-- How long a number may be: its greatest number of bytes, and how great the last of that many may
be. -/
structure Width where
  bytes : Nat
  lastByte : Nat

/-- Numbers below `2 ^ 32`. -/
def word32 : Width := ⟨5, 15⟩

/-- Numbers below `2 ^ 64`. -/
def word64 : Width := ⟨10, 1⟩

/-- Reads a number of at most the given number of bytes, with the bytes after it. -/
def decodeBytes (lastByte : Nat) : Nat → List UInt8 → Except Error (Nat × List UInt8)
  | 0, _ => .error .tooLong
  | _ + 1, [] => .error .unexpectedEnd
  | more + 1, byte :: rest =>
    if byte < 128 then
      if more = 0 ∧ lastByte < byte.toNat then .error .tooLong else .ok (byte.toNat, rest)
    else
      match decodeBytes lastByte more rest with
      | .ok (high, rest) => .ok (byte.toNat - 128 + 128 * high, rest)
      | .error e => .error e

def decode (width : Width) (bytes : List UInt8) : Except Error (Nat × List UInt8) :=
  decodeBytes width.lastByte width.bytes bytes

/-- Folds the signed words onto the natural numbers: 0, -1, 1, -2, 2, … -/
def zigzag (n : Int64) : Nat :=
  match n.toInt with
  | .ofNat m => 2 * m
  | .negSucc m => 2 * m + 1

/-- The signed word that is folded onto a number. -/
def unzigzag (n : Nat) : Int64 :=
  if n % 2 = 0 then Int64.ofInt (.ofNat (n / 2)) else Int64.ofInt (.negSucc (n / 2))

end PLZero.Varint
