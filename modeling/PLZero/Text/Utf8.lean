/-!
# Reading UTF-8 that may be damaged

Bytes are decoded character by character. A place that starts no well-formed character yields one
replacement character for the longest run of bytes there that could still have become one, and for a
single byte if there is no such run.
-/

namespace PLZero.Utf8

/-- The character that stands for bytes that are not well formed. -/
def replacement : Char := '�'

def isContinuation (b : UInt8) : Bool := 0x80 ≤ b && b ≤ 0xBF

/-- What a leading byte announces: the bits it contributes, the range of the byte after it, and the
number of continuation bytes after that one. -/
structure Lead where
  bits : Nat
  low : UInt8
  high : UInt8
  more : Nat

/-- The leading bytes of characters of two bytes or more. The second byte of a well-formed character
is restricted so that there are no overlong forms, no surrogates and nothing above `10FFFF`. -/
def lead? (b : UInt8) : Option Lead :=
  if 0xC2 ≤ b && b ≤ 0xDF then some ⟨b.toNat - 0xC0, 0x80, 0xBF, 0⟩
  else if b = 0xE0 then some ⟨0, 0xA0, 0xBF, 1⟩
  else if b = 0xED then some ⟨0xD, 0x80, 0x9F, 1⟩
  else if 0xE1 ≤ b && b ≤ 0xEF then some ⟨b.toNat - 0xE0, 0x80, 0xBF, 1⟩
  else if b = 0xF0 then some ⟨0, 0x90, 0xBF, 2⟩
  else if 0xF1 ≤ b && b ≤ 0xF3 then some ⟨b.toNat - 0xF0, 0x80, 0xBF, 2⟩
  else if b = 0xF4 then some ⟨4, 0x80, 0x8F, 2⟩
  else none

/-- Appends the six bits of a continuation byte. -/
def extend (bits : Nat) (b : UInt8) : Nat := bits * 64 + (b.toNat - 0x80)

/-- Reads the last `more` continuation bytes of a character whose earlier bits are given. -/
def finish (bits : Nat) : Nat → List UInt8 → Char × List UInt8
  | 0, rest => (Char.ofNat bits, rest)
  | _ + 1, [] => (replacement, [])
  | more + 1, b :: rest =>
    if isContinuation b then finish (extend bits b) more rest else (replacement, b :: rest)

/-- The first character, given the first byte, with the bytes after it. -/
def next (b : UInt8) (rest : List UInt8) : Char × List UInt8 :=
  if b < 0x80 then (Char.ofNat b.toNat, rest)
  else match lead? b, rest with
    | some lead, second :: rest' =>
      if lead.low ≤ second && second ≤ lead.high then finish (extend lead.bits second) lead.more rest'
      else (replacement, rest)
    | _, _ => (replacement, rest)

theorem length_finish_le (bits more : Nat) (rest : List UInt8) :
    (finish bits more rest).2.length ≤ rest.length := by
  fun_induction finish bits more rest <;> simp_all
  omega

theorem length_next_le (b : UInt8) (rest : List UInt8) : (next b rest).2.length ≤ rest.length := by
  unfold next
  split
  · simp
  · split
    · split
      · exact Nat.le_trans (length_finish_le ..) (by simp)
      · simp
    · simp

/-- Decodes bytes, with replacement characters where they are not well formed. -/
def decodeLossy : List UInt8 → List Char
  | [] => []
  | b :: rest => (next b rest).1 :: decodeLossy (next b rest).2
termination_by bytes => bytes.length
decreasing_by exact Nat.lt_succ_of_le (length_next_le b rest)

end PLZero.Utf8
