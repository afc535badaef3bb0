import Mathlib
import PLZero.Machine.Channel
import PLZero.Proofs.Lexing

/-!
# Numerals

An integer is written in decimal as digits, with a minus sign in front if it is negative, and it is read back
from them. A word of the input stands for an integer if it is a numeral: an optional sign and at least one
digit. Words are decoded before they are read, and no byte outside ASCII decodes to a sign or a digit.
-/

namespace PLZero

/-! ## Integers in decimal -/

namespace Decimal

theorem value_toDigits (n : Nat) : value (Nat.toDigits 10 n) = n :=
  Nat.ofDigitChars_toDigits (by omega) (by omega)

theorem isDigit_of_mem_toDigits {n : Nat} {c : Char} (h : c ∈ Nat.toDigits 10 n) : c.isDigit :=
  Nat.isDigit_of_mem_toDigits (by omega) (by omega) h

theorem toList_ofInt_natCast (n : Nat) : (ofInt n).toList = Nat.toDigits 10 n := by
  simp [ofInt, Int.repr, Nat.repr_eq_ofList_toDigits]

theorem toList_ofInt_negSucc (n : Nat) : (ofInt (.negSucc n)).toList = '-' :: Nat.toDigits 10 (n + 1) := by
  simp [ofInt, Int.repr, Nat.repr_eq_ofList_toDigits]

theorem toList_ofInt64 {v : Int64} (h : 0 ≤ v) : (ofInt64 v).toList = Nat.toDigits 10 v.toInt.toNat := by
  have hv : ((v.toInt.toNat : Nat) : Int) = v.toInt := Int.toNat_of_nonneg (Int64.le_iff_toInt_le.mp h)
  rw [ofInt64, ← hv, toList_ofInt_natCast, Int.toNat_natCast]

theorem isDigit_or_minus_of_mem_ofInt {n : Int} {c : Char} (h : c ∈ (ofInt n).toList) : c.isDigit ∨ c = '-' := by
  cases n with
  | ofNat n =>
      rw [Int.ofNat_eq_natCast, toList_ofInt_natCast] at h
      exact .inl (isDigit_of_mem_toDigits h)
  | negSucc n =>
      rw [toList_ofInt_negSucc] at h
      rcases List.mem_cons.mp h with rfl | h
      · exact .inr rfl
      · exact .inl (isDigit_of_mem_toDigits h)

theorem not_mem_toDigits {c : Char} (hc : c.isDigit = false) (n : Nat) : c ∉ Nat.toDigits 10 n := by
  intro h
  simp [isDigit_of_mem_toDigits h] at hc

theorem not_mem_ofInt {c : Char} (hc : c.isDigit = false) (hminus : c ≠ '-') (n : Int) : c ∉ (ofInt n).toList := by
  intro h
  have hdigit := (isDigit_or_minus_of_mem_ofInt h).resolve_right hminus
  simp [hdigit] at hc

theorem isDigit_of_natural? {text : List Char} {n : Nat} (h : natural? text = some n) : ∀ c ∈ text, c.isDigit := by
  unfold natural? at h
  split at h
  · next hdigits => exact List.all_eq_true.mp hdigits.2
  · cases h

theorem natural?_toDigits (n : Nat) : natural? (Nat.toDigits 10 n) = some n := by
  have hall := List.all_eq_true.mpr fun c hc => isDigit_of_mem_toDigits (n := n) (c := c) hc
  rw [natural?, if_pos ⟨Nat.toDigits_ne_nil, hall⟩, value_toDigits]

theorem natural?_ofInt (n : Nat) : natural? (ofInt n).toList = some n := by
  rw [toList_ofInt_natCast, natural?_toDigits]

/-- Digits do not start with a sign. -/
theorem integer?_of_natural? {text : List Char} {n : Nat} (h : natural? text = some n) :
    integer? text = some (n : Int) := by
  have hsign : ∀ (c : Char) (digits : List Char), c.isDigit = false → text ≠ c :: digits := by
    rintro c digits hc rfl
    simp [isDigit_of_natural? h c List.mem_cons_self] at hc
  rw [integer?, h]
  · rfl
  · exact fun digits => hsign '+' digits rfl
  · exact fun digits => hsign '-' digits rfl

/-- What is written is read back. -/
theorem integer?_ofInt (n : Int) : integer? (ofInt n).toList = some n := by
  cases n with
  | ofNat n => exact integer?_of_natural? (natural?_ofInt n)
  | negSucc n =>
      have hdigits := natural?_toDigits (n + 1)
      rw [toList_ofInt_negSucc, integer?, hdigits]
      rfl

theorem int64?_eq_some {text : List Char} {v : Int64} : int64? text = some v ↔ integer? text = some v.toInt := by
  have hbound : ((int64Bound : Nat) : Int) = 2 ^ 63 := rfl
  unfold int64?
  cases integer? text with
  | none => simp
  | some n =>
      rw [hbound, Option.some.injEq]
      by_cases hn : -2 ^ 63 ≤ n ∧ n < 2 ^ 63
      · simp only [if_pos hn, Option.some.injEq]
        rw [← Int64.toInt_inj, Int64.toInt_ofInt_of_le hn.1 hn.2]
      · simp only [if_neg hn, reduceCtorEq, false_iff]
        rintro rfl
        exact hn ⟨v.le_toInt, v.toInt_lt⟩

theorem int64?_ofInt64 (v : Int64) : int64? (ofInt64 v).toList = some v :=
  int64?_eq_some.mpr (integer?_ofInt v.toInt)

theorem ofInt64_inj {v v' : Int64} (h : ofInt64 v = ofInt64 v') : v = v' := by
  have hread := int64?_ofInt64 v
  rw [h, int64?_ofInt64] at hread
  exact (Option.some.inj hread).symm

theorem toDigits_append_inj {m n : Nat} {rest rest' : List Char} (hrest : Stops Char.isDigit rest)
    (hrest' : Stops Char.isDigit rest') (h : Nat.toDigits 10 m ++ rest = Nat.toDigits 10 n ++ rest') :
    m = n ∧ rest = rest' := by
  obtain ⟨hdigits, hrest⟩ := Stops.append_inj (fun _ => isDigit_of_mem_toDigits)
    (fun _ => isDigit_of_mem_toDigits) hrest hrest' h
  exact ⟨by rw [← value_toDigits m, hdigits, value_toDigits], hrest⟩

/-- Two numbers with fixed texts around them. -/
theorem numerals_inj {front middle back : List Char} {c d : Char} (hc : c.isDigit = false) (hd : d.isDigit = false)
    {k l m n : Nat}
    (h : front ++ (Nat.toDigits 10 k ++ (c :: middle ++ (Nat.toDigits 10 l ++ d :: back))) =
      front ++ (Nat.toDigits 10 m ++ (c :: middle ++ (Nat.toDigits 10 n ++ d :: back)))) : k = m ∧ l = n := by
  obtain ⟨hk, hrest⟩ := toDigits_append_inj (by simpa [Stops] using hc) (by simpa [Stops] using hc)
    (List.append_cancel_left h)
  obtain ⟨hl, -⟩ := toDigits_append_inj (by simpa [Stops] using hd) (by simpa [Stops] using hd)
    (List.append_cancel_left hrest)
  exact ⟨hk, hl⟩

end Decimal

/-! ## Bytes outside ASCII -/

namespace Utf8

/-- No character of ASCII but the first one, which also stands for a number that is no character. -/
def Foreign (c : Char) : Prop := c.toNat = 0 ∨ 0x80 ≤ c.toNat

theorem foreign_ofNat {n : Nat} (h : 0x80 ≤ n) : Foreign (Char.ofNat n) := by
  unfold Foreign
  rw [Char.toNat_ofNat]
  split
  · exact .inr h
  · exact .inl rfl

theorem foreign_replacement : Foreign replacement := .inr (by decide)

theorem foreign_finish {bits more : Nat} {rest : List UInt8} (hbits : 2 ≤ bits)
    (hlast : more = 0 → 0x80 ≤ bits) : Foreign (finish bits more rest).1 := by
  fun_induction finish bits more rest with
  | case1 bits rest => exact foreign_ofNat (hlast rfl)
  | case2 bits more => exact foreign_replacement
  | case3 bits more b rest hb ih =>
      have hextend : 0x80 ≤ extend bits b := by
        unfold extend
        omega
      exact ih (by omega) fun _ => hextend
  | case4 bits more b rest hb => exact foreign_replacement

/-- The second byte of a character is restricted so that there are no overlong forms. -/
theorem le_extend_of_lead {b second : UInt8} {lead : Lead} (hlead : lead? b = some lead)
    (hlow : lead.low ≤ second) :
    2 ≤ extend lead.bits second ∧ (lead.more = 0 → 0x80 ≤ extend lead.bits second) := by
  unfold lead? at hlead
  unfold extend
  repeat' split at hlead
  all_goals simp_all only [UInt8.le_iff_toNat_le, Option.some.injEq, reduceCtorEq, Bool.and_eq_true,
    decide_eq_true_eq]
  all_goals
    subst hlead
    simp_all
    omega

theorem foreign_next {b : UInt8} (hb : ¬ b < 0x80) (rest : List UInt8) : Foreign (next b rest).1 := by
  unfold next
  rw [if_neg hb]
  cases hlead : lead? b with
  | none => exact foreign_replacement
  | some lead =>
      cases rest with
      | nil => exact foreign_replacement
      | cons second rest =>
          dsimp only
          split
          · next hrange =>
            obtain ⟨hlow, -⟩ : lead.low ≤ second ∧ second ≤ lead.high := by simpa using hrange
            obtain ⟨hbits, hlast⟩ := le_extend_of_lead hlead hlow
            exact foreign_finish hbits hlast
          · exact foreign_replacement

/-- The character of ASCII that a byte stands for. -/
def asciiChar (b : UInt8) : Char := Char.ofNat b.toNat

theorem decodeLossy_cons {b : UInt8} (hb : b < 0x80) (rest : List UInt8) :
    decodeLossy (b :: rest) = asciiChar b :: decodeLossy rest := by
  have hnext : next b rest = (asciiChar b, rest) := if_pos hb
  rw [decodeLossy, hnext]

theorem decodeLossy_ascii {bytes : List UInt8} (h : ∀ b ∈ bytes, b < 0x80) :
    decodeLossy bytes = bytes.map asciiChar := by
  induction bytes with
  | nil => rw [decodeLossy, List.map_nil]
  | cons b bytes ih =>
      obtain ⟨hb, hbytes⟩ := List.forall_mem_cons.mp h
      rw [decodeLossy_cons hb, ih hbytes, List.map_cons]

theorem ascii_of_decodeLossy {bytes : List UInt8} (h : ∀ c ∈ decodeLossy bytes, ¬ Foreign c) :
    ∀ b ∈ bytes, b < 0x80 := by
  induction bytes with
  | nil => simp
  | cons b bytes ih =>
      by_cases hb : b < 0x80
      · rw [decodeLossy_cons hb] at h
        exact List.forall_mem_cons.mpr ⟨hb, ih (List.forall_mem_cons.mp h).2⟩
      · rw [decodeLossy] at h
        exact absurd (foreign_next hb bytes) (h _ List.mem_cons_self)

theorem toNat_asciiChar {b : UInt8} (hb : b < 0x80) : (asciiChar b).toNat = b.toNat := by
  rw [UInt8.lt_iff_toNat_lt] at hb
  have hvalid : b.toNat.isValidChar := .inl (Nat.lt_trans hb (by decide))
  rw [asciiChar, Char.toNat_ofNat, if_pos hvalid]

theorem toUInt8_asciiChar {b : UInt8} (hb : b < 0x80) : (asciiChar b).toUInt8 = b := by
  have hnat : (asciiChar b).val.toNat = b.toNat := toNat_asciiChar hb
  rw [← UInt8.toNat_inj, Char.toUInt8, UInt32.toNat_toUInt8, hnat]
  exact Nat.mod_eq_of_lt b.toNat_lt

/-! ## Text in bytes -/

/-- The bytes of text. -/
def bytes (text : String) : List UInt8 := text.toUTF8.data.toList

theorem bytes_append (s t : String) : bytes (s ++ t) = bytes s ++ bytes t := by
  simp [bytes, String.toUTF8]

theorem utf8EncodeChar_ascii {c : Char} (h : c.toNat < 0x80) : String.utf8EncodeChar c = [c.toUInt8] := by
  have hle : c.val.toNat ≤ 0x7F := Nat.le_of_lt_succ h
  exact if_pos hle

theorem bytes_ascii {text : String} (h : ∀ c ∈ text.toList, c.toNat < 0x80) :
    bytes text = text.toList.map Char.toUInt8 := by
  have hencode : text.toUTF8 = (text.toList.flatMap String.utf8EncodeChar).toByteArray :=
    String.utf8Encode_toList.symm
  rw [bytes, hencode, List.data_toByteArray, List.flatMap_congr fun c hc => utf8EncodeChar_ascii (h c hc),
    ← List.map_eq_flatMap]

theorem toNat_toUInt8 {c : Char} (h : c.toNat < 0x80) : c.toUInt8.toNat = c.toNat := by
  rw [Char.toUInt8, UInt32.toNat_toUInt8]
  exact Nat.mod_eq_of_lt (Nat.lt_trans h (by decide))

theorem asciiChar_toUInt8 {c : Char} (h : c.toNat < 0x80) : asciiChar c.toUInt8 = c := by
  rw [asciiChar, toNat_toUInt8 h, Char.ofNat_toNat]

/-- Text of ASCII is read as it was written. -/
theorem decodeLossy_bytes {text : String} (h : ∀ c ∈ text.toList, c.toNat < 0x80) :
    decodeLossy (bytes text) = text.toList := by
  have hascii : ∀ b ∈ text.toList.map Char.toUInt8, b < 0x80 := by
    rw [List.forall_mem_map]
    intro c hc
    rw [UInt8.lt_iff_toNat_lt, toNat_toUInt8 (h c hc)]
    exact h c hc
  rw [bytes_ascii h, decodeLossy_ascii hascii, List.map_map]
  exact (List.map_congr_left fun c hc => asciiChar_toUInt8 (h c hc)).trans (List.map_id' _)

end Utf8

/-! ## Numerals in bytes -/

/-- One digit or more. -/
structure Digits (digits : List UInt8) : Prop where
  ne_nil : digits ≠ []
  digit : ∀ d ∈ digits, '0'.toUInt8 ≤ d ∧ d ≤ '9'.toUInt8

/-- The value of digits, the most significant one first. -/
def Digits.value (digits : List UInt8) : Nat :=
  Nat.ofDigits 10 (digits.reverse.map fun d => d.toNat - '0'.toNat)

theorem Digits.ascii {digits : List UInt8} (h : Digits digits) : ∀ d ∈ digits, d < 0x80 := by
  intro d hd
  have hle := (h.digit d hd).2
  exact UInt8.lt_of_le_of_lt hle (by decide)

theorem Digits.value_append_singleton (digits : List UInt8) (d : UInt8) :
    value (digits ++ [d]) = 10 * value digits + (d.toNat - '0'.toNat) := by
  simp only [value, List.reverse_append, List.reverse_singleton, List.singleton_append, List.map_cons,
    Nat.ofDigits_cons, Nat.add_comm]

/-- The bytes of an integer in decimal. Only one sign may stand in front of the digits. -/
inductive Numeral : List UInt8 → Int → Prop where
  | unsigned {digits} : Digits digits → Numeral digits (Digits.value digits)
  | plus {digits} : Digits digits → Numeral ('+'.toUInt8 :: digits) (Digits.value digits)
  | minus {digits} : Digits digits → Numeral ('-'.toUInt8 :: digits) (-Digits.value digits)

namespace Numeral

variable {word : List UInt8} {n : Int}

theorem ascii (h : Numeral word n) : ∀ b ∈ word, b < 0x80 := by
  cases h with
  | unsigned hd => exact hd.ascii
  | plus hd | minus hd => exact List.forall_mem_cons.mpr ⟨by decide, hd.ascii⟩

theorem ne_nil (h : Numeral word n) : word ≠ [] := by
  cases h with
  | unsigned hd => exact hd.ne_nil
  | plus | minus => exact List.cons_ne_nil _ _

theorem not_blank (h : Numeral word n) : ∀ b ∈ word, Input.isBlank b = false := by
  have hdigits : ∀ digits, Digits digits → ∀ b ∈ digits, Input.isBlank b = false := by
    intro digits hd b hb
    have hle : '0'.toUInt8 ≤ b := (hd.digit b hb).1
    -- All blanks are below the digits.
    simp only [Input.isBlank, Bool.or_eq_false_iff, decide_eq_false_iff_not]
    refine ⟨⟨⟨⟨?_, ?_⟩, ?_⟩, ?_⟩, ?_⟩ <;> rintro rfl <;> exact absurd hle (by decide)
  cases h with
  | unsigned hd => exact hdigits _ hd
  | plus hd | minus hd => exact List.forall_mem_cons.mpr ⟨by decide, hdigits _ hd⟩

end Numeral

namespace Decimal

open Utf8 (Foreign asciiChar)

theorem not_foreign_of_isDigit {c : Char} (h : c.isDigit) : ¬ Foreign c := by
  have hrange : 48 ≤ c.toNat ∧ c.toNat ≤ 57 := Char.isDigit_iff_toNat.mp h
  unfold Foreign
  omega

theorem not_foreign_of_natural? {text : List Char} {n : Nat} (h : natural? text = some n) :
    ∀ c ∈ text, ¬ Foreign c :=
  fun c hc => not_foreign_of_isDigit (isDigit_of_natural? h c hc)

theorem not_foreign_of_integer? {text : List Char} {n : Int} (h : integer? text = some n) :
    ∀ c ∈ text, ¬ Foreign c := by
  have hplus : ¬ Foreign '+' := by unfold Foreign; decide
  have hminus : ¬ Foreign '-' := by unfold Foreign; decide
  unfold integer? at h
  split at h
  all_goals obtain ⟨k, hk, -⟩ := Option.map_eq_some_iff.mp h
  · exact List.forall_mem_cons.mpr ⟨hplus, not_foreign_of_natural? hk⟩
  · exact List.forall_mem_cons.mpr ⟨hminus, not_foreign_of_natural? hk⟩
  · exact not_foreign_of_natural? hk

theorem isDigit_asciiChar {b : UInt8} (hb : b < 0x80) :
    (asciiChar b).isDigit ↔ '0'.toUInt8 ≤ b ∧ b ≤ '9'.toUInt8 := by
  rw [Char.isDigit_iff_toNat, Utf8.toNat_asciiChar hb, UInt8.le_iff_toNat_le, UInt8.le_iff_toNat_le]
  rfl

theorem value_append_singleton (digits : List Char) (d : Char) :
    value (digits ++ [d]) = 10 * value digits + (d.toNat - '0'.toNat) := by
  simp [value]

theorem value_map_asciiChar {digits : List UInt8} (h : ∀ d ∈ digits, d < 0x80) :
    value (digits.map asciiChar) = Digits.value digits := by
  induction digits using List.reverseRecOn with
  | nil => rfl
  | append_singleton digits d ih =>
      obtain ⟨hdigits, hd⟩ := List.forall_mem_append.mp h
      rw [List.map_append, List.map_singleton, value_append_singleton, Digits.value_append_singleton,
        ih hdigits, Utf8.toNat_asciiChar (hd d (by simp))]

theorem natural?_map_asciiChar {digits : List UInt8} (h : ∀ d ∈ digits, d < 0x80) {n : Nat} :
    natural? (digits.map asciiChar) = some n ↔ Digits digits ∧ Digits.value digits = n := by
  have hdigits : (digits.map asciiChar ≠ [] ∧ (digits.map asciiChar).all Char.isDigit) ↔ Digits digits := by
    rw [List.all_eq_true, List.forall_mem_map]
    constructor
    · rintro ⟨hne, hall⟩
      exact ⟨by simpa using hne, fun d hd => (isDigit_asciiChar (h d hd)).mp (hall d hd)⟩
    · rintro ⟨hne, hall⟩
      exact ⟨by simpa using hne, fun d hd => (isDigit_asciiChar (h d hd)).mpr (hall d hd)⟩
  unfold natural?
  rw [value_map_asciiChar h]
  split
  · next hd => simp [hdigits.mp hd]
  · next hd => simp [mt hdigits.mpr hd]

theorem exists_of_map_asciiChar {word : List UInt8} (h : ∀ b ∈ word, b < 0x80) {c : Char} {text : List Char}
    (hword : word.map asciiChar = c :: text) :
    ∃ digits, word = c.toUInt8 :: digits ∧ digits.map asciiChar = text ∧ ∀ d ∈ digits, d < 0x80 := by
  obtain ⟨b, digits, rfl, rfl, htext⟩ := List.map_eq_cons_iff.mp hword
  obtain ⟨hb, hdigits⟩ := List.forall_mem_cons.mp h
  exact ⟨digits, by rw [Utf8.toUInt8_asciiChar hb], htext, hdigits⟩

theorem numeral_of_integer? {word : List UInt8} (h : ∀ b ∈ word, b < 0x80) {n : Int}
    (hn : integer? (word.map asciiChar) = some n) : Numeral word n := by
  generalize htext : word.map asciiChar = text at hn
  unfold integer? at hn
  split at hn
  all_goals obtain ⟨k, hk, rfl⟩ := Option.map_eq_some_iff.mp hn
  · obtain ⟨digits, rfl, rfl, hdigits⟩ := exists_of_map_asciiChar h htext
    obtain ⟨hd, rfl⟩ := (natural?_map_asciiChar hdigits).mp hk
    exact .plus hd
  · obtain ⟨digits, rfl, rfl, hdigits⟩ := exists_of_map_asciiChar h htext
    obtain ⟨hd, rfl⟩ := (natural?_map_asciiChar hdigits).mp hk
    exact .minus hd
  · rw [← htext] at hk
    obtain ⟨hd, rfl⟩ := (natural?_map_asciiChar h).mp hk
    exact .unsigned hd

theorem integer?_of_numeral {word : List UInt8} {n : Int} (h : Numeral word n) :
    integer? (word.map asciiChar) = some n := by
  cases h with
  | unsigned hd => exact integer?_of_natural? ((natural?_map_asciiChar hd.ascii).mpr ⟨hd, rfl⟩)
  | @plus digits hd =>
      have hnatural := (natural?_map_asciiChar hd.ascii).mpr ⟨hd, rfl⟩
      exact congrArg (Option.map Int.ofNat) hnatural
  | @minus digits hd =>
      have hnatural := (natural?_map_asciiChar hd.ascii).mpr ⟨hd, rfl⟩
      exact congrArg (Option.map fun n => -Int.ofNat n) hnatural

theorem integer?_decodeLossy {word : List UInt8} {n : Int} :
    integer? (Utf8.decodeLossy word) = some n ↔ Numeral word n := by
  constructor
  · intro h
    have hascii := Utf8.ascii_of_decodeLossy (not_foreign_of_integer? h)
    rw [Utf8.decodeLossy_ascii hascii] at h
    exact numeral_of_integer? hascii h
  · intro h
    rw [Utf8.decodeLossy_ascii h.ascii]
    exact integer?_of_numeral h

/-- A value is written as a numeral of it. -/
theorem numeral_ofInt64 (v : Int64) : Numeral (Utf8.bytes (ofInt64 v)) v.toInt := by
  have hread : integer? (ofInt64 v).toList = some v.toInt := integer?_ofInt v.toInt
  have hascii : ∀ c ∈ (ofInt64 v).toList, c.toNat < 0x80 := by
    intro c hc
    have hc := not_foreign_of_integer? hread c hc
    unfold Foreign at hc
    omega
  rw [← integer?_decodeLossy, Utf8.decodeLossy_bytes hascii, hread]

end Decimal

/-! ## Words of the input -/

namespace Input

theorem integer_eq_ok {word : List UInt8} {v : Int64} : integer word = .ok v ↔ Numeral word v.toInt := by
  have hvalue : Decimal.int64? (Utf8.decodeLossy word) = some v ↔ Numeral word v.toInt :=
    Decimal.int64?_eq_some.trans Decimal.integer?_decodeLossy
  cases word with
  | nil =>
      have hnil : ¬ Numeral [] v.toInt := fun h => h.ne_nil rfl
      simp [integer, hnil]
  | cons b word =>
      rw [← hvalue]
      cases hv : Decimal.int64? (Utf8.decodeLossy (b :: word)) <;> simp [integer, hv]

theorem integer_eq_endOfInput {word : List UInt8} : integer word = .error .endOfInput ↔ word = [] := by
  cases word with
  | nil => simp [integer]
  | cons b word => cases hv : Decimal.int64? (Utf8.decodeLossy (b :: word)) <;> simp [integer, hv]

theorem integer_eq_notAnInteger {word : List UInt8} {text : String} :
    integer word = .error (.notAnInteger text) ↔
      word ≠ [] ∧ (∀ v : Int64, ¬ Numeral word v.toInt) ∧ text = String.ofList (Utf8.decodeLossy word) := by
  simp only [← integer_eq_ok]
  cases word with
  | nil => simp [integer]
  | cons b word =>
      cases hv : Decimal.int64? (Utf8.decodeLossy (b :: word)) with
      | none => simp [integer, hv, eq_comm]
      | some v => simp [integer, hv]

end Input

end PLZero
