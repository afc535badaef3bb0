import PLZero.Code.Image

/-!
# Images are read back

Reading undoes writing, for numbers, words, instructions and whole programs, whatever bytes follow. So
an image tells where it ends, and none is the beginning of that of another program.
-/

namespace PLZero

/-! ## Numbers -/

namespace Varint

/-- How many numbers have a form of so many bytes. -/
def capacity (lastByte : Nat) : Nat → Nat
  | 0 => 0
  | 1 => lastByte + 1
  | more + 2 => 128 * capacity lastByte (more + 1)

theorem toNat_ofNat {n : Nat} (h : n < 256) : (UInt8.ofNat n).toNat = n := by
  simp [UInt8.toNat_ofNat', Nat.mod_eq_of_lt h]

theorem ofNat_lt_128 {n : Nat} (h : n < 256) : UInt8.ofNat n < 128 ↔ n < 128 := by
  rw [UInt8.lt_iff_toNat_lt, toNat_ofNat h]
  rfl

theorem decodeBytes_encode {lastByte bytes n : Nat} (hlast : lastByte < 128)
    (hn : n < capacity lastByte bytes) (rest : List UInt8) :
    decodeBytes lastByte bytes (encode n ++ rest) = .ok (n, rest) := by
  induction bytes generalizing n with
  | zero => simp [capacity] at hn
  | succ more ih =>
      rw [encode]
      by_cases hsmall : n < 128
      · -- The number is its own last byte, which is tested only where no byte may follow.
        have hbyte := toNat_ofNat (show n < 256 by omega)
        have hfits : ¬ (more = 0 ∧ lastByte < n) := by
          rintro ⟨rfl, hlt⟩
          simp only [capacity] at hn
          omega
        simp [hsmall, decodeBytes, ofNat_lt_128 (show n < 256 by omega), hbyte, hfits]
      · have hbyte := toNat_ofNat (show n % 128 + 128 < 256 by omega)
        have hmore : ¬ UInt8.ofNat (n % 128 + 128) < 128 := by
          rw [ofNat_lt_128 (by omega)]
          omega
        have hhigh : n / 128 < capacity lastByte more := by
          cases more with
          | zero => simp only [capacity] at hn; omega
          | succ more =>
              simp only [capacity] at hn
              exact Nat.div_lt_of_lt_mul hn
        simp only [if_neg hsmall, List.cons_append, decodeBytes, if_neg hmore, ih hhigh, hbyte]
        congr 2
        omega

theorem capacity_word64 : capacity word64.lastByte word64.bytes = UInt64.size := by
  decide

theorem decode_word64 {n : Nat} (hn : n < UInt64.size) (rest : List UInt8) :
    decode word64 (encode n ++ rest) = .ok (n, rest) :=
  decodeBytes_encode (by decide) (capacity_word64 ▸ hn) rest

theorem zigzag_lt (n : Int64) : zigzag n < UInt64.size := by
  have hlt := n.toInt_lt
  have hge := n.le_toInt
  unfold zigzag
  split <;> simp_all [UInt64.size] <;> omega

theorem unzigzag_zigzag (n : Int64) : unzigzag (zigzag n) = n := by
  unfold zigzag unzigzag
  cases h : n.toInt with
  | ofNat m =>
      have heven : 2 * m % 2 = 0 := by omega
      have hhalf : 2 * m / 2 = m := by omega
      simp only [heven, hhalf, if_pos, ← h, Int64.ofInt_toInt]
  | negSucc m =>
      have hodd : (2 * m + 1) % 2 = 1 := by omega
      have hhalf : (2 * m + 1) / 2 = m := by omega
      simp [hodd, hhalf, ← h]

end Varint

/-! ## Instructions and programs -/

namespace Image

theorem number_encode {n : Nat} (hn : n < UInt64.size) (rest : List UInt8) :
    number Varint.word64 (Varint.encode n ++ rest) = .ok (n, rest) := by
  simp [number, Varint.decode_word64 hn]

theorem word_encode (n : Int64) (rest : List UInt8) :
    word (Varint.encode (Varint.zigzag n) ++ rest) = .ok (n, rest) := by
  simp [word, number_encode (Varint.zigzag_lt n), Varint.unzigzag_zigzag, bind, Except.bind, pure, Except.pure]

theorem opcode_encode (op : Opcode) (rest : List UInt8) :
    opcode (Varint.encode op.index ++ rest) = .ok (op, rest) := by
  have hdecode : Varint.decode Varint.word32 (Varint.encode op.index ++ rest) = .ok (op.index, rest) :=
    Varint.decodeBytes_encode (by decide) (by cases op <;> decide) rest
  simp [opcode, number, hdecode, Opcode.ofIndex?_index, bind, Except.bind, pure, Except.pure]

theorem instr_encodeInstr (i : Instr) (rest : List UInt8) :
    instr (encodeInstr i ++ rest) = .ok (i, rest) := by
  simp [instr, encodeInstr, opcode_encode, word_encode, bind, Except.bind, pure, Except.pure]

theorem instrs_flatMap (is : List Instr) (code : Code) (rest : List UInt8) :
    instrs is.length code (is.flatMap encodeInstr ++ rest) = .ok (code ++ is.toArray) := by
  induction is generalizing code with
  | nil => simp [instrs]
  | cons i is ih => simp [instrs, instr_encodeInstr, ih]

theorem decode_encode {code : Code} (hsize : code.size < UInt64.size) (rest : List UInt8) :
    decode (encode code ++ rest) = .ok code := by
  have hinstrs := instrs_flatMap code.toList #[] rest
  simp only [Array.length_toList, Array.empty_append, Array.toArray_toList] at hinstrs
  simp [decode, encode, number_encode hsize, hinstrs, bind, Except.bind]

/-- Programs are equal if the image of one begins with that of the other. -/
theorem eq_of_encode_begins {code code' : Code} (hsize : code.size < UInt64.size)
    (hsize' : code'.size < UInt64.size) (h : encode code <+: encode code') : code = code' := by
  obtain ⟨rest, heq⟩ := h
  have hread := decode_encode hsize rest
  have hread' := decode_encode hsize' []
  rw [List.append_nil, ← heq, hread] at hread'
  exact Except.ok.inj hread'

/-- What is written is read back, whatever follows it, and no image begins with that of another
program. The number of instructions is one that a word holds. -/
theorem decode_encode_append {code : Code} (hsize : code.size < UInt64.size) :
    (∀ rest, decode (encode code ++ rest) = .ok code) ∧
      ∀ code' : Code, code'.size < UInt64.size → code' ≠ code →
        ¬ encode code' <+: encode code ∧ ¬ encode code <+: encode code' := by
  refine ⟨decode_encode hsize, fun code' hsize' hne => ⟨fun h => ?_, fun h => ?_⟩⟩
  · exact hne (eq_of_encode_begins hsize' hsize h)
  · exact hne (eq_of_encode_begins hsize hsize' h).symm

/-- The longest operands, and bytes after the image that look like more of it. -/
theorem decode_encode_append_extremes :
    decode (encode #[⟨.operate, Int64.minValue, Int64.maxValue⟩] ++ [0x80, 0x07])
        = .ok #[⟨.operate, Int64.minValue, Int64.maxValue⟩] ∧
      ¬ encode #[] <+: encode #[⟨.operate, Int64.minValue, Int64.maxValue⟩] := by
  obtain ⟨hread, hother⟩ :=
    @decode_encode_append #[⟨.operate, Int64.minValue, Int64.maxValue⟩] (by decide)
  exact ⟨hread _, (hother #[] (by decide) (by decide)).1⟩

end Image

end PLZero
