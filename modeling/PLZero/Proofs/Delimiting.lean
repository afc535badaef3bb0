import PLZero.Proofs.RoundTrip

/-!
# Images tell where they end

A number may be written with more bytes than it needs, and what follows an image is ignored. Even so a
reader takes a definite part of the bytes (`Takes`): with anything else after that part it reads the same,
and a part that is cut short is refused for its early end. Of all forms of a value, the written one is the
only one of least length (`Least`).
-/

namespace PLZero

/-! ## Parts of bytes -/

/-- A reader takes exactly these bytes for a value: it leaves what follows them, and refuses every shorter
part of them, since the bytes end too early. -/
structure Takes {ε α : Type} (early : ε) (read : List UInt8 → Except ε (α × List UInt8)) (a : α)
    (taken : List UInt8) : Prop where
  append : ∀ rest, read (taken ++ rest) = .ok (a, rest)
  truncated : ∀ part, part <+: taken → part ≠ taken → read part = .error early

/-- The written form is at most as long as the one that was read, and the same if it is not shorter. -/
def Least (written taken : List UInt8) : Prop :=
  written.length ≤ taken.length ∧ (written.length = taken.length → written = taken)

theorem Least.append {written taken written' taken' : List UInt8} (h : Least written taken)
    (h' : Least written' taken') : Least (written ++ written') (taken ++ taken') := by
  obtain ⟨hle, heq⟩ := h
  obtain ⟨hle', heq'⟩ := h'
  refine ⟨?_, fun hlength => ?_⟩
  · simp only [List.length_append]
    omega
  · simp only [List.length_append] at hlength
    rw [heq (by omega), heq' (by omega)]

/-- A shorter part of two pieces ends in the first one, or is the first one with less of the second. -/
theorem truncated_append {part taken taken' : List UInt8} (h : part <+: taken ++ taken')
    (hne : part ≠ taken ++ taken') :
    part <+: taken ∧ part ≠ taken ∨ ∃ part', part = taken ++ part' ∧ part' <+: taken' ∧ part' ≠ taken' := by
  by_cases htaken : taken <+: part
  · obtain ⟨part', rfl⟩ := htaken
    right
    refine ⟨part', rfl, (List.prefix_append_right_inj taken).mp h, ?_⟩
    rintro rfl
    exact hne rfl
  · left
    refine ⟨?_, ?_⟩
    · rcases List.prefix_or_prefix_of_prefix h (List.prefix_append taken taken') with h | h
      · exact h
      · exact absurd h htaken
    · rintro rfl
      exact htaken List.prefix_rfl

namespace Takes

variable {ε α β : Type} {early : ε} {read : List UInt8 → Except ε (α × List UInt8)} {a : α}
  {taken taken' : List UInt8}

theorem bind {k : α → List UInt8 → Except ε (β × List UInt8)} {b : β} (h : Takes early read a taken)
    (h' : Takes early (k a) b taken') :
    Takes early (fun bytes => read bytes >>= fun x => k x.1 x.2) b (taken ++ taken') := by
  refine ⟨fun rest => ?_, fun part hpart hne => ?_⟩
  · simp only [List.append_assoc, h.append]
    exact h'.append rest
  · rcases truncated_append hpart hne with ⟨hpart, hne⟩ | ⟨part', rfl, hpart', hne'⟩
    · simp only [h.truncated part hpart hne]
      rfl
    · simp only [h.append]
      exact h'.truncated part' hpart' hne'

theorem map (h : Takes early read a taken) (f : α → β) :
    Takes early (fun bytes => read bytes >>= fun x => pure (f x.1, x.2)) (f a) taken := by
  refine ⟨fun rest => ?_, fun part hpart hne => ?_⟩
  · simp only [h.append]
    rfl
  · simp only [h.truncated part hpart hne]
    rfl

end Takes

/-- Whatever the reader accepts, it takes a definite part of it, and of the forms of a value that it
accepts the written one is the least. -/
def Delimits {ε α : Type} (early : ε) (read : List UInt8 → Except ε (α × List UInt8))
    (write : α → List UInt8) : Prop :=
  ∀ bytes a rest, read bytes = .ok (a, rest) →
    ∃ taken, bytes = taken ++ rest ∧ Takes early read a taken ∧ Least (write a) taken

/-! ## Numbers -/

namespace Varint

theorem encode_ne_nil (n : Nat) : encode n ≠ [] := by
  rw [encode]
  split <;> simp

theorem takes_last {lastByte more : Nat} {byte : UInt8} (hbyte : byte < 128)
    (hlast : ¬ (more = 0 ∧ lastByte < byte.toNat)) :
    Takes .unexpectedEnd (decodeBytes lastByte (more + 1)) byte.toNat [byte] := by
  refine ⟨fun rest => ?_, fun part hpart hne => ?_⟩
  · simp [decodeBytes, hbyte, hlast]
  · rcases List.prefix_cons_iff.mp hpart with rfl | ⟨tail, rfl, htail⟩
    · rfl
    · simp [List.prefix_nil.mp htail] at hne

theorem takes_cons {lastByte more high : Nat} {byte : UInt8} {taken : List UInt8} (hbyte : ¬ byte < 128)
    (h : Takes .unexpectedEnd (decodeBytes lastByte more) high taken) :
    Takes .unexpectedEnd (decodeBytes lastByte (more + 1)) (byte.toNat - 128 + 128 * high) (byte :: taken) := by
  refine ⟨fun rest => ?_, fun part hpart hne => ?_⟩
  · simp [decodeBytes, hbyte, h.append]
  · rcases List.prefix_cons_iff.mp hpart with rfl | ⟨tail, rfl, htail⟩
    · rfl
    · have htruncated := h.truncated tail htail (by simpa using hne)
      simp [decodeBytes, hbyte, htruncated]

/-- A byte with the high bit set in front of a form of the higher groups. -/
theorem least_cons {byte : UInt8} {high : Nat} {taken : List UInt8} (hbyte : ¬ byte < 128)
    (h : Least (encode high) taken) : Least (encode (byte.toNat - 128 + 128 * high)) (byte :: taken) := by
  rw [UInt8.lt_iff_toNat_lt] at hbyte
  have hge : 128 ≤ byte.toNat := Nat.not_lt.mp hbyte
  have hlt := byte.toNat_lt
  obtain ⟨hle, heq⟩ := h
  rw [encode]
  split
  · -- The higher groups are all zero, and one byte would have been enough.
    have hpos : 0 < (encode high).length := List.length_pos_iff.mpr (encode_ne_nil high)
    refine ⟨by simp, fun hlength => ?_⟩
    simp only [List.length_cons, List.length_nil] at hlength
    omega
  · have hlow : (byte.toNat - 128 + 128 * high) % 128 + 128 = byte.toNat := by omega
    have hhigh : (byte.toNat - 128 + 128 * high) / 128 = high := by omega
    rw [hlow, hhigh, UInt8.ofNat_toNat]
    refine ⟨by simpa using hle, fun hlength => ?_⟩
    rw [heq (by simpa using hlength)]

theorem delimits_decodeBytes (lastByte bytes : Nat) :
    Delimits .unexpectedEnd (decodeBytes lastByte bytes) encode := by
  induction bytes with
  | zero =>
      intro bytes n rest h
      simp [decodeBytes] at h
  | succ more ih =>
      intro bytes n rest h
      cases bytes with
      | nil => simp [decodeBytes] at h
      | cons byte bytes =>
          rw [decodeBytes] at h
          split at h
          · next hbyte =>
            split at h
            · cases h
            · next hlast =>
              cases h
              have hlt : byte.toNat < 128 := UInt8.lt_iff_toNat_lt.mp hbyte
              refine ⟨[byte], rfl, takes_last hbyte hlast, ?_⟩
              rw [encode, if_pos hlt, UInt8.ofNat_toNat]
              exact ⟨Nat.le_refl _, fun _ => rfl⟩
          · next hbyte =>
            split at h
            · next high rest' hhigh =>
              cases h
              obtain ⟨taken, rfl, htakes, hleast⟩ := ih bytes high rest hhigh
              exact ⟨byte :: taken, rfl, takes_cons hbyte htakes, least_cons hbyte hleast⟩
            · cases h

theorem capacity_pos (lastByte more : Nat) : 0 < capacity lastByte (more + 1) := by
  induction more with
  | zero => exact Nat.succ_pos lastByte
  | succ more ih => exact Nat.mul_pos (by decide) ih

/-- A number that is read fits the width. -/
theorem lt_capacity_of_decodeBytes {lastByte bytes n : Nat} {input rest : List UInt8}
    (h : decodeBytes lastByte bytes input = .ok (n, rest)) : n < capacity lastByte bytes := by
  induction bytes generalizing input n rest with
  | zero => simp [decodeBytes] at h
  | succ more ih =>
      cases input with
      | nil => simp [decodeBytes] at h
      | cons byte input =>
          rw [decodeBytes] at h
          split at h
          · next hbyte =>
            split at h
            · cases h
            · next hfits =>
              cases h
              rw [UInt8.lt_iff_toNat_lt] at hbyte
              have hlt : byte.toNat < 128 := hbyte
              cases more with
              | zero =>
                  simp only [capacity]
                  omega
              | succ more =>
                  have hpos : 0 < capacity lastByte (more + 1) := capacity_pos lastByte more
                  simp only [capacity]
                  omega
          · split at h
            · next high rest' hhigh =>
              cases h
              have hbound := ih hhigh
              have hlt := byte.toNat_lt
              cases more with
              | zero => simp [capacity] at hbound
              | succ more =>
                  simp only [capacity]
                  omega
            · cases h

theorem zigzag_of_nonneg {v : Int64} {k : Nat} (h : v.toInt = .ofNat k) : zigzag v = 2 * k := by
  simp only [zigzag, h]

theorem zigzag_of_neg {v : Int64} {k : Nat} (h : v.toInt = .negSucc k) : zigzag v = 2 * k + 1 := by
  simp only [zigzag, h]

theorem zigzag_unzigzag {n : Nat} (h : n < UInt64.size) : zigzag (unzigzag n) = n := by
  have hhalf : n / 2 < 0x8000000000000000 := by
    unfold UInt64.size at h
    omega
  unfold unzigzag
  split
  · rw [zigzag_of_nonneg (k := n / 2) (Int64.toInt_ofInt_of_le (by simp; omega) (by simp; omega))]
    omega
  · rw [zigzag_of_neg (k := n / 2) (Int64.toInt_ofInt_of_le (by omega) (by omega))]
    omega

end Varint

/-! ## Instructions and programs -/

theorem Opcode.index_of_ofIndex? {n : Nat} {op : Opcode} (h : ofIndex? n = some op) : op.index = n := by
  obtain ⟨hn, rfl⟩ := List.getElem?_eq_some_iff.mp h
  have hn : n < 8 := hn
  match n with
  | 0 | 1 | 2 | 3 | 4 | 5 | 6 | 7 => rfl

namespace Image

theorem number_eq_ok {width : Varint.Width} {bytes rest : List UInt8} {n : Nat} :
    number width bytes = .ok (n, rest) ↔ Varint.decode width bytes = .ok (n, rest) := by
  unfold number
  cases Varint.decode width bytes <;> simp

theorem delimits_number (width : Varint.Width) :
    Delimits .unexpectedEnd (number width) Varint.encode := by
  intro bytes n rest h
  obtain ⟨taken, hbytes, htakes, hleast⟩ :=
    Varint.delimits_decodeBytes width.lastByte width.bytes bytes n rest (number_eq_ok.mp h)
  refine ⟨taken, hbytes, ⟨fun rest => number_eq_ok.mpr (htakes.append rest), fun part hpart hne => ?_⟩, hleast⟩
  simp [number, Varint.decode, htakes.truncated part hpart hne, ofVarintError]

theorem number_lt {bytes rest : List UInt8} {n : Nat} (h : number Varint.word64 bytes = .ok (n, rest)) :
    n < UInt64.size := by
  rw [← Varint.capacity_word64]
  exact Varint.lt_capacity_of_decodeBytes (number_eq_ok.mp h)

theorem bind_eq_ok {α β : Type} {x : Except ImageError α} {f : α → Except ImageError β} {b : β}
    (h : x >>= f = .ok b) : ∃ a, x = .ok a ∧ f a = .ok b := by
  cases x with
  | error e => cases h
  | ok a => exact ⟨a, rfl, h⟩

theorem delimits_word : Delimits .unexpectedEnd word fun v => Varint.encode (Varint.zigzag v) := by
  intro bytes v rest h
  obtain ⟨⟨n, middle⟩, hnumber, hv⟩ := bind_eq_ok h
  cases hv
  obtain ⟨taken, hbytes, htakes, hleast⟩ := delimits_number _ bytes n rest hnumber
  have hfold := Varint.zigzag_unzigzag (number_lt hnumber)
  refine ⟨taken, hbytes, htakes.map Varint.unzigzag, ?_⟩
  simpa only [hfold] using hleast

theorem takes_opcode {n : Nat} {op : Opcode} {taken : List UInt8}
    (h : Takes .unexpectedEnd (number Varint.word32) n taken) (hop : Opcode.ofIndex? n = some op) :
    Takes .unexpectedEnd opcode op taken := by
  refine ⟨fun rest => ?_, fun part hpart hne => ?_⟩
  · simp [opcode, h.append, hop, bind, Except.bind, pure, Except.pure]
  · simp [opcode, h.truncated part hpart hne, bind, Except.bind]

theorem delimits_opcode : Delimits .unexpectedEnd opcode fun op => Varint.encode op.index := by
  intro bytes op rest h
  obtain ⟨⟨n, middle⟩, hnumber, hop⟩ := bind_eq_ok h
  cases hindex : Opcode.ofIndex? n with
  | none =>
      simp only [hindex] at hop
      cases hop
  | some op' =>
      simp only [hindex] at hop
      cases hop
      obtain ⟨taken, hbytes, htakes, hleast⟩ := delimits_number _ bytes n rest hnumber
      refine ⟨taken, hbytes, takes_opcode htakes hindex, ?_⟩
      simpa only [Opcode.index_of_ofIndex? hindex] using hleast

theorem delimits_instr : Delimits .unexpectedEnd instr encodeInstr := by
  intro bytes i rest h
  obtain ⟨⟨op, bytes₁⟩, hop, h⟩ := bind_eq_ok h
  obtain ⟨⟨level, bytes₂⟩, hlevel, h⟩ := bind_eq_ok h
  obtain ⟨⟨address, bytes₃⟩, haddress, h⟩ := bind_eq_ok h
  cases h
  obtain ⟨taken, rfl, htakes, hleast⟩ := delimits_opcode bytes op bytes₁ hop
  obtain ⟨taken₁, rfl, htakes₁, hleast₁⟩ := delimits_word bytes₁ level bytes₂ hlevel
  obtain ⟨taken₂, rfl, htakes₂, hleast₂⟩ := delimits_word bytes₂ address rest haddress
  have hoperands := htakes₁.bind (k := fun level bytes => word bytes >>= fun x => pure (Instr.mk op level x.1, x.2))
    (htakes₂.map (Instr.mk op level))
  have hinstr := htakes.bind (k := fun op bytes => word bytes >>= fun x =>
    word x.2 >>= fun y => pure (Instr.mk op x.1 y.1, y.2)) hoperands
  refine ⟨taken ++ (taken₁ ++ taken₂), by simp only [List.append_assoc], hinstr, ?_⟩
  rw [encodeInstr, List.append_assoc]
  exact hleast.append (hleast₁.append hleast₂)

/-- Reads the given number of instructions, and leaves the bytes after them. -/
def readInstrs : Nat → List UInt8 → Except ImageError (List Instr × List UInt8)
  | 0, bytes => .ok ([], bytes)
  | n + 1, bytes => do
    let (i, bytes) ← instr bytes
    let (is, bytes) ← readInstrs n bytes
    return (i :: is, bytes)

theorem instrs_eq (n : Nat) (code : Code) (bytes : List UInt8) :
    instrs n code bytes = (readInstrs n bytes).map fun x => code ++ x.1.toArray := by
  induction n generalizing code bytes with
  | zero => simp [instrs, readInstrs, Except.map]
  | succ n ih =>
      rw [instrs, readInstrs]
      cases instr bytes with
      | error e => rfl
      | ok result =>
          obtain ⟨i, rest⟩ := result
          simp only [ih, bind, Except.bind]
          cases readInstrs n rest with
          | error e => rfl
          | ok result => simp [Except.map, pure, Except.pure]

theorem delimits_readInstrs (n : Nat) :
    Delimits .unexpectedEnd (readInstrs n) fun is => is.flatMap encodeInstr := by
  induction n with
  | zero =>
      intro bytes is rest h
      cases h
      refine ⟨[], rfl, ⟨fun _ => rfl, fun part hpart hne => ?_⟩, Nat.le_refl _, fun _ => rfl⟩
      exact absurd (List.prefix_nil.mp hpart) hne
  | succ n ih =>
      intro bytes is rest h
      obtain ⟨⟨i, middle⟩, hi, h⟩ := bind_eq_ok h
      obtain ⟨⟨is', rest'⟩, his, h⟩ := bind_eq_ok h
      cases h
      obtain ⟨taken, rfl, htakes, hleast⟩ := delimits_instr bytes i middle hi
      obtain ⟨taken', rfl, htakes', hleast'⟩ := ih middle is' rest his
      have hboth := htakes.bind (k := fun i bytes => readInstrs n bytes >>= fun x => pure (i :: x.1, x.2))
        (htakes'.map (i :: ·))
      refine ⟨taken ++ taken', by rw [List.append_assoc], hboth, ?_⟩
      simpa only [List.flatMap_cons] using hleast.append hleast'

theorem length_readInstrs {n : Nat} {bytes rest : List UInt8} {is : List Instr}
    (h : readInstrs n bytes = .ok (is, rest)) : is.length = n := by
  induction n generalizing bytes is with
  | zero =>
      cases h
      rfl
  | succ n ih =>
      obtain ⟨⟨i, middle⟩, -, h⟩ := bind_eq_ok h
      obtain ⟨⟨is', rest'⟩, his, h⟩ := bind_eq_ok h
      cases h
      rw [List.length_cons, ih his]

/-- The reader of a whole image, with the bytes after it. -/
def readImage (bytes : List UInt8) : Except ImageError (List Instr × List UInt8) := do
  let (size, bytes) ← number Varint.word64 bytes
  readInstrs size bytes

theorem decode_eq (bytes : List UInt8) :
    decode bytes = (readImage bytes).map fun x => x.1.toArray := by
  unfold decode readImage
  cases number Varint.word64 bytes with
  | error e => rfl
  | ok result => simp [bind, Except.bind, instrs_eq]

theorem delimits_readImage : Delimits .unexpectedEnd readImage fun is => encode is.toArray := by
  intro bytes is rest h
  obtain ⟨⟨n, middle⟩, hn, his⟩ := bind_eq_ok h
  obtain ⟨taken, rfl, htakes, hleast⟩ := delimits_number _ bytes n middle hn
  obtain ⟨taken', rfl, htakes', hleast'⟩ := delimits_readInstrs n middle is rest his
  refine ⟨taken ++ taken', by rw [List.append_assoc], htakes.bind (k := readInstrs) htakes', ?_⟩
  rw [← length_readInstrs his] at hleast
  simpa [encode] using hleast.append hleast'

/-- The bytes that are read as a program begin with a part that alone decides: it is read as this program
whatever follows it, and less of it is refused for its early end. The written image is at most as long as
that part, and the same if it is not shorter. -/
theorem decode_delimited {bytes : List UInt8} {code : Code} (h : decode bytes = .ok code) :
    ∃ taken, taken <+: bytes ∧ (∀ rest, decode (taken ++ rest) = .ok code) ∧
      (∀ part, part <+: taken → part ≠ taken → decode part = .error .unexpectedEnd) ∧
      (encode code).length ≤ taken.length ∧ ((encode code).length = taken.length → encode code = taken) := by
  rw [decode_eq] at h
  cases himage : readImage bytes with
  | error e =>
      rw [himage] at h
      cases h
  | ok result =>
      obtain ⟨is, rest⟩ := result
      rw [himage] at h
      cases h
      obtain ⟨taken, rfl, htakes, hleast⟩ := delimits_readImage bytes is rest himage
      refine ⟨taken, List.prefix_append _ _, fun rest => ?_, fun part hpart hne => ?_, hleast⟩
      · rw [decode_eq, htakes.append]
        rfl
      · rw [decode_eq, htakes.truncated part hpart hne]
        rfl

/-- An image of one instruction whose size and level are longer than they need be, and a byte after it. -/
def padded : List UInt8 := [0x81, 0x00, 0x00, 0x80, 0x80, 0x00, 0x02, 0xFF]

theorem decode_delimited_padded :
    decode padded = .ok #[⟨.loadConst, 0, 1⟩] ∧
      ∃ taken, taken <+: padded ∧ (∀ rest, decode (taken ++ rest) = .ok #[⟨.loadConst, 0, 1⟩]) ∧
        (∀ part, part <+: taken → part ≠ taken → decode part = .error .unexpectedEnd) ∧
        (encode #[⟨.loadConst, 0, 1⟩]).length < taken.length := by
  have hdecode : decode padded = .ok #[⟨.loadConst, 0, 1⟩] := by
    simp [decode, padded, number, instrs, instr, opcode, word, Varint.decode, Varint.decodeBytes, Varint.word32,
      Varint.word64, Varint.unzigzag, Opcode.ofIndex?, Opcode.all, bind, Except.bind, pure, Except.pure]
  obtain ⟨taken, hpart, hread, htruncated, hle, heq⟩ := decode_delimited hdecode
  refine ⟨hdecode, taken, hpart, hread, htruncated, Nat.lt_of_le_of_ne hle fun hlength => ?_⟩
  have hwritten : encode #[⟨.loadConst, 0, 1⟩] = [0x01, 0x00, 0x00, 0x02] := by
    simp [encode, encodeInstr, Varint.encode, Varint.zigzag, Opcode.index]
  rw [← heq hlength, hwritten] at hpart
  exact absurd hpart (by decide)

end Image

end PLZero
