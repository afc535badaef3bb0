import Mathlib
import PLZero.Proofs.Numerals
import PLZero.Proofs.Semantics.Primitives

/-!
# Words of the input

Reading takes the words of the input one after the other, whatever the pieces in which the bytes arrive
and whether or not a word stands for an integer.
-/

namespace PLZero.Input

/-- The first word of some bytes, which is empty if there is none, and what follows it. -/
structure FirstWord (bytes word rest : List UInt8) : Prop where
  bytes_eq : ∃ blanks, bytes = blanks ++ word ++ rest ∧ ∀ b ∈ blanks, isBlank b
  not_blank : ∀ b ∈ word, isBlank b = false
  /-- The word goes on to a blank or to the end. -/
  maximal : ∀ b ∈ rest.head?, isBlank b
  rest_eq_nil : word = [] → rest = []

/-- The longest runs of bytes that are no blanks. -/
def words (bytes : List UInt8) : List (List UInt8) := (bytes.splitOnP isBlank).filter (!·.isEmpty)

/-! ## The first word -/

theorem firstWord (bytes : List UInt8) :
    FirstWord bytes ((bytes.dropWhile isBlank).takeWhile fun b => !isBlank b)
      ((bytes.dropWhile isBlank).dropWhile fun b => !isBlank b) := by
  refine ⟨⟨bytes.takeWhile isBlank, ?_, ?_⟩, ?_, ?_, ?_⟩
  · rw [List.append_assoc, List.takeWhile_append_dropWhile, List.takeWhile_append_dropWhile]
  · exact fun b => List.mem_takeWhile_imp
  · exact fun b hb => by simpa using List.mem_takeWhile_imp hb
  · intro b hb
    have hhead := List.head?_dropWhile_not (fun b => !isBlank b) (bytes.dropWhile isBlank)
    rw [Option.mem_def.mp hb] at hhead
    simpa using hhead
  · -- Behind the blanks the bytes start with a word, if any are left.
    have hhead := List.head?_dropWhile_not isBlank bytes
    cases htext : bytes.dropWhile isBlank with
    | nil => exact fun _ => rfl
    | cons b text =>
        rw [htext] at hhead
        have hb : isBlank b = false := by simpa using hhead
        simp [hb]

theorem words_cons_blank {b : UInt8} (hb : isBlank b) (bytes : List UInt8) : words (b :: bytes) = words bytes := by
  simp [words, List.splitOnP_cons_eq_if_modifyHead, hb]

theorem words_append_blanks {blanks : List UInt8} (h : ∀ b ∈ blanks, isBlank b) (bytes : List UInt8) :
    words (blanks ++ bytes) = words bytes := by
  induction blanks with
  | nil => rfl
  | cons b blanks ih =>
      obtain ⟨hb, hblanks⟩ := List.forall_mem_cons.mp h
      rw [List.cons_append, words_cons_blank hb, ih hblanks]

theorem words_append {word rest : List UInt8} (hne : word ≠ []) (hword : ∀ b ∈ word, isBlank b = false)
    (hrest : ∀ b ∈ rest.head?, isBlank b) : words (word ++ rest) = word :: words rest.tail := by
  have hkept : (!word.isEmpty) = true := by simpa using hne
  cases rest with
  | nil => simp [words, List.splitOnP_eq_singleton hword, hkept]
  | cons b rest =>
      rw [words, List.splitOnP_append_cons_of_forall_mem hword b (hrest b rfl)]
      exact List.filter_cons_of_pos hkept

theorem FirstWord.words_eq {bytes word rest : List UInt8} (h : FirstWord bytes word rest) :
    (words bytes).head?.getD [] = word ∧ (words bytes).tail = words rest.tail := by
  obtain ⟨⟨blanks, rfl, hblanks⟩, hword, hrest, hnil⟩ := h
  rw [List.append_assoc, words_append_blanks hblanks]
  by_cases hne : word = []
  · rw [hnil hne, hne]
    exact ⟨rfl, rfl⟩
  · rw [words_append hne hword hrest]
    exact ⟨rfl, rfl⟩

/-! ## Reading -/

/-- Reading takes the first word with the blank after it, and reports what the word stands for. -/
theorem exists_readInt (pieces : List (List UInt8)) :
    ∃ word rest pieces', FirstWord pieces.flatten word rest ∧
      readInt ⟨pieces, none⟩ = (integer word, ⟨pieces', none⟩) ∧ pieces'.flatten = rest.tail := by
  obtain ⟨hbytes, -, hrest⟩ := takeWord_eq [] pieces
  refine ⟨_, _, (takeWord [] pieces).rest, firstWord pieces.flatten, ?_, hrest⟩
  have hword : (takeWord [] pieces).bytes
      = (pieces.flatten.dropWhile isBlank).takeWhile fun b => !isBlank b := hbytes
  rw [← hword]
  unfold readInt
  obtain ⟨word, ended, rest⟩ := takeWord [] pieces
  cases ended <;> rfl

theorem words_readInt {input : Input} (h : input.failure = none) :
    input.readInt.1 = integer ((words input.bytes).head?.getD []) ∧
      words input.readInt.2.bytes = (words input.bytes).tail ∧ input.readInt.2.failure = none := by
  obtain ⟨pieces, failure⟩ := input
  obtain rfl : failure = none := h
  obtain ⟨word, rest, pieces', hword, hread, hrest⟩ := exists_readInt pieces
  obtain ⟨hhead, htail⟩ := hword.words_eq
  rw [hread]
  refine ⟨congrArg integer hhead.symm, ?_, rfl⟩
  exact (congrArg words hrest).trans htail.symm

/-- What successive reads find: each one all that the read before it has left, but in any pieces. -/
structure Successive (inputs : Nat → Input) : Prop where
  failure_eq : ∀ k, (inputs k).failure = none
  bytes_eq : ∀ k, (inputs (k + 1)).bytes = (inputs k).readInt.2.bytes

namespace Successive

variable {inputs : Nat → Input}

theorem words_eq (h : Successive inputs) (k : Nat) :
    words (inputs k).bytes = (words (inputs 0).bytes).drop k := by
  induction k with
  | zero => rfl
  | succ k ih => rw [h.bytes_eq, (words_readInt (h.failure_eq k)).2.1, ih, List.tail_drop]

/-- Every read gets the next word, whether or not the one before it was an integer. -/
theorem readInt_eq (h : Successive inputs) (k : Nat) :
    (inputs k).readInt.1 = integer ((words (inputs 0).bytes)[k]?.getD []) := by
  rw [(words_readInt (h.failure_eq k)).1, h.words_eq, List.head?_drop]

/-- The pieces may stay as they are. -/
theorem iterate (pieces : List (List UInt8)) : Successive fun k => (·.readInt.2)^[k] ⟨pieces, none⟩ := by
  refine ⟨fun k => ?_, fun k => ?_⟩
  · induction k with
    | zero => rfl
    | succ k ih =>
        rw [Function.iterate_succ_apply']
        exact (words_readInt ih).2.2
  · rw [Function.iterate_succ_apply']

end Successive

end PLZero.Input
