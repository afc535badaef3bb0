import PLZero.Machine
import PLZero.Proofs.Semantics

/-!
# The primitives of the machine

The operators of the machine compute on words what the meaning computes on integers, and input that
arrives in pieces is read as if it were whole.
-/

namespace PLZero

/-! ## Operators -/

theorem BinaryOp.ofInt_truth (p q : Prop) [Decidable p] [Decidable q] (h : p ↔ q) :
    Int64.ofInt (Semantics.truth p) = BinaryOp.truth q := by
  unfold Semantics.truth BinaryOp.truth
  by_cases hp : p
  · rw [if_pos hp, if_pos (h.mp hp)]
    rfl
  · rw [if_neg hp, if_neg (hp ∘ h.mpr)]
    rfl

theorem Semantics.apply_eq {op : Token} {operator : BinaryOp} (hop : BinaryOp.ofToken? op = some operator)
    (a b : Int64) (σ : State) :
    apply op a b σ = match operator.apply a b with
      | .ok v => .ok v σ
      | .error fault => .error (.failed fault) σ := by
  have hzero : b.toInt = 0 ↔ b = 0 := by
    rw [← Int64.toInt_inj]
    rfl
  unfold BinaryOp.ofToken? at hop
  split at hop
  all_goals cases hop
  · show EStateM.Result.ok _ σ = .ok _ σ
    rw [Int64.ofInt_add, Int64.ofInt_toInt, Int64.ofInt_toInt]
  · show EStateM.Result.ok _ σ = .ok _ σ
    rw [Int64.ofInt_sub, Int64.ofInt_toInt, Int64.ofInt_toInt]
  · show EStateM.Result.ok _ σ = .ok _ σ
    rw [Int64.ofInt_mul, Int64.ofInt_toInt, Int64.ofInt_toInt]
  · unfold apply operation? BinaryOp.apply
    by_cases hb : b = 0
    · simp only [hb, ↓reduceIte]
      rfl
    · simp only [hb, mt hzero.mp hb, ↓reduceIte]
      show EStateM.Result.ok _ σ = .ok _ σ
      rw [(Int64.ofInt_eq_iff_bmod_eq_toInt _ _).mpr (Int64.toInt_div a b).symm]
  · exact congrArg (EStateM.Result.ok · σ) (BinaryOp.ofInt_truth _ _ Int64.toInt_inj)
  · exact congrArg (EStateM.Result.ok · σ) (BinaryOp.ofInt_truth _ _ (not_congr Int64.toInt_inj))
  · exact congrArg (EStateM.Result.ok · σ) (BinaryOp.ofInt_truth _ _ Int64.lt_iff_toInt_lt.symm)
  · exact congrArg (EStateM.Result.ok · σ) (BinaryOp.ofInt_truth _ _ Int64.le_iff_toInt_le.symm)
  · exact congrArg (EStateM.Result.ok · σ) (BinaryOp.ofInt_truth _ _ Int64.lt_iff_toInt_lt.symm)
  · exact congrArg (EStateM.Result.ok · σ) (BinaryOp.ofInt_truth _ _ Int64.le_iff_toInt_le.symm)

theorem Semantics.ofInt_tmod_two (a : Int64) : Int64.ofInt (a.toInt.tmod 2) = a % 2 := by
  have := Int64.toInt_mod a 2
  rw [← Int64.ofInt_toInt (a % 2), this]
  rfl

/-! ## Input -/

namespace Input

/-- What is left to look at after a word has started, or before one has. -/
def ahead (word : List UInt8) (bytes : List UInt8) : List UInt8 :=
  if word.isEmpty then bytes.dropWhile isBlank else bytes

theorem ahead_append (word front back : List UInt8) :
    ahead word (front ++ back) = ahead word front ++ ahead (word ++ ahead word front) back := by
  unfold ahead
  cases word with
  | nil =>
      rw [List.nil_append, List.dropWhile_append]
      cases front.dropWhile isBlank <;> rfl
  | cons b word => rfl

/-- The word of an input in pieces is that of all bytes, and so is the rest. -/
theorem takeWord_eq (word : List UInt8) (pieces : List (List UInt8)) :
    let text := ahead word pieces.flatten
    let rest := text.dropWhile fun b => !isBlank b
    let taken := takeWord word pieces
    taken.bytes = word ++ text.takeWhile (fun b => !isBlank b) ∧ taken.ended = !rest.isEmpty ∧
      taken.rest.flatten = rest.tail := by
  induction pieces generalizing word with
  | nil => cases word <;> simp [takeWord, ahead]
  | cons piece pieces ih =>
      have hpiece : (if word.isEmpty then piece.dropWhile isBlank else piece) = ahead word piece := rfl
      simp only [takeWord, List.flatten_cons, ahead_append, hpiece]
      generalize ahead word piece = front
      have hsplit := List.takeWhile_append_dropWhile (p := fun b => !isBlank b) (l := front)
      cases hrest : front.dropWhile fun b => !isBlank b with
      | nil =>
          -- No blank ends the word here, so it goes on in the next piece.
          rw [hrest, List.append_nil] at hsplit
          obtain ⟨hbytes, hended, hflatten⟩ := ih (word ++ front)
          simp only [hsplit]
          refine ⟨?_, ?_, ?_⟩
          · rw [hbytes, List.takeWhile_append, hsplit, if_pos rfl, List.append_assoc]
          · rw [hended, List.dropWhile_append, hrest]
            rfl
          · rw [hflatten, List.dropWhile_append, hrest]
            rfl
      | cons b rest =>
          have hne : (front.takeWhile fun b => !isBlank b).length ≠ front.length := by
            intro h
            have := congrArg List.length hsplit
            rw [hrest, List.length_append, List.length_cons] at this
            omega
          have hahead : ahead (word ++ front) pieces.flatten = pieces.flatten := by
            have hfront : front ≠ [] := by
              rintro rfl
              cases hrest
            simp [ahead, hfront]
          rw [hahead, List.takeWhile_append, if_neg hne, List.dropWhile_append, hrest]
          exact ⟨rfl, rfl, rfl⟩

theorem readInt_eq (input : Input) :
    input.readInt.1 = (Semantics.Supply.ofInput input).next.1 ∧
      Semantics.Supply.ofInput input.readInt.2 = (Semantics.Supply.ofInput input).next.2 := by
  obtain ⟨hbytes, hended, hrest⟩ := takeWord_eq [] input.pieces
  simp only [ahead, List.isEmpty_nil, if_true, List.nil_append] at hbytes hended hrest
  unfold readInt Semantics.Supply.next Semantics.Supply.ofInput bytes
  simp only [hbytes, hended, hrest]
  cases (input.pieces.flatten.dropWhile isBlank).dropWhile fun b => !isBlank b with
  | nil => cases input.failure <;> exact ⟨rfl, rfl⟩
  | cons b rest => exact ⟨rfl, rfl⟩

end Input

end PLZero
