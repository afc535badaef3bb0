import PLZero.Proofs.Layout

/-!
# Blocks within blocks

A block of a program together with the blocks around it is a chain, innermost first. The code of an
inner block lies within that of the blocks around it and after their first instruction, and different
procedures of a block do not overlap; so a chain is determined by the entry of its first block.
-/

namespace PLZero

/-! ## Code at an index -/

/-- The instructions stand in the code from `pc` on. -/
def Code.Holds (code : Code) (pc : Nat) (instrs : List Instr) : Prop :=
  ∃ pre post, code.toList = pre ++ instrs ++ post ∧ pre.length = pc

namespace Code.Holds

variable {code : Code} {pc : Nat} {xs ys : List Instr} {i : Instr}

theorem cast {pc' : Nat} (h : code.Holds pc xs) (hpc : pc = pc') : code.Holds pc' xs := hpc ▸ h

theorem left (h : code.Holds pc (xs ++ ys)) : code.Holds pc xs := by
  obtain ⟨pre, post, hcode, rfl⟩ := h
  exact ⟨pre, ys ++ post, by simp [hcode], rfl⟩

theorem right (h : code.Holds pc (xs ++ ys)) : code.Holds (pc + xs.length) ys := by
  obtain ⟨pre, post, hcode, rfl⟩ := h
  exact ⟨pre ++ xs, post, by simp [hcode], by simp⟩

theorem tail (h : code.Holds pc (i :: xs)) : code.Holds (pc + 1) xs := by
  rw [← List.singleton_append] at h
  exact h.right

theorem head (h : code.Holds pc (i :: xs)) : code[pc]? = some i := by
  obtain ⟨pre, post, hcode, rfl⟩ := h
  rw [← Array.getElem?_toList, hcode]
  simp

theorem le_size (h : code.Holds pc xs) : pc + xs.length ≤ code.size := by
  obtain ⟨pre, post, hcode, rfl⟩ := h
  rw [← Array.length_toList, hcode]
  simp

end Code.Holds

/-! ## Chains -/

/-- Procedures one after the other, each with its place. -/
def Placed.list (entry : Nat) : List (Procedure Block) → List (Symbol × Placed)
  | [] => []
  | p :: rest => (p.symbol, ⟨entry, p.block⟩) :: Placed.list (entry + p.block.size) rest

namespace Placed

/-- Where the procedures of a block start. -/
def inner (s : Placed) : Nat := s.entry + (s.block.body.size s.block.level + 2)

/-- Where the code of a block and its procedures ends. -/
def stop (s : Placed) : Nat := s.entry + s.block.size

/-- The procedures that a block declares, with their places. -/
def procedures (s : Placed) : List (Symbol × Placed) := Placed.list s.inner s.block.procedures

end Placed

/-- A block of the program with the blocks around it, innermost first. -/
inductive Nest (program : Block) : List Placed → Prop where
  | program : Nest program [⟨0, program⟩]
  | procedure {s outer x t} : Nest program (s :: outer) → (x, t) ∈ s.procedures →
      Nest program (t :: s :: outer)

namespace Placed

theorem inner_add_sizes (s : Placed) : s.inner + Block.sizes s.block.procedures = s.stop := by
  unfold inner stop
  rw [← Block.length_code .draft s.entry, Block.code_eq]
  simp [Nat.add_assoc]

theorem entry_lt_inner (s : Placed) : s.entry + 1 < s.inner := by
  unfold inner
  omega

theorem entry_lt_stop (s : Placed) : s.entry < s.stop := by
  have := s.inner_add_sizes
  have := s.entry_lt_inner
  omega

theorem mem_list {entry : Nat} {ps : List (Procedure Block)} {x : Symbol} {t : Placed}
    (h : (x, t) ∈ Placed.list entry ps) : entry ≤ t.entry ∧ t.stop ≤ entry + Block.sizes ps := by
  induction ps generalizing entry with
  | nil => simp [Placed.list] at h
  | cons p rest ih =>
      have hsize : Block.sizes (p :: rest) = p.block.size + Block.sizes rest := by
        rw [← Block.length_codes .draft 0, Block.codes_cons]
        simp
      rw [Placed.list, List.mem_cons] at h
      rcases h with h | h
      · cases h
        unfold stop
        exact ⟨Nat.le_refl _, by dsimp only; omega⟩
      · have := ih h
        omega

/-- The procedures of a block lie within it, after its first instruction. -/
theorem mem_procedures {s t : Placed} {x : Symbol} (h : (x, t) ∈ s.procedures) :
    s.entry + 1 < t.entry ∧ t.stop ≤ s.stop := by
  have := mem_list h
  have := s.inner_add_sizes
  have := s.entry_lt_inner
  omega

/-- Procedures of one list that share an index are the same. -/
theorem eq_of_overlap {entry : Nat} {ps : List (Procedure Block)} {x y : Symbol} {t u : Placed}
    (ht : (x, t) ∈ Placed.list entry ps) (hu : (y, u) ∈ Placed.list entry ps)
    (h : t.entry < u.stop) (h' : u.entry < t.stop) : t = u := by
  induction ps generalizing entry with
  | nil => simp [Placed.list] at ht
  | cons p rest ih =>
      rw [Placed.list, List.mem_cons] at ht hu
      rcases ht with ht | ht
      · rcases hu with hu | hu
        · cases ht
          cases hu
          rfl
        · have := mem_list hu
          cases ht
          unfold stop at h'
          dsimp only at h'
          omega
      · rcases hu with hu | hu
        · have := mem_list ht
          cases hu
          unfold stop at h
          dsimp only at h
          omega
        · exact ih ht hu

end Placed

namespace Nest

variable {program : Block} {s t : Placed} {outer chain : List Placed}

theorem ne_nil (h : Nest program chain) : chain ≠ [] := by
  cases h <;> simp

theorem tail (h : Nest program (s :: t :: outer)) : Nest program (t :: outer) ∧ ∃ x, (x, s) ∈ t.procedures := by
  cases h with
  | procedure h hx => exact ⟨h, _, hx⟩

theorem suffix {inner : List Placed} (h : Nest program (inner ++ t :: outer)) : Nest program (t :: outer) := by
  induction inner with
  | nil => exact h
  | cons s inner ih =>
      cases inner with
      | nil => exact h.tail.1
      | cons _ _ => exact ih h.tail.1

/-- A block lies within the blocks around it, after their first instruction. -/
theorem within (h : Nest program (s :: outer)) (ht : t ∈ outer) : t.entry < s.entry ∧ s.stop ≤ t.stop := by
  induction outer generalizing s with
  | nil => simp at ht
  | cons u outer ih =>
      obtain ⟨h', x, hx⟩ := h.tail
      have := Placed.mem_procedures hx
      rcases List.mem_cons.mp ht with rfl | ht
      · omega
      · have := ih h' ht
        omega

theorem length_le_entry (h : Nest program (s :: outer)) : outer.length ≤ s.entry := by
  induction outer generalizing s with
  | nil => exact Nat.zero_le _
  | cons u outer ih =>
      obtain ⟨h', x, hx⟩ := h.tail
      have := Placed.mem_procedures hx
      have := ih h'
      rw [List.length_cons]
      omega

theorem program_suffix (h : Nest program chain) : [⟨0, program⟩] <:+ chain := by
  induction h with
  | program => exact List.suffix_rfl
  | procedure _ _ ih => exact ih.trans (List.suffix_cons _ _)

/-- Two blocks that share an index are one within the other. -/
theorem suffix_of_overlap {outer' : List Placed} (h : Nest program (s :: outer))
    (h' : Nest program (t :: outer')) (hst : s.entry < t.stop) (hts : t.entry < s.stop) :
    s :: outer <:+ t :: outer' ∨ t :: outer' <:+ s :: outer := by
  induction outer generalizing s with
  | nil =>
      cases h with
      | program => exact .inl h'.program_suffix
  | cons u outer ih =>
      obtain ⟨hu, x, hx⟩ := h.tail
      have := Placed.mem_procedures hx
      rcases ih hu (by omega) (by omega) with ⟨inner, heq⟩ | hsuffix
      · -- The other block is `u` or lies within it; then it is in the same procedure of `u`.
        rcases List.eq_nil_or_concat inner with rfl | ⟨inner', c, rfl⟩
        · exact .inr ⟨[s], by rw [← heq]; rfl⟩
        · rw [List.concat_eq_append, List.append_assoc, List.singleton_append] at heq
          have hc : Nest program (c :: u :: outer) := by
            rw [← heq] at h'
            exact h'.suffix
          obtain ⟨-, y, hy⟩ := hc.tail
          have hwithin : c.entry ≤ t.entry ∧ t.stop ≤ c.stop := by
            cases inner' with
            | nil =>
                obtain rfl := (List.cons.inj heq).1
                exact ⟨Nat.le_refl _, Nat.le_refl _⟩
            | cons _ rest =>
                obtain ⟨rfl, rfl⟩ := List.cons.inj heq
                have := h'.within (t := c) (by simp)
                exact ⟨Nat.le_of_lt this.1, this.2⟩
          obtain rfl := Placed.eq_of_overlap hx hy (by omega) (by omega)
          exact .inl ⟨inner', heq⟩
      · exact .inr (hsuffix.trans (List.suffix_cons _ _))

/-- A block of the program is determined by its entry, with the blocks around it. -/
theorem eq_of_entry_eq {outer' : List Placed} (h : Nest program (s :: outer))
    (h' : Nest program (t :: outer')) (heq : s.entry = t.entry) : s :: outer = t :: outer' := by
  have hs := s.entry_lt_stop
  have ht := t.entry_lt_stop
  rcases h.suffix_of_overlap h' (by omega) (by omega) with ⟨inner, hinner⟩ | ⟨inner, hinner⟩
  · cases inner with
    | nil => exact hinner
    | cons u rest =>
        obtain ⟨rfl, rfl⟩ := List.cons.inj hinner
        have := h'.within (t := s) (by simp)
        omega
  · cases inner with
    | nil => exact hinner.symm
    | cons u rest =>
        obtain ⟨rfl, rfl⟩ := List.cons.inj hinner
        have := h.within (t := t) (by simp)
        omega

/-! ## The code of a block in the program -/

theorem holds_list {code : Code} {link : Linkage} {entry : Nat} {ps : List (Procedure Block)} {x : Symbol}
    (h : code.Holds entry (Block.codes link entry ps)) (ht : (x, t) ∈ Placed.list entry ps) :
    code.Holds t.entry (t.block.code link t.entry) := by
  induction ps generalizing entry with
  | nil => simp [Placed.list] at ht
  | cons p rest ih =>
      rw [Block.codes_cons] at h
      rw [Placed.list, List.mem_cons] at ht
      rcases ht with ht | ht
      · cases ht
        exact h.left
      · have := h.right
        rw [Block.length_code] at this
        exact ih this ht

/-- The code of every block stands at its entry. -/
theorem holds {code : Code} {link : Linkage} (hcode : code.toList = program.code link 0)
    (h : Nest program (s :: outer)) : code.Holds s.entry (s.block.code link s.entry) := by
  induction outer generalizing s with
  | nil =>
      cases h with
      | program => exact ⟨[], [], by simp [hcode], rfl⟩
  | cons u outer ih =>
      obtain ⟨hu, x, hx⟩ := h.tail
      have := ih hu
      rw [Block.code_eq] at this
      have := this.right
      rw [Block.length_segment] at this
      exact holds_list this hx

theorem mem_placesIn {entry : Nat} {ps : List (Procedure Block)} {x : Symbol}
    (h : (x, t) ∈ Placed.list entry ps) :
    (x, t) ∈ Block.placesIn entry ps ∧ ∀ p ∈ t.block.places t.entry, p ∈ Block.placesIn entry ps := by
  induction ps generalizing entry with
  | nil => simp [Placed.list] at h
  | cons p rest ih =>
      rw [Placed.list, List.mem_cons] at h
      simp only [Block.placesIn, List.mem_cons, List.mem_append]
      rcases h with h | h
      · cases h
        exact ⟨.inl rfl, fun p hp => .inr (.inl hp)⟩
      · obtain ⟨hx, hinner⟩ := ih h
        exact ⟨.inr (.inr hx), fun p hp => .inr (.inr (hinner p hp))⟩

theorem mem_places {x : Symbol} (h : (x, t) ∈ s.procedures) :
    (x, t) ∈ s.block.places s.entry ∧ ∀ p ∈ t.block.places t.entry, p ∈ s.block.places s.entry := by
  obtain ⟨entry, level, count, consts, vars, procedures, body⟩ := s
  exact mem_placesIn h

theorem places_subset (h : Nest program (s :: outer)) :
    ∀ p ∈ s.block.places s.entry, p ∈ program.places 0 := by
  induction outer generalizing s with
  | nil =>
      cases h with
      | program => exact fun p hp => hp
  | cons u outer ih =>
      obtain ⟨hu, x, hx⟩ := h.tail
      exact fun p hp => ih hu p ((mem_places hx).2 p hp)

end Nest

end PLZero
