import PLZero.Machine.CallStack
import PLZero.Proofs.Layout.Nesting

/-!
# Activations and static links

Which block a frame is an activation of, and where its static links lead: to the most recent activation
of each block around it. This depends only on the entries and static links of the frames, their
skeleton, so that work on values and locals keeps it; a call keeps it because the new link is found by
following links from the caller.
-/

namespace PLZero

/-- The entry and the static link of each frame, outermost first. -/
abbrev Skeleton := Array (Nat × Option Nat)

def Frame.bone (f : Frame) : Nat × Option Nat := (f.entry, f.staticLink)

def CallStack.skeleton (s : CallStack) : Skeleton := s.frames.map Frame.bone

/-! ## Static chains -/

/-- The static chain of frame `i` goes through frames of the blocks of a chain, and ends there. -/
inductive Activates (sk : Skeleton) : Nat → List Placed → List Nat → Prop where
  | program {i t} : sk[i]? = some (t.entry, none) → Activates sk i [t] [i]
  | procedure {i j t u outer links} : sk[i]? = some (t.entry, some j) →
      Activates sk j (u :: outer) links → Activates sk i (t :: u :: outer) (i :: links)

namespace Activates

variable {sk : Skeleton} {i : Nat} {chain : List Placed} {links : List Nat}

theorem length_eq (h : Activates sk i chain links) : links.length = chain.length := by
  induction h with
  | program => rfl
  | procedure _ _ ih => simp [ih]

theorem lt_size (h : Activates sk i chain links) : i < sk.size := by
  cases h with
  | program h => exact (Array.getElem?_eq_some_iff.mp h).1
  | procedure h _ => exact (Array.getElem?_eq_some_iff.mp h).1

theorem getElem?_push_of_some {x y : Nat × Option Nat} (h : sk[i]? = some y) :
    (sk.push x)[i]? = some y := by
  obtain ⟨hi, hy⟩ := Array.getElem?_eq_some_iff.mp h
  rw [Array.getElem?_push_lt hi, hy]

theorem push (h : Activates sk i chain links) (x : Nat × Option Nat) :
    Activates (sk.push x) i chain links := by
  induction h with
  | program h => exact .program (getElem?_push_of_some h)
  | procedure h _ ih => exact .procedure (getElem?_push_of_some h) ih

/-- The static chain from a block around is the rest of the chain. -/
theorem suffix {inner outer : List Placed} {t : Placed} (h : Activates sk i (inner ++ t :: outer) links) :
    ∃ j, links[inner.length]? = some j ∧ Activates sk j (t :: outer) (links.drop inner.length) := by
  induction inner generalizing i links with
  | nil =>
      refine ⟨i, ?_, h⟩
      cases h <;> rfl
  | cons s inner ih =>
      cases inner with
      | nil =>
          cases h with
          | procedure _ h => exact ih h
      | cons _ _ =>
          cases h with
          | procedure _ h => exact ih h

/-- Following static links goes along the static chain and no further. -/
theorem follow_eq {s : CallStack} (h : Activates s.skeleton i chain links) {k : Nat}
    (hk : k ≤ links.length) : s.follow k i = links[k]? := by
  induction h generalizing k with
  | @program i t h =>
      cases k with
      | zero => rfl
      | succ k =>
          obtain rfl : k = 0 := by simpa using hk
          obtain ⟨f, hf, hbone⟩ : ∃ f, s.frames[i]? = some f ∧ f.bone = (t.entry, none) := by
            simpa [CallStack.skeleton] using h
          have hlink : f.staticLink = none := congrArg Prod.snd hbone
          simp [CallStack.follow, hf, hlink]
  | @procedure i j t u outer links h _ ih =>
      cases k with
      | zero => rfl
      | succ k =>
          obtain ⟨f, hf, hbone⟩ : ∃ f, s.frames[i]? = some f ∧ f.bone = (t.entry, some j) := by
            simpa [CallStack.skeleton] using h
          have hlink : f.staticLink = some j := congrArg Prod.snd hbone
          simp only [CallStack.follow, hf, hlink, List.getElem?_cons_succ]
          exact ih (by simpa using hk)

theorem congr {sk' : Skeleton} (h : Activates sk i chain links) (hsk : ∀ j ∈ links, sk'[j]? = sk[j]?) :
    Activates sk' i chain links := by
  induction h with
  | program h => exact .program ((hsk _ List.mem_cons_self).trans h)
  | procedure h _ ih =>
      exact .procedure ((hsk _ List.mem_cons_self).trans h) (ih fun j hj => hsk j (List.mem_cons_of_mem _ hj))

theorem entry_of_mem (h : Activates sk i chain links) {j : Nat} (hj : j ∈ links) :
    ∃ t ∈ chain, ∃ link, sk[j]? = some (t.entry, link) := by
  induction h with
  | @program i t h =>
      obtain rfl := List.mem_singleton.mp hj
      exact ⟨t, List.mem_cons_self, none, h⟩
  | @procedure i j' t u outer links h _ ih =>
      rcases List.mem_cons.mp hj with rfl | hj
      · exact ⟨t, List.mem_cons_self, some j', h⟩
      · obtain ⟨v, hv, link, hlink⟩ := ih hj
        exact ⟨v, List.mem_cons_of_mem _ hv, link, hlink⟩

theorem nodup {program : Block} (h : Activates sk i chain links) (hnest : Nest program chain) :
    links.Nodup := by
  induction h with
  | program => simp
  | @procedure i j t u outer links h hj ih =>
      refine List.nodup_cons.mpr ⟨?_, ih hnest.tail.1⟩
      -- The other frames are activations of blocks around, which start earlier.
      intro hmem
      obtain ⟨v, hv, link, hlink⟩ := hj.entry_of_mem hmem
      rw [h, Option.some.injEq, Prod.mk.injEq] at hlink
      have := (hnest.within hv).1
      omega

end Activates

/-- Frame `j` is the last one up to `i` that is an activation of the block at `entry`. -/
structure Recent (sk : Skeleton) (i entry j : Nat) : Prop where
  le : j ≤ i
  entry_eq : ∃ link, sk[j]? = some (entry, link)
  last : ∀ k link, j < k → k ≤ i → sk[k]? ≠ some (entry, link)

/-- Frame `i` is an activation of the first block of a chain: its static links lead to the most recent
activations of the blocks around it. -/
structure Activation (program : Block) (sk : Skeleton) (i : Nat) (chain : List Placed) (links : List Nat) :
    Prop where
  nest : Nest program chain
  static : Activates sk i chain links
  recent : ∀ (k : Nat) (t : Placed) (j : Nat), chain[k]? = some t → links[k]? = some j → Recent sk i t.entry j

/-- Every frame is an activation of a block of the program, and only the first one of the program. -/
def Linked (program : Block) (sk : Skeleton) : Prop :=
  ∀ i < sk.size, ∃ chain links, Activation program sk i chain links ∧ (0 < i → 1 < chain.length)

namespace Activation

variable {program : Block} {sk : Skeleton} {i : Nat} {chain : List Placed} {links : List Nat}

theorem push (h : Activation program sk i chain links) (x : Nat × Option Nat) :
    Activation program (sk.push x) i chain links := by
  refine ⟨h.nest, h.static.push x, ?_⟩
  intro k t j ht hj
  obtain ⟨hle, ⟨link, hlink⟩, hlast⟩ := h.recent k t j ht hj
  refine ⟨hle, ⟨link, Activates.getElem?_push_of_some hlink⟩, ?_⟩
  intro k' link' hk hk'
  have := h.static.lt_size
  rw [Array.getElem?_push_lt (by omega), ← Array.getElem?_eq_getElem (by omega)]
  exact hlast k' link' hk hk'

/-- A call makes an activation whose static link is found from the caller. -/
theorem call {inner outer : List Placed} {t u : Placed} {x : Symbol} {j : Nat}
    (h : Activation program sk i (inner ++ t :: outer) links) (hi : i + 1 = sk.size)
    (hx : (x, u) ∈ t.procedures) (hj : links[inner.length]? = some j) :
    Activation program (sk.push (u.entry, some j)) sk.size (u :: t :: outer)
      (sk.size :: links.drop inner.length) := by
  obtain ⟨j', hj', hstatic⟩ := h.static.suffix
  obtain rfl : j' = j := by simpa [hj'] using hj
  have hnest : Nest program (u :: t :: outer) := .procedure h.nest.suffix hx
  refine ⟨hnest, .procedure (by simp) (hstatic.push _), ?_⟩
  intro k v l hv hl
  cases k with
  | zero =>
      cases hv
      cases hl
      exact ⟨Nat.le_refl _, ⟨some j', by simp⟩, fun k _ hk hk' => by omega⟩
  | succ k =>
      -- The same frame as from the caller, and the new frame is of another block.
      rw [List.getElem?_cons_succ] at hv hl
      rw [List.getElem?_drop] at hl
      have hrecent := (h.push (u.entry, some j')).recent (inner.length + k) v l
        (by rw [List.getElem?_append_right (Nat.le_add_right _ _), Nat.add_sub_cancel_left]; exact hv) hl
      have hlt : v.entry < u.entry := (hnest.within (List.mem_of_getElem? hv)).1
      refine ⟨by have := hrecent.le; omega, hrecent.entry_eq, ?_⟩
      intro k' link hk hk'
      rcases Nat.lt_or_eq_of_le hk' with hk' | rfl
      · exact hrecent.last k' link hk (by omega)
      · rw [Array.getElem?_push_size]
        intro heq
        have : u.entry = v.entry := congrArg Prod.fst (Option.some.inj heq)
        omega

theorem le_of_mem (h : Activation program sk i chain links) {j : Nat} (hj : j ∈ links) : j ≤ i := by
  obtain ⟨k, hk⟩ := List.getElem?_of_mem hj
  have hlt : k < chain.length := h.static.length_eq ▸ (List.getElem?_eq_some_iff.mp hk).1
  exact (h.recent k chain[k] j (List.getElem?_eq_getElem hlt) hk).le

theorem nodup (h : Activation program sk i chain links) : links.Nodup :=
  h.static.nodup h.nest

/-- What a static chain does not go through does not matter to it. -/
theorem of_push {x : Nat × Option Nat} (h : Activation program (sk.push x) i chain links)
    (hi : i < sk.size) : Activation program sk i chain links := by
  have hsame : ∀ j, j ≤ i → (sk.push x)[j]? = sk[j]? := fun j hj => by
    rw [Array.getElem?_push, if_neg (by omega)]
  refine ⟨h.nest, h.static.congr fun j hj => (hsame j (h.le_of_mem hj)).symm, ?_⟩
  intro k t j ht hj
  obtain ⟨hle, hentry, hlast⟩ := h.recent k t j ht hj
  refine ⟨hle, hsame j hle ▸ hentry, ?_⟩
  intro k' link hk hk'
  rw [← hsame k' hk']
  exact hlast k' link hk hk'

end Activation

/-- A return keeps the static links of the other frames in order. -/
theorem Linked.of_push {program : Block} {sk : Skeleton} {x : Nat × Option Nat}
    (h : Linked program (sk.push x)) : Linked program sk := by
  intro i hi
  obtain ⟨chain, links, hact, hlength⟩ := h i (by rw [Array.size_push]; omega)
  exact ⟨chain, links, hact.of_push hi, hlength⟩

/-- A call keeps the static links of all frames in order. -/
theorem Linked.push {program : Block} {sk : Skeleton} (h : Linked program sk) {x : Nat × Option Nat}
    {t u : Placed} {outer : List Placed} {links : List Nat}
    (hnew : Activation program (sk.push x) sk.size (u :: t :: outer) links) :
    Linked program (sk.push x) := by
  intro i hi
  rw [Array.size_push] at hi
  rcases Nat.lt_or_eq_of_le (Nat.le_of_lt_succ hi) with hlt | rfl
  · obtain ⟨chain, links, hact, hlength⟩ := h i hlt
    exact ⟨chain, links, hact.push x, hlength⟩
  · exact ⟨_, _, hnew, fun _ => by simp⟩

/-! ## The first frame -/

theorem Activation.boot (program : Block) (halt : Nat) :
    Activation program (CallStack.boot halt).skeleton 0 [⟨0, program⟩] [0] := by
  have hfirst : (CallStack.boot halt).skeleton[0]? = some (0, none) := by
    simp [CallStack.boot, CallStack.skeleton, Frame.bone]
  refine ⟨.program, .program hfirst, ?_⟩
  intro k t j ht hj
  cases k with
  | zero =>
      cases ht
      cases hj
      exact ⟨Nat.le_refl _, ⟨none, hfirst⟩, fun k _ hk hk' => by omega⟩
  | succ k => cases ht

theorem linked_boot (program : Block) (halt : Nat) : Linked program (CallStack.boot halt).skeleton := by
  intro i hi
  obtain rfl : i = 0 := by simpa [CallStack.boot, CallStack.skeleton] using hi
  exact ⟨_, _, .boot program halt, fun h => absurd h (Nat.lt_irrefl 0)⟩

end PLZero
