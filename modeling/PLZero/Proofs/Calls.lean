import Mathlib
import PLZero.Proofs.Limits
import PLZero.Proofs.Sparing

/-!
# A call and its return

Between a call and its return, an instruction of any code works in the frame of the call or in frames
above it, and reaches the frames below only to store into their local slots. So a caller gets control
back right after its call, with its frame and those of its own callers as they were apart from the values
of local slots.
-/

namespace PLZero

/-- What there is to a frame apart from the values of its local slots. -/
structure Frame.Outline where
  entry : Nat
  returnAddress : Nat
  dynamicLink : Option Nat
  staticLink : Option Nat
  stack : Array Int64
  localCount : Nat
deriving DecidableEq

def Frame.outline (f : Frame) : Frame.Outline :=
  ⟨f.entry, f.returnAddress, f.dynamicLink, f.staticLink, f.stack, f.locals.size⟩

namespace CallStack

def outlines (s : CallStack) : List Frame.Outline := s.frames.toList.map Frame.outline

variable {outer : List Frame.Outline} {address : Nat} {below : Array Frame} {f : Frame}

@[simp] theorem length_outlines (s : CallStack) : s.outlines.length = s.depth := by
  simp [outlines, depth]

@[simp] theorem outlines_push (below : Array Frame) (f : Frame) :
    outlines ⟨below.push f⟩ = outlines ⟨below⟩ ++ [f.outline] := by
  simp [outlines]

theorem outlines_modify_setLocal (frames : Array Frame) (j slot : Nat) (v : Int64) :
    outlines ⟨frames.modify j (·.setLocal slot v)⟩ = outlines ⟨frames⟩ := by
  have houtline : ∀ f : Frame, (f.setLocal slot v).outline = f.outline := by
    simp [Frame.outline, Frame.setLocal]
  have hmap := Frame.map_modify_setLocal Frame.outline houtline frames j
  simpa only [outlines, Array.toList_map] using congrArg Array.toList hmap

/-- The call that returns to `address` is active, and the frames below its own are `outer`. -/
def Inside (outer : List Frame.Outline) (address : Nat) (s : CallStack) : Prop :=
  ∃ callee : Frame.Outline, callee.returnAddress = address ∧ outer ++ [callee] <+: s.outlines

theorem Inside.lt_depth {s : CallStack} (h : Inside outer address s) : outer.length < s.depth := by
  obtain ⟨callee, -, hprefix⟩ := h
  simpa using hprefix.length_le

theorem inside_push :
    Inside outer address ⟨below.push f⟩ ↔
      Inside outer address ⟨below⟩ ∨ outlines ⟨below⟩ = outer ∧ f.returnAddress = address := by
  unfold Inside
  rw [outlines_push]
  constructor
  · rintro ⟨callee, hreturn, hprefix⟩
    rcases List.prefix_concat_iff.mp hprefix with heq | hprefix
    · obtain ⟨rfl, hcallee⟩ := List.append_inj' heq rfl
      cases hcallee
      exact .inr ⟨rfl, hreturn⟩
    · exact .inl ⟨callee, hreturn, hprefix⟩
  · rintro (⟨callee, hreturn, hprefix⟩ | ⟨rfl, hreturn⟩)
    · exact ⟨callee, hreturn, hprefix.trans (List.prefix_append _ _)⟩
    · exact ⟨f.outline, hreturn, List.prefix_rfl⟩

/-- Work in the current frame does not leave a call. -/
theorem Inside.work {limits : Limits} {g : Frame} (h : Inside outer address ⟨below.push f⟩)
    (hg : f.Reworked limits g) : Inside outer address ⟨below.push g⟩ := by
  have hreturn : g.returnAddress = f.returnAddress := congrArg CallSite.returnAddress hg.site_eq
  rw [inside_push] at h ⊢
  rwa [hreturn]

/-- An instruction stays within the call, or returns from it. -/
theorem Inside.step {limits : Limits} {halt pc pc' : Nat} {i : Instr} {frames frames' : Array Frame}
    (h : Inside outer address ⟨frames⟩) (ht : Transition limits halt i pc frames frames' pc') :
    Inside outer address ⟨frames'⟩ ∨ outlines ⟨frames'⟩ = outer ∧ pc' = address := by
  cases ht with
  | work _ hg _ _ => exact .inl (h.work hg)
  | @store _ f =>
      have hdrop : f.Reworked limits f.drop := .drop f
      left
      unfold Inside
      rw [outlines_modify_setLocal]
      exact h.work hdrop
  | call => exact .inl (inside_push.mpr (.inl h))
  | ret => exact inside_push.mp h

end CallStack

namespace Machine

open CallStack (Inside)

section

variable {limits : Limits} {code : Code} {steps halt : Nat} {i : Instr} {m m' : Machine}
  {outer : List Frame.Outline} {address : Nat}

theorem inside_of_call (hcall : i.opcode = .call) (hstep : step limits halt i m = .ok () m') :
    Inside m.stack.outlines (m.pc + 1) m'.stack := by
  obtain ⟨entry, enclosing, hframes⟩ := (execute_call limits halt hcall _).ok (execute_of_step hstep)
  have hstack : m'.stack = ⟨m.stack.frames.push _⟩ := congrArg CallStack.mk hframes
  rw [hstack, CallStack.inside_push]
  exact .inr ⟨rfl, rfl⟩

theorem inside_of_step (hm : Orderly limits halt steps m) (hpc : m.pc < halt)
    (h : Inside outer address m.stack) (hstep : step limits halt i m = .ok () m') :
    Inside outer address m'.stack ∨ m'.stack.outlines = outer ∧ m'.pc = address := by
  obtain ⟨below, f, hframes⟩ := hm.exists_current hpc
  obtain ⟨⟨htransition, -⟩, -⟩ := (step_moved limits halt i hframes).ok hstep
  exact CallStack.Inside.step h htransition

theorem depth_of_step_error {fault : Fault} (h : step limits halt i m = .error fault m') :
    m'.stack.depth = m.stack.depth := by
  have hsites := (step_error_sites limits halt i m).error h
  simpa [sites, CallStack.sites, CallStack.depth] using congrArg List.length hsites

/-- From within a call, the first time that only the frames below are left is right after its return. -/
theorem outlines_of_inside (hm : Orderly limits code.size steps m) (h : Inside outer address m.stack) {n : Nat}
    (hdepth : (runFor limits code n m).machine.stack.depth = outer.length)
    (hfirst : ∀ k < n, (runFor limits code k m).machine.stack.depth ≠ outer.length) :
    (runFor limits code n m).machine.stack.outlines = outer ∧ (runFor limits code n m).machine.pc = address := by
  have hlt := h.lt_depth
  induction n generalizing m steps with
  | zero => exact absurd hdepth (Nat.ne_of_gt hlt)
  | succ n ih =>
      cases hi : code[m.pc]? with
      | none =>
          rw [runFor_halted hi] at hdepth
          exact absurd hdepth (Nat.ne_of_gt hlt)
      | some i =>
          have hpc : m.pc < code.size := (Array.getElem?_eq_some_iff.mp hi).1
          cases hstep : step limits code.size i m with
          | error fault m' =>
              -- The machine that is left has all its frames, and so more than the caller had.
              rw [runFor_fault hi hstep] at hdepth
              exact absurd ((depth_of_step_error hstep).symm.trans hdepth) (Nat.ne_of_gt hlt)
          | ok _ m' =>
              rw [runFor_step hi hstep] at hdepth ⊢
              have hfirst' : ∀ k < n, (runFor limits code k m').machine.stack.depth ≠ outer.length := by
                intro k hk
                have hne := hfirst (k + 1) (Nat.succ_lt_succ hk)
                rwa [runFor_step hi hstep] at hne
              rcases inside_of_step hm hpc h hstep with hinside | ⟨houtlines, hreturn⟩
              · exact ih ((hm.step hpc).ok hstep) hinside hdepth hfirst' hinside.lt_depth
              · cases n with
                | zero => exact ⟨houtlines, hreturn⟩
                | succ n =>
                    refine absurd ?_ (hfirst' 0 (Nat.succ_pos n))
                    have hlength := congrArg List.length houtlines
                    rwa [CallStack.length_outlines] at hlength

end

/-- A call that succeeds in any code, when there are only as many frames again as before it for the first
time: the machine goes on right after it, and the frames are those from before, apart from the values of
their local slots. -/
theorem caller_preserved {limits : Limits} {code : Code} {input : Input} {output : Output} {a b : Nat}
    {m m' : Machine} {i : Instr} (hrun : runFor limits code a (.boot code input output) = .running m)
    (hi : code[m.pc]? = some i) (hcall : i.opcode = .call) (hstep : step limits code.size i m = .ok () m')
    (hab : a < b)
    (hdepth : (runFor limits code b (.boot code input output)).machine.stack.depth = m.stack.depth)
    (hfirst : ∀ k, a < k → k < b →
      (runFor limits code k (.boot code input output)).machine.stack.depth ≠ m.stack.depth) :
    (runFor limits code b (.boot code input output)).machine.pc = m.pc + 1 ∧
      (runFor limits code b (.boot code input output)).machine.stack.outlines = m.stack.outlines := by
  have hafter : ∀ n, runFor limits code (a + 1 + n) (.boot code input output) = runFor limits code n m' := by
    intro n
    rw [Nat.add_assoc, runFor_add hrun, Nat.add_comm, runFor_step hi hstep]
  have hrunning : runFor limits code (a + 1) (.boot code input output) = .running m' := hafter 0
  obtain ⟨n, rfl⟩ := Nat.exists_eq_add_of_le hab
  rw [hafter] at hdepth ⊢
  refine (outlines_of_inside (orderly_of_running hrunning) (inside_of_call hcall hstep) ?_ ?_).symm
  · rw [CallStack.length_outlines]
    exact hdepth
  · intro k hk
    rw [CallStack.length_outlines, ← hafter]
    exact hfirst _ (by omega) (by omega)

/-- The program holds a value and calls a procedure, which calls one that stores into a slot of the
program. -/
def nestedCalls : Code :=
  #[⟨.enter, 0, 4⟩, ⟨.loadConst, 0, 7⟩, ⟨.call, 0, 5⟩, .operate .write, .operate .ret,
    ⟨.call, 0, 7⟩, .operate .ret,
    ⟨.loadConst, 0, 9⟩, ⟨.storeVar, 2, 0⟩, .operate .ret]

theorem caller_preserved_nested :
    ∃ m m', runFor {} nestedCalls 2 (.boot nestedCalls (.ofBytes []) .unlimited) = .running m ∧
      runFor {} nestedCalls 8 (.boot nestedCalls (.ofBytes []) .unlimited) = .running m' ∧
      m'.pc = m.pc + 1 ∧ m'.stack.outlines = m.stack.outlines ∧ m'.stack ≠ m.stack := by
  have hrun : runFor {} nestedCalls 2 (.boot nestedCalls (.ofBytes []) .unlimited)
      = .running ⟨⟨#[⟨10, 0, none, none, #[7], #[0]⟩]⟩, 2, 2, .ofBytes [], .unlimited⟩ := rfl
  have hfirst : ∀ k, 2 < k → k < 8 →
      (runFor {} nestedCalls k (.boot nestedCalls (.ofBytes []) .unlimited)).machine.stack.depth ≠ 1 := by
    intro k hk hk'
    interval_cases k <;> decide
  obtain ⟨hpc, houtlines⟩ := caller_preserved (b := 8) hrun rfl rfl rfl (by decide) rfl hfirst
  exact ⟨_, _, hrun, rfl, hpc, houtlines, by decide⟩

end Machine

end PLZero
