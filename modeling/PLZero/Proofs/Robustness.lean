import PLZero.Proofs.Transition

/-!
# Runs of any code

Code need not come from a compiler: it may jump into the middle of a procedure, return early or fall
off its end. Whatever it does, the machine stays within its code and its limits, and never lacks a frame
to work in.
-/

namespace PLZero

/-! ## Frames -/

/-- A frame returns to an instruction or to the end, and holds no more values than it may. -/
structure Frame.Within (limits : Limits) (halt : Nat) (f : Frame) : Prop where
  return_le : f.returnAddress ≤ halt
  values_le : f.stack.size ≤ limits.stackSize

theorem Frame.Within.reworked {limits : Limits} {halt : Nat} {f g : Frame} (h : f.Within limits halt)
    (hg : f.Reworked limits g) : g.returnAddress = f.returnAddress ∧ g.Within limits halt := by
  have hreturn : g.returnAddress = f.returnAddress := congrArg CallSite.returnAddress hg.site_eq
  have := hg.size_le
  have := h.values_le
  exact ⟨hreturn, hreturn ▸ h.return_le, by omega⟩

/-- The frames of a machine whose code ends at `halt`. -/
structure Bounded (limits : Limits) (halt : Nat) (frames : Array Frame) : Prop where
  within : ∀ f ∈ frames, f.Within limits halt
  depth_le : frames.size ≤ limits.callDepth + 1
  /-- The program itself returns to the end of the code. -/
  first : ∀ f, frames[0]? = some f → f.returnAddress = halt

namespace Bounded

variable {limits : Limits} {halt : Nat} {frames below : Array Frame} {f g : Frame}

theorem boot (limits : Limits) (halt : Nat) : Bounded limits halt (CallStack.boot halt).frames := by
  refine ⟨?_, by simp [CallStack.boot], by simp [CallStack.boot]⟩
  intro f hf
  obtain rfl : f = ⟨halt, 0, none, none, #[], #[]⟩ := by simpa [CallStack.boot] using hf
  exact ⟨Nat.le_refl halt, Nat.zero_le _⟩

theorem push (h : Bounded limits halt frames) (hg : g.Within limits halt)
    (hdepth : frames.size ≤ limits.callDepth) (hfirst : frames.size = 0 → g.returnAddress = halt) :
    Bounded limits halt (frames.push g) := by
  refine ⟨?_, by simpa using hdepth, ?_⟩
  · intro f hf
    rcases Array.mem_push.mp hf with hf | rfl
    · exact h.within f hf
    · exact hg
  · intro f hf
    rw [Array.getElem?_push] at hf
    split at hf
    · next hempty =>
      cases hf
      exact hfirst hempty.symm
    · exact h.first f hf

theorem of_push (h : Bounded limits halt (below.push f)) :
    Bounded limits halt below ∧ f.Within limits halt ∧ below.size ≤ limits.callDepth ∧
      (below.size = 0 → f.returnAddress = halt) := by
  have hdepth : below.size ≤ limits.callDepth := by simpa using h.depth_le
  refine ⟨⟨fun g hg => h.within g (by simp [hg]), by omega, ?_⟩, h.within f (by simp), hdepth, ?_⟩
  · intro g hg
    have hlt := (Array.getElem?_eq_some_iff.mp hg).1
    exact h.first g (by rw [Array.getElem?_push, if_neg (by omega)]; exact hg)
  · intro hempty
    exact h.first f (by rw [Array.getElem?_push, if_pos hempty.symm])

theorem work (h : Bounded limits halt (below.push f)) (hg : f.Reworked limits g) :
    Bounded limits halt (below.push g) := by
  obtain ⟨hbelow, hf, hdepth, hfirst⟩ := h.of_push
  obtain ⟨hreturn, hwithin⟩ := hf.reworked hg
  exact hbelow.push hwithin hdepth fun hempty => hreturn.trans (hfirst hempty)

theorem setLocal (h : Bounded limits halt frames) (j slot : Nat) (v : Int64) :
    Bounded limits halt (frames.modify j (·.setLocal slot v)) := by
  have hsame : ∀ (k : Nat) (f : Frame), (frames.modify j (·.setLocal slot v))[k]? = some f →
      ∃ f', frames[k]? = some f' ∧ f.returnAddress = f'.returnAddress ∧ f.stack = f'.stack := by
    intro k f hf
    rw [Array.getElem?_modify] at hf
    split at hf
    · obtain ⟨f', hf', rfl⟩ := Option.map_eq_some_iff.mp hf
      exact ⟨f', hf', rfl, rfl⟩
    · exact ⟨f, hf, rfl, rfl⟩
  refine ⟨?_, by simpa using h.depth_le, ?_⟩
  · intro f hf
    obtain ⟨k, hk⟩ := Array.mem_iff_getElem?.mp hf
    obtain ⟨f', hf', hreturn, hstack⟩ := hsame k f hk
    obtain ⟨hreturn', hvalues⟩ := h.within f' (Array.mem_of_getElem? hf')
    exact ⟨hreturn ▸ hreturn', hstack ▸ hvalues⟩
  · intro f hf
    obtain ⟨f', hf', hreturn, -⟩ := hsame 0 f hf
    exact hreturn.trans (h.first f' hf')

end Bounded

/-! ## Machines -/

namespace Machine

/-- A machine after so many steps of code that ends at `halt`. -/
structure Orderly (limits : Limits) (halt steps : Nat) (m : Machine) : Prop where
  bounded : Bounded limits halt m.stack.frames
  pc_le : m.pc ≤ halt
  active : m.pc < halt → 0 < m.stack.depth
  steps_eq : m.steps = steps
  steps_le : ∀ limit, limits.steps = some limit → steps ≤ limit

variable {limits : Limits} {halt steps : Nat} {i : Instr} {m m' : Machine}

theorem orderly_boot (limits : Limits) (code : Code) (input : Input) (output : Output) :
    Orderly limits code.size 0 (.boot code input output) :=
  ⟨.boot limits code.size, Nat.zero_le _, fun _ => Nat.one_pos, rfl, fun _ _ => Nat.zero_le _⟩

namespace Orderly

theorem moved (h : Orderly limits halt steps m) (hpc : m.pc < halt)
    (hm : Moved limits halt i m.pc (steps + 1) m.stack.frames m')
    (hsteps : ∀ limit, limits.steps = some limit → steps + 1 ≤ limit) :
    Orderly limits halt (steps + 1) m' := by
  obtain ⟨⟨frames⟩, pc, _, _, _⟩ := m
  obtain ⟨⟨frames'⟩, pc', _, _, _⟩ := m'
  obtain ⟨htransition, hsteps'⟩ := hm
  have hbounded : Bounded limits halt frames := h.bounded
  dsimp only at htransition hpc
  cases htransition with
  | work _ hg _ hpc' =>
      have hle : pc' ≤ halt := by omega
      exact ⟨hbounded.work hg, hle, fun _ => by simp [CallStack.depth], hsteps', hsteps⟩
  | store =>
      exact ⟨(hbounded.work (.drop _)).setLocal _ _ _, hpc, fun _ => by simp [CallStack.depth], hsteps',
        hsteps⟩
  | call _ hdepth _ hle =>
      exact ⟨hbounded.push ⟨hpc, Nat.zero_le _⟩ hdepth (by simp), hle, fun _ => by simp [CallStack.depth],
        hsteps', hsteps⟩
  | @ret _ f _ =>
      obtain ⟨hbelow, hf, -, hfirst⟩ := hbounded.of_push
      refine ⟨hbelow, hf.return_le, fun hlt => ?_, hsteps', hsteps⟩
      -- Only the return from the program leaves no frame, and that goes to the end.
      rcases Nat.eq_zero_or_pos frames'.size with hempty | hpos
      · have hlt : f.returnAddress < halt := hlt
        have := hfirst hempty
        omega
      · exact hpos

theorem exists_current (h : Orderly limits halt steps m) (hpc : m.pc < halt) :
    ∃ (below : Array Frame) (f : Frame), m.stack.frames = below.push f :=
  Array.eq_push_of_size_ne_zero (Nat.ne_of_gt (h.active hpc))

theorem step (h : Orderly limits halt steps m) (hpc : m.pc < halt) :
    Action.Yields (Machine.step limits halt i) m (fun _ m' => Orderly limits halt (steps + 1) m')
      fun fault _ => ∃ n, fault.Possible limits halt i n := by
  obtain ⟨below, f, hframes⟩ := h.exists_current hpc
  have hmoved := step_moved limits halt i hframes
  rw [h.steps_eq] at hmoved
  exact hmoved.imp (fun _ _ ⟨hm, hsteps⟩ => h.moved hpc hm hsteps) fun _ _ hfault => ⟨f.stack.size, hfault⟩

end Orderly

theorem gives_orderly (limits : Limits) (code : Code) (input : Input) (output : Output) (n : Nat) :
    Gives (Orderly limits code.size n) (fun m => m.pc = code.size)
      (fun fault => ∃ i ∈ code.toList, ∃ n, fault.Possible limits code.size i n) NoFault
      (runFor limits code n (.boot code input output)) := by
  have hkept : ∀ k m i, Orderly limits code.size k m → code[m.pc]? = some i →
      Action.Yields (step limits code.size i) m (fun _ m' => Orderly limits code.size (k + 1) m')
        fun fault _ => ∃ i ∈ code.toList, ∃ n, fault.Possible limits code.size i n := by
    intro k m i hm hi
    obtain ⟨hlt, hget⟩ := Array.getElem?_eq_some_iff.mp hi
    exact (hm.step hlt).imp (fun _ _ => id)
      fun _ _ hfault => ⟨i, hget ▸ Array.mem_toList_iff.mpr (Array.getElem_mem hlt), hfault⟩
  have hgives := gives_of_kept hkept (orderly_boot limits code input output) n
  rw [Nat.zero_add] at hgives
  refine hgives.imp ?_ fun _ _ => id
  rintro m ⟨k, hm, hend⟩
  exact Nat.le_antisymm hm.pc_le (Array.getElem?_eq_none_iff.mp hend)

theorem not_invalidTarget {code : Code} (hcode : code.dangling = []) {i : Instr} (hi : i ∈ code.toList)
    (address : Int64) (n : Nat) : ¬ Fault.Possible limits code.size i n (.invalidTarget address) := by
  rintro ⟨hbranch, rfl, hout⟩
  obtain ⟨hneg, hlt⟩ := Code.dangling_eq_nil.mp hcode i hi hbranch
  rcases hout with hout | hout
  · exact hneg hout
  · omega

/-- Between any two steps of any code the machine is within its code and its limits, and has a frame
unless it is at the end. No run fails for lack of a frame, and none at a jump whose target is in the
code. -/
theorem runFor_inBounds (limits : Limits) (code : Code) (input : Input) (output : Output) (n : Nat) :
    (∀ m, runFor limits code n (.boot code input output) = .running m →
      m.pc ≤ code.size ∧ (m.pc < code.size → 0 < m.stack.depth ∧ ∃ i, code[m.pc]? = some i) ∧
      (∀ f ∈ m.stack.frames, f.returnAddress ≤ code.size ∧ f.stack.size ≤ limits.stackSize) ∧
      m.stack.depth ≤ limits.callDepth + 1 ∧
      m.steps = n ∧ ∀ limit, limits.steps = some limit → n ≤ limit) ∧
    (∀ m, runFor limits code n (.boot code input output) = .done (.ok ()) m → m.pc = code.size) ∧
    ∀ failure m, runFor limits code n (.boot code input output) = .done (.error failure) m →
      failure.cause ≠ .noActiveFrame ∧ failure.cause ≠ .returnWithoutFrame ∧
      (code.dangling = [] → ∀ address, failure.cause ≠ .invalidTarget address) := by
  have hgives := gives_orderly limits code input output n
  refine ⟨fun m hrun => ?_, fun m hrun => ?_, fun failure m hrun => ?_⟩ <;> rw [hrun] at hgives
  · cases hgives with
    | running h =>
        exact ⟨h.pc_le, fun hlt => ⟨h.active hlt, _, Array.getElem?_eq_getElem hlt⟩,
          fun f hf => ⟨(h.bounded.within f hf).return_le, (h.bounded.within f hf).values_le⟩,
          h.bounded.depth_le, h.steps_eq, h.steps_le⟩
  · generalize hresult : (Except.ok () : Except (Failure Fault) Unit) = result at hgives
    cases hgives with
    | halted h => exact h
    | failed => cases hresult
  · generalize hresult : (Except.error failure : Except (Failure Fault) Unit) = result at hgives
    cases hgives with
    | halted h =>
        obtain ⟨message, hcause⟩ := exists_of_conclude_error hresult.symm
        simp [hcause]
    | failed hfault =>
        obtain ⟨i, hi, k, hfault⟩ := hfault.resolve_right id
        cases hresult
        rw [cause_failure]
        refine ⟨?_, ?_, fun hcode address => ?_⟩ <;> rintro rfl
        · exact hfault
        · exact hfault
        · exact not_invalidTarget hcode hi address k hfault

/-- Code that only calls itself comes to the greatest number of frames, and then fails at the limit. -/
theorem runFor_inBounds_recursion :
    (∃ m, runFor { callDepth := 2 } #[⟨.call, 0, 0⟩] 2 (.boot #[⟨.call, 0, 0⟩] (.ofBytes []) .unlimited)
        = .running m ∧ m.stack.depth = 3 ∧ m.stack.depth ≤ 2 + 1) ∧
      ∃ failure m, runFor { callDepth := 2 } #[⟨.call, 0, 0⟩] 3
          (.boot #[⟨.call, 0, 0⟩] (.ofBytes []) .unlimited) = .done (.error failure) m ∧
        ∀ address, failure.cause ≠ .invalidTarget address := by
  have hthree := runFor_inBounds { callDepth := 2 } #[⟨.call, 0, 0⟩] (.ofBytes []) .unlimited 3
  have htwo := runFor_inBounds { callDepth := 2 } #[⟨.call, 0, 0⟩] (.ofBytes []) .unlimited 2
  refine ⟨⟨_, rfl, rfl, (htwo.1 _ rfl).2.2.2.1⟩, _, _, rfl, (hthree.2.2 _ _ rfl).2.2 (by decide)⟩

end Machine

end PLZero
