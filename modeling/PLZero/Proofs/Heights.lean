import PLZero.Proofs.Robustness

/-!
# Heights

How many values the current frame holds before each instruction. Each instruction takes and leaves a fixed
number of values, so a count along the code gives a height for each index; if the branches of the code agree
with the count, it is the height in every run. A run then comes to the limit of values only where the count
exceeds it.
-/

namespace PLZero

open PLZero.Action (Yields)

/-! ## Counting -/

namespace Instr

/-- The instruction branches, starts a block or ends one. -/
def IsControl (i : Instr) : Prop := i.opcode.isBranch ∨ i.opcode = .enter ∨ i.Applies .ret

/-- Where an instruction goes on elsewhere it finds no values but those it takes, and it leaves none. -/
structure Settled (h : Nat → Nat) (pc : Nat) (i : Instr) : Prop where
  height_eq : i.IsControl → h pc = i.pops
  target_eq : i.opcode.isBranch → ∀ target, CallStack.slot? i.address = some target → h target = 0

end Instr

/-- The height before the instruction at an index, counted along the code. -/
def Code.height (code : Code) (pc : Nat) : Nat := (code.toList.take pc).foldl Instr.after 0

theorem Code.height_zero (code : Code) : code.height 0 = 0 := rfl

theorem Code.height_succ {code : Code} {pc : Nat} {i : Instr} (hi : code[pc]? = some i) :
    code.height (pc + 1) = i.after (code.height pc) := by
  rw [← Array.getElem?_toList] at hi
  simp [height, List.take_add_one, hi]

theorem Instr.pushes_of_isBranch {i : Instr} (h : i.opcode.isBranch) : i.pushes = 0 := by
  unfold pushes
  cases hi : i.opcode <;> simp_all [Opcode.isBranch]

/-! ## Frames -/

/-- What counts of a frame here: where it returns to and how many values it holds. -/
def Frame.shape (f : Frame) : Nat × Nat := (f.returnAddress, f.stack.size)

theorem Frame.Reworked.shape_eq {limits : Limits} {i : Instr} {f g : Frame} (hg : f.Reworked limits g)
    (hafter : g.stack.size = i.after f.stack.size) : g.shape = (f.returnAddress, i.after f.stack.size) :=
  Prod.ext (congrArg CallSite.returnAddress hg.site_eq) hafter

def Machine.shapes (m : Machine) : Array (Nat × Nat) := m.stack.frames.map Frame.shape

/-! ## Runs -/

/-- Every frame returns to where the height is zero; the current one holds as many values as the height says,
and the other ones hold none. -/
structure Poised (h : Nat → Nat) (shapes : Array (Nat × Nat)) (pc : Nat) : Prop where
  returns : ∀ x ∈ shapes, h x.1 = 0
  current : ∀ (below : Array (Nat × Nat)) (x : Nat × Nat), shapes = below.push x →
    x.2 = h pc ∧ ∀ y ∈ below, y.2 = 0

namespace Poised

variable {h : Nat → Nat} {shapes shapes' below : Array (Nat × Nat)} {pc pc' r n : Nat} {i : Instr}

theorem work (hp : Poised h (below.push (r, n)) pc) {n' : Nat} (hn : n' = h pc') :
    Poised h (below.push (r, n')) pc' := by
  refine ⟨fun x hx => ?_, fun below' x heq => ?_⟩
  · rcases Array.mem_push.mp hx with hx | rfl
    · exact hp.returns x (by simp [hx])
    · exact hp.returns (r, n) (by simp)
  · obtain ⟨rfl, rfl⟩ := Array.push_eq_push.mp heq
    exact ⟨hn, (hp.current below (r, n) rfl).2⟩

theorem forall_zero (hp : Poised h shapes pc) (hpc : h pc = 0) : ∀ x ∈ shapes, x.2 = 0 := by
  intro x hx
  obtain ⟨below, y, rfl⟩ := Array.eq_push_of_size_ne_zero (Nat.ne_of_gt (Array.size_pos_of_mem hx))
  obtain ⟨hy, hbelow⟩ := hp.current below y rfl
  rcases Array.mem_push.mp hx with hx | rfl
  · exact hbelow x hx
  · exact hy.trans hpc

theorem transition {limits : Limits} {halt : Nat} {frames frames' : Array Frame}
    (hp : Poised h (frames.map Frame.shape) pc) (hi : i.Settled h pc) (hnext : h (pc + 1) = i.after (h pc))
    (ht : Transition limits halt i pc frames frames' pc') : Poised h (frames'.map Frame.shape) pc' := by
  cases ht with
  | @work below f g _ hstays hg hafter hpc =>
      rw [Array.map_push] at hp ⊢
      have hsize : f.stack.size = h pc := (hp.current _ _ rfl).1
      rw [hg.shape_eq hafter, hsize]
      refine hp.work ?_
      rcases hpc with rfl | ⟨hjump, htarget, -⟩
      · exact hnext.symm
      · have hbranch : i.opcode.isBranch := by rcases hjump with hjump | hjump <;> rw [hjump] <;> rfl
        rw [Instr.after, hi.height_eq (.inl hbranch), Instr.pushes_of_isBranch hbranch,
          hi.target_eq hbranch pc' htarget, Nat.sub_self]
  | @store below f j slot v hstore =>
      rw [Frame.map_modify_setLocal Frame.shape fun _ => rfl, Array.map_push]
      rw [Array.map_push] at hp
      have hsize : f.stack.size = h pc := (hp.current _ _ rfl).1
      refine hp.work ?_
      rw [f.size_drop, hsize, hnext]
      simp [Instr.after, Instr.pops, Instr.pushes, hstore]
  | @call below f entry enclosing hcall _ hentry _ =>
      have hbranch : i.opcode.isBranch := by rw [hcall]; rfl
      have hzero : h pc = 0 := by simpa [Instr.pops, hcall] using hi.height_eq (.inl hbranch)
      have hreturn : h (pc + 1) = 0 := by simp [hnext, Instr.after, Instr.pushes_of_isBranch hbranch, hzero]
      rw [Array.map_push]
      refine ⟨fun x hx => ?_, fun below' x heq => ?_⟩
      · rcases Array.mem_push.mp hx with hx | rfl
        · exact hp.returns x hx
        · exact hreturn
      · obtain ⟨rfl, rfl⟩ := Array.push_eq_push.mp heq
        exact ⟨(hi.target_eq hbranch pc' hentry).symm, hp.forall_zero hzero⟩
  | @ret _ f _ =>
      rw [Array.map_push] at hp
      obtain ⟨-, hbelow⟩ := hp.current _ _ rfl
      have hpc' : h f.returnAddress = 0 := hp.returns f.shape (by simp)
      refine ⟨fun x hx => hp.returns x (by simp [hx]), fun below x heq => ?_⟩
      rw [heq] at hbelow
      exact ⟨(hbelow x (by simp)).trans hpc'.symm, fun y hy => hbelow y (by simp [hy])⟩

end Poised

namespace Machine

/-- In a run of code whose branches agree with the count along it, the heights are those of the count. The
limit of values is met only where the count exceeds it. -/
theorem gives_poised {code : Code} (hcode : ∀ (pc : Nat) (i : Instr), code[pc]? = some i → i.Settled code.height pc)
    (hhalt : code.height code.size = 0) (limits : Limits) (input : Input) (output : Output) (n : Nat) :
    Gives (fun m => Orderly limits code.size n m ∧ Poised code.height m.shapes m.pc) (fun _ => True)
      (fun fault => ∀ limit, fault = .stackSizeLimit limit → ∃ pc, limits.stackSize < code.height pc) NoFault
      (runFor limits code n (.boot code input output)) := by
  have hboot : Orderly limits code.size 0 (.boot code input output) ∧
      Poised code.height (boot code input output).shapes 0 := by
    have hshapes : (boot code input output).shapes = #[].push (code.size, 0) := by
      simp [shapes, boot, CallStack.boot, Frame.shape]
    rw [hshapes]
    refine ⟨orderly_boot limits code input output, by simpa using hhalt, fun below x heq => ?_⟩
    obtain ⟨rfl, rfl⟩ := Array.push_eq_push.mp heq
    exact ⟨rfl, by simp⟩
  have hkept : ∀ k m i, Orderly limits code.size k m ∧ Poised code.height m.shapes m.pc → code[m.pc]? = some i →
      Yields (step limits code.size i) m
        (fun _ m' => Orderly limits code.size (k + 1) m' ∧ Poised code.height m'.shapes m'.pc)
        fun fault _ => ∀ limit, fault = .stackSizeLimit limit → ∃ pc, limits.stackSize < code.height pc := by
    rintro k m i ⟨horderly, hpoised⟩ hi
    obtain ⟨hlt, -⟩ := Array.getElem?_eq_some_iff.mp hi
    obtain ⟨below, f, hframes⟩ : ∃ (below : Array Frame) (f : Frame), m.stack.frames = below.push f :=
      Array.eq_push_of_size_ne_zero (Nat.ne_of_gt (horderly.active hlt))
    have hmoved := step_moved limits code.size i hframes
    cases hm : step limits code.size i m with
    | ok _ m' =>
        have hpoised' := hpoised.transition (hcode _ _ hi) (Code.height_succ hi) (hmoved.ok hm).1.1
        exact .of_ok hm ⟨(horderly.step (i := i) hlt).ok hm, hpoised'⟩
    | error fault m' =>
        refine .of_error hm ?_
        rintro limit rfl
        have hsize : f.stack.size = code.height m.pc :=
          (hpoised.current (below.map Frame.shape) f.shape (by simp [shapes, hframes])).1
        refine ⟨m.pc + 1, ?_⟩
        rw [Code.height_succ hi, ← hsize]
        exact hmoved.error hm
  have hgives := gives_of_kept hkept hboot n
  rw [Nat.zero_add] at hgives
  exact hgives.imp (fun _ _ => trivial) fun _ _ => id

end Machine

end PLZero
