import PLZero.Proofs.Frames
import PLZero.Proofs.Transition

/-!
# What an instruction leaves alone

An action spares a part of the machine if it leaves it as it is, whether it succeeds or fails. Only the
instructions that read and write use the channels, and only a call or a return that succeeds changes
which frames there are.
-/

namespace PLZero

open PLZero.Action (Yields)

/-- The instruction only works in the frames that are there. -/
structure Instr.Plain (i : Instr) : Prop where
  not_call : i.opcode ≠ .call
  not_ret : ¬ i.Applies .ret
  not_read : ¬ i.Applies .read
  not_write : ¬ i.Applies .write

/-! ## Stacks -/

namespace CallStack

/-- The action makes no frame and ends none, whether it succeeds or fails. -/
def KeepsSites {α : Type} (x : Action α) : Prop :=
  ∀ s, Yields x s (fun _ s' => s'.sites = s.sites) fun _ s' => s'.sites = s.sites

theorem sites_modify {f : Frame → Frame} (hf : ∀ g, (f g).site = g.site) (frames : Array Frame) (j : Nat) :
    sites ⟨frames.modify j f⟩ = sites ⟨frames⟩ := by
  apply List.ext_getElem?
  intro k
  simp only [sites, List.getElem?_map, Array.getElem?_toList, Array.getElem?_modify]
  split
  · cases frames[k]? with
    | none => rfl
    | some g => exact congrArg some (hf g)
  · rfl

namespace KeepsSites

/-- An action that changes nothing where it fails, and nothing that counts where it succeeds. -/
theorem of_spec {α : Type} {x : Action α} {Q : CallStack → α → CallStack → Prop}
    (hx : ∀ s, Yields x s (Q s) fun _ s' => s' = s) (hQ : ∀ s a s', Q s a s' → s'.sites = s.sites) :
    KeepsSites x :=
  fun s => (hx s).imp (hQ s) fun _ _ h => congrArg sites h

theorem current : KeepsSites CallStack.current :=
  of_spec current_spec fun _ _ _ h => congrArg sites h.1

theorem push (v : Int64) : KeepsSites (CallStack.push v) := by
  refine of_spec (push_spec · v) ?_
  rintro s _ _ rfl
  exact sites_modify (f := (·.push v)) (fun _ => rfl) s.frames _

theorem allocate (count : Nat) : KeepsSites (CallStack.allocate count) := by
  refine of_spec (allocate_spec · count) ?_
  rintro s _ _ rfl
  exact sites_modify (f := (·.allocate count)) (fun _ => rfl) s.frames _

theorem pop : KeepsSites CallStack.pop := by
  refine of_spec pop_spec ?_
  rintro s _ _ ⟨rfl, -⟩
  exact sites_modify (f := Frame.drop) (fun _ => rfl) s.frames _

theorem load (distance slot : Int64) : KeepsSites (CallStack.load distance slot) :=
  of_spec (load_spec · distance slot) fun _ _ _ h => congrArg sites h.1

theorem store (distance slot v : Int64) : KeepsSites (CallStack.store distance slot v) := by
  refine of_spec (store_spec · distance slot v) ?_
  rintro s _ _ ⟨j, k, f, -, -, -, -, rfl⟩
  exact sites_modify (f := (·.setLocal k v)) (fun _ => rfl) s.frames j

end KeepsSites

end CallStack

/-! ## Machines -/

namespace Machine

/-- The action leaves this part of the machine as it is, whether it succeeds or fails. -/
def Spares {α γ : Type} (part : Machine → γ) (x : Exec α) : Prop :=
  ∀ m, Yields x m (fun _ m' => part m' = part m) fun _ m' => part m' = part m

/-- A part that has nothing to do with the next instruction and with the values in the frames. -/
structure Aside {γ : Type} (part : Machine → γ) : Prop where
  pc : ∀ m index, part { m with pc := index } = part m
  stack : ∀ (m : Machine) (s : CallStack), s.sites = m.stack.sites → part { m with stack := s } = part m

namespace Spares

variable {α β γ : Type} {part : Machine → γ}

theorem bind {x : Exec α} {f : α → Exec β} (hx : Spares part x) (hf : ∀ a, Spares part (f a)) :
    Spares part (x >>= f) := by
  intro m
  refine .bind ((hx m).imp (fun a m' hm' => ?_) fun _ _ => id)
  exact (hf a m').imp (fun _ _ h => h.trans hm') fun _ _ h => h.trans hm'

theorem pure (a : α) : Spares part (Pure.pure a : Exec α) := fun _ => rfl

theorem throw (fault : Fault) : Spares part (MonadExcept.throw fault : Exec α) := fun _ => rfl

theorem get : Spares part (MonadState.get : Exec Machine) := fun _ => rfl

theorem guarded {p : Prop} [Decidable p] {x y : Exec α} (hx : Spares part x) (hy : Spares part y) :
    Spares part (if p then x else y) := by
  split
  · exact hx
  · exact hy

theorem target (halt : Nat) (address : Int64) : Spares part (Machine.target halt address) := by
  unfold Machine.target
  cases CallStack.slot? address with
  | none => exact .throw _
  | some index => exact .guarded (.pure index) (.throw _)

theorem frameLocals (size : Int64) : Spares part (Machine.frameLocals size) := by
  unfold Machine.frameLocals
  cases CallStack.slot? size with
  | none => exact .throw _
  | some slots => exact .guarded (.pure _) (.throw _)

theorem read (hpart : ∀ m input, part { m with input := input } = part m) : Spares part Machine.read := by
  rintro ⟨s, pc, steps, input, output⟩
  unfold Yields Machine.read
  dsimp only
  obtain ⟨result, input'⟩ := input.readInt
  cases result <;> exact hpart ⟨s, pc, steps, input, output⟩ input'

theorem write (hpart : ∀ m output, part { m with output := output } = part m) (v : Int64) :
    Spares part (Machine.write v) := by
  rintro ⟨s, pc, steps, input, output⟩
  unfold Yields Machine.write
  dsimp only
  obtain ⟨result, output'⟩ := output.write (Decimal.ofInt64 v ++ "\n")
  cases result <;> exact hpart ⟨s, pc, steps, input, output⟩ output'

end Spares

namespace Aside

variable {α γ : Type} {part : Machine → γ} (hpart : Aside part)

include hpart

theorem jump (index : Nat) : Spares part (Machine.jump index) := fun m => hpart.pc m index

theorem onStack {x : CallStack.Action α} (hx : CallStack.KeepsSites x) : Spares part (Machine.onStack x) := by
  rintro ⟨s, pc, steps, input, output⟩
  exact onStack_yields ((hx s).imp (fun _ s' => hpart.stack ⟨s, pc, steps, input, output⟩ s')
    fun _ s' => hpart.stack ⟨s, pc, steps, input, output⟩ s')

theorem push (limits : Limits) (v : Int64) : Spares part (Machine.push limits v) :=
  (hpart.onStack .current).bind fun _ => .guarded (.throw _) (hpart.onStack (.push v))

theorem pop : Spares part Machine.pop := hpart.onStack .pop

theorem execute (limits : Limits) (halt : Nat) {i : Instr} (h : i.Plain) :
    Spares part (Machine.execute limits halt i) := by
  unfold Machine.execute
  cases hi : i.opcode with
  | loadConst => exact hpart.push limits _
  | loadVar => exact (hpart.onStack (.load _ _)).bind fun _ => hpart.push limits _
  | storeVar => exact hpart.pop.bind fun _ => hpart.onStack (.store _ _ _)
  | call => exact absurd hi h.not_call
  | enter => exact (Spares.frameLocals _).bind fun _ => hpart.onStack (.allocate _)
  | jump => exact (Spares.target halt _).bind fun _ => hpart.jump _
  | jumpIfFalse =>
      exact hpart.pop.bind fun _ => .guarded ((Spares.target halt _).bind fun _ => hpart.jump _) (.pure _)
  | operate =>
      dsimp only
      cases hop : Operator.ofCode? i.address with
      | none => exact .throw _
      | some op =>
          cases op with
          | ret => exact absurd ⟨hi, hop⟩ h.not_ret
          | read => exact absurd ⟨hi, hop⟩ h.not_read
          | write => exact absurd ⟨hi, hop⟩ h.not_write
          | odd => exact hpart.pop.bind fun _ => hpart.push limits _
          | binary op =>
              refine hpart.pop.bind fun rhs => hpart.pop.bind fun lhs => ?_
              cases op.apply lhs rhs with
              | ok v => exact hpart.push limits v
              | error fault => exact .throw fault

end Aside

/-! ### Channels -/

/-- The input that is not read yet and the output. -/
def channels (m : Machine) : Input × Output := (m.input, m.output)

theorem aside_channels : Aside channels := ⟨fun _ _ => rfl, fun _ _ _ => rfl⟩

theorem channels_onStack {α : Type} (x : CallStack.Action α) : Spares channels (onStack x) := by
  rintro ⟨s, pc, steps, input, output⟩
  refine onStack_yields ?_
  cases h : x s with
  | ok a s' => exact .of_ok h rfl
  | error fault s' => exact .of_error h rfl

theorem execute_channels (limits : Limits) (halt : Nat) {i : Instr} (hread : ¬ i.Applies .read)
    (hwrite : ¬ i.Applies .write) : Spares channels (execute limits halt i) := by
  by_cases hcall : i.opcode = .call
  · simp only [execute, hcall]
    refine Spares.get.bind fun _ => .guarded (.throw _) ((Spares.target halt _).bind fun entry => ?_)
    exact Spares.get.bind fun _ => (channels_onStack _).bind fun _ => aside_channels.jump entry
  · by_cases hret : i.Applies .ret
    · simp only [execute, hret.1, hret.2, operate]
      exact (channels_onStack _).bind fun address => aside_channels.jump address
    · exact aside_channels.execute limits halt ⟨hcall, hret, hread, hwrite⟩

/-! ### Frames -/

/-- The active calls. -/
def sites (m : Machine) : List CallSite := m.stack.sites

theorem aside_sites : Aside sites := ⟨fun _ _ => rfl, fun _ _ h => h⟩

theorem execute_call (limits : Limits) (halt : Nat) {i : Instr} (hcall : i.opcode = .call) (m : Machine) :
    Yields (execute limits halt i) m
      (fun _ m' => ∃ entry enclosing, m'.stack.frames
        = m.stack.frames.push (CallStack.called m.pc entry (m.stack.depth - 1) enclosing))
      fun _ m' => m'.stack = m.stack := by
  simp only [execute, hcall]
  refine .bind (.of_ok (Action.get_apply m) ?_)
  split
  · rfl
  · have htarget : Spares id (target halt i.address) := .target halt i.address
    refine .bind ((htarget m).imp (fun entry m' hm' => ?_) fun _ _ => congrArg stack)
    obtain rfl : m' = m := hm'
    refine .bind (.of_ok (Action.get_apply m') (.bind ?_))
    obtain ⟨s, pc, steps, input, output⟩ := m'
    refine onStack_yields ((CallStack.call_spec s pc entry i.level).imp ?_ fun _ _ => id)
    rintro _ _ ⟨enclosing, -, rfl⟩
    exact ⟨entry, enclosing, rfl⟩

theorem execute_ret (limits : Limits) (halt : Nat) {i : Instr} (hret : i.Applies .ret) (m : Machine) :
    Yields (execute limits halt i) m (fun _ _ => True) fun _ m' => m'.stack = m.stack := by
  simp only [execute, hret.1, hret.2, operate]
  obtain ⟨s, pc, steps, input, output⟩ := m
  exact .bind (onStack_yields ((CallStack.leave_spec s).imp (fun _ _ _ => trivial) fun _ _ => id))

/-- An instruction that fails leaves the frames that it found. -/
theorem execute_error_sites (limits : Limits) (halt : Nat) (i : Instr) (m : Machine) :
    Yields (execute limits halt i) m (fun _ _ => True) fun _ m' => m'.sites = m.sites := by
  have hspared : Spares sites (execute limits halt i) →
      Yields (execute limits halt i) m (fun _ _ => True) fun _ m' => m'.sites = m.sites :=
    fun h => (h m).imp (fun _ _ _ => trivial) fun _ _ => id
  -- A call and a return change the frames last of all, when nothing can fail any more.
  by_cases hcall : i.opcode = .call
  · exact (execute_call limits halt hcall m).imp (fun _ _ _ => trivial) fun _ _ => congrArg CallStack.sites
  · by_cases hret : i.Applies .ret
    · exact (execute_ret limits halt hret m).imp (fun _ _ => id) fun _ _ => congrArg CallStack.sites
    · by_cases hread : i.Applies .read
      · refine hspared ?_
        simp only [execute, hread.1, hread.2, operate]
        exact (Spares.read fun _ _ => rfl).bind fun v => aside_sites.push limits v
      · by_cases hwrite : i.Applies .write
        · refine hspared ?_
          simp only [execute, hwrite.1, hwrite.2, operate]
          exact aside_sites.pop.bind (.write fun _ _ => rfl)
        · exact hspared (aside_sites.execute limits halt ⟨hcall, hret, hread, hwrite⟩)

/-! ### Steps -/

theorem execute_of_step {limits : Limits} {halt : Nat} {i : Instr} {m m' : Machine}
    (h : step limits halt i m = .ok () m') :
    execute limits halt i { m with pc := m.pc + 1, steps := m.steps + 1 } = .ok () m' := by
  obtain ⟨s, pc, steps, input, output⟩ := m
  rcases step_apply limits halt i s pc steps input output with ⟨limit, hstep⟩ | hstep
  · cases hstep.symm.trans h
  · exact hstep.symm.trans h

theorem step_error_sites (limits : Limits) (halt : Nat) (i : Instr) (m : Machine) :
    Yields (step limits halt i) m (fun _ _ => True) fun _ m' => m'.sites = m.sites := by
  obtain ⟨s, pc, steps, input, output⟩ := m
  rcases step_apply limits halt i s pc steps input output with ⟨limit, hstep⟩ | hstep
  · exact .of_error hstep rfl
  · unfold Yields
    rw [hstep]
    exact execute_error_sites limits halt i ⟨s, pc + 1, steps + 1, input, output⟩

end Machine

end PLZero
