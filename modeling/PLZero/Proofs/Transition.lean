import PLZero.Proofs.Execution

/-!
# What one instruction can do

An instruction of any code, with any operands, carried out by a machine that has a frame: it works in
the current frame, stores into a local slot, calls, or returns (`Transition`), and the number of values that
it takes and leaves does not depend on the machine (`Instr.after`). What is said of runs of code that no
compiler wrote comes from these cases and from the faults that are possible at all (`Fault.Possible`).
-/

namespace PLZero

open PLZero.Action (Yields)

theorem Frame.size_drop (f : Frame) : f.drop.stack.size = f.stack.size - 1 := Array.size_pop

/-- A frame after work on its values and local slots. No limit lets it hold more values. -/
structure Frame.Reworked (limits : Limits) (f g : Frame) : Prop where
  site_eq : g.site = f.site
  dynamicLink_eq : g.dynamicLink = f.dynamicLink
  staticLink_eq : g.staticLink = f.staticLink
  size_le : g.stack.size ≤ max f.stack.size limits.stackSize

namespace Frame.Reworked

variable {limits : Limits} {f g h : Frame}

theorem refl (f : Frame) : Reworked limits f f := ⟨rfl, rfl, rfl, Nat.le_max_left _ _⟩

theorem trans (hg : Reworked limits f g) (hh : Reworked limits g h) : Reworked limits f h := by
  refine ⟨hh.site_eq.trans hg.site_eq, hh.dynamicLink_eq.trans hg.dynamicLink_eq,
    hh.staticLink_eq.trans hg.staticLink_eq, ?_⟩
  have := hg.size_le
  have := hh.size_le
  omega

theorem drop (f : Frame) : Reworked limits f f.drop := by
  refine ⟨rfl, rfl, rfl, ?_⟩
  rw [f.size_drop]
  omega

theorem push {f : Frame} (hf : f.stack.size < limits.stackSize) (v : Int64) :
    Reworked limits f (f.push v) := by
  refine ⟨rfl, rfl, rfl, ?_⟩
  simp [Frame.push]
  omega

theorem allocate (f : Frame) (count : Nat) : Reworked limits f (f.allocate count) :=
  ⟨rfl, rfl, rfl, Nat.le_max_left _ _⟩

end Frame.Reworked

/-! ## The number of values -/

/-- The number of values that an operator takes from the current frame. -/
def Operator.pops : Operator → Nat
  | .ret | .read => 0
  | .odd | .write => 1
  | .binary _ => 2

def Operator.pushes : Operator → Nat
  | .ret | .write => 0
  | .read | .odd | .binary _ => 1

namespace Instr

/-- The number of values that an instruction takes from the current frame. -/
def pops (i : Instr) : Nat :=
  match i.opcode with
  | .storeVar | .jumpIfFalse => 1
  | .operate => ((Operator.ofCode? i.address).map Operator.pops).getD 0
  | _ => 0

def pushes (i : Instr) : Nat :=
  match i.opcode with
  | .loadConst | .loadVar => 1
  | .operate => ((Operator.ofCode? i.address).map Operator.pushes).getD 0
  | _ => 0

/-- The number of values after an instruction that finds `n` of them. -/
def after (n : Nat) (i : Instr) : Nat := n - i.pops + i.pushes

end Instr

/-! ## Transitions -/

/-- The instruction applies this operator. -/
def Instr.Applies (i : Instr) (op : Operator) : Prop :=
  i.opcode = .operate ∧ Operator.ofCode? i.address = some op

instance (i : Instr) (op : Operator) : Decidable (i.Applies op) := inferInstanceAs (Decidable (_ ∧ _))

theorem Instr.Applies.after_eq {i : Instr} {op : Operator} (h : i.Applies op) (n : Nat) :
    i.after n = n - op.pops + op.pushes := by
  simp [after, pops, pushes, h.1, h.2]

/-- The instruction neither calls nor returns. -/
structure Instr.Stays (i : Instr) : Prop where
  not_call : i.opcode ≠ .call
  not_ret : ¬ i.Applies .ret

theorem Instr.Stays.of_opcode {i : Instr} (hcall : i.opcode ≠ .call) (hoperate : i.opcode ≠ .operate) : i.Stays :=
  ⟨hcall, fun h => hoperate h.1⟩

theorem Instr.Applies.stays {i : Instr} {op : Operator} (h : i.Applies op) (hop : op ≠ .ret) : i.Stays := by
  refine ⟨by simp [h.1], fun hret => hop ?_⟩
  exact Option.some.inj (h.2.symm.trans hret.2)

/-- What the instruction at `pc` makes of the frames, and where the machine goes on. -/
inductive Transition (limits : Limits) (halt : Nat) (i : Instr) (pc : Nat) :
    Array Frame → Array Frame → Nat → Prop where
  | work {below : Array Frame} {f g : Frame} {pc' : Nat} : i.Stays → Frame.Reworked limits f g →
      g.stack.size = i.after f.stack.size →
      pc' = pc + 1 ∨
        (i.opcode = .jump ∨ i.opcode = .jumpIfFalse) ∧ CallStack.slot? i.address = some pc' ∧ pc' ≤ halt →
      Transition limits halt i pc (below.push f) (below.push g) pc'
  | store {below : Array Frame} {f : Frame} {j slot : Nat} {v : Int64} : i.opcode = .storeVar →
      Transition limits halt i pc (below.push f) ((below.push f.drop).modify j (·.setLocal slot v)) (pc + 1)
  | call {below : Array Frame} {f : Frame} {entry enclosing : Nat} : i.opcode = .call →
      (below.push f).size ≤ limits.callDepth → CallStack.slot? i.address = some entry → entry ≤ halt →
      Transition limits halt i pc (below.push f)
        ((below.push f).push (CallStack.called (pc + 1) entry below.size enclosing)) entry
  | ret {below : Array Frame} {f : Frame} : i.Applies .ret →
      Transition limits halt i pc (below.push f) below f.returnAddress

/-- The faults that an instruction can meet in a machine whose current frame holds `n` values. -/
def Fault.Possible (limits : Limits) (halt : Nat) (i : Instr) (n : Nat) : Fault → Prop
  | .noActiveFrame | .returnWithoutFrame => False
  | .stackSizeLimit _ => limits.stackSize < i.after n
  | .invalidTarget address =>
    i.opcode.isBranch ∧ address = i.address ∧ (address < 0 ∨ (halt : Int) < address.toInt)
  | _ => True

/-! ## Parts of an instruction -/

section

variable {limits : Limits} {halt n : Nat} {i : Instr} {below : Array Frame} {f g : Frame}

namespace CallStack

theorem resolve_yields (distance : Int64) :
    Yields (resolve distance) ⟨below.push f⟩ (fun _ s => s = ⟨below.push f⟩)
      fun fault _ => fault.Possible limits halt i n := by
  have hdepth : depth ⟨below.push f⟩ ≠ 0 := by simp [depth]
  unfold Yields resolve
  by_cases hneg : distance < 0
  · rw [if_pos hneg]
    trivial
  · rw [if_neg hneg, if_neg hdepth]
    cases follow ⟨below.push f⟩ distance.toInt.toNat (depth ⟨below.push f⟩ - 1) with
    | some j => rfl
    | none => trivial

theorem pop_yields :
    Yields pop ⟨below.push f⟩ (fun _ s => s = ⟨below.push f.drop⟩) fun fault _ => fault.Possible limits halt i n := by
  refine .bind (.of_ok (current_apply below f) ?_)
  cases f.stack.back? with
  | some v => exact modifyCurrent_push below f Frame.drop
  | none => trivial

theorem load_yields (distance slot : Int64) :
    Yields (load distance slot) ⟨below.push f⟩ (fun _ s => s = ⟨below.push f⟩)
      fun fault _ => fault.Possible limits halt i n := by
  refine .bind ((resolve_yields distance).imp ?_ fun _ _ => id)
  rintro j _ rfl
  unfold Yields
  dsimp only
  split
  · next h =>
    split at h
    · split at h <;> cases h
      rfl
    · cases h
  · next h =>
    split at h
    · split at h <;> cases h
      trivial
    · cases h
      trivial

theorem store_yields (distance slot v : Int64) :
    Yields (store distance slot v) ⟨below.push f⟩
      (fun _ s => ∃ j k, s = ⟨(below.push f).modify j (·.setLocal k v)⟩)
      fun fault _ => fault.Possible limits halt i n := by
  refine .bind ((resolve_yields distance).imp ?_ fun _ _ => id)
  rintro j _ rfl
  refine .bind (.of_ok (Action.get_apply _) ?_)
  dsimp only
  split
  · split
    · exact ⟨j, _, rfl⟩
    · trivial
  · trivial

theorem call_yields (returnAddress entry : Nat) (distance : Int64) :
    Yields (call returnAddress entry distance) ⟨below.push f⟩
      (fun _ s => ∃ enclosing, s = ⟨(below.push f).push (called returnAddress entry below.size enclosing)⟩)
      fun fault _ => fault.Possible limits halt i n := by
  refine .bind (.of_ok (Action.get_apply _) (.bind (.of_ok (current_apply below f) ?_)))
  refine .bind ((resolve_yields distance).imp ?_ fun _ _ => id)
  rintro j _ rfl
  refine ⟨j, ?_⟩
  simp [called, depth]

end CallStack

namespace Machine

variable {pc steps : Nat} {input : Input} {output : Output}

theorem onStack_yields {α : Type} {action : CallStack.Action α} {s : CallStack} {Q : α → Machine → Prop}
    {E : Fault → Machine → Prop}
    (h : Yields action s (fun a s' => Q a ⟨s', pc, steps, input, output⟩)
      fun fault s' => E fault ⟨s', pc, steps, input, output⟩) :
    Yields (onStack action) ⟨s, pc, steps, input, output⟩ Q E := by
  cases hs : action s with
  | ok a s' => exact .of_ok (onStack_apply hs) (h.ok hs)
  | error fault s' => exact .of_error (by simp only [onStack, hs]) (h.error hs)

theorem target_yields {address : Int64} {m : Machine} {Q : Nat → Machine → Prop}
    (hi : i.opcode.isBranch) (haddress : address = i.address)
    (hQ : ∀ index, CallStack.slot? address = some index → index ≤ halt → Q index m) :
    Yields (target halt address) m Q fun fault _ => fault.Possible limits halt i n := by
  unfold target
  cases hslot : CallStack.slot? address with
  | none =>
      refine ⟨hi, haddress, .inl ?_⟩
      simpa [CallStack.slot?] using hslot
  | some index =>
      dsimp only
      split
      · next hle => exact hQ index hslot hle
      · next hle =>
        refine ⟨hi, haddress, .inr ?_⟩
        have := (Operand.slot?_eq_some.mp hslot).2
        omega

/-- The machine after the instruction at `pc`, which found the given frames. -/
def Moved (limits : Limits) (halt : Nat) (i : Instr) (pc steps : Nat) (frames : Array Frame)
    (m : Machine) : Prop :=
  Transition limits halt i pc frames m.stack.frames m.pc ∧ m.steps = steps

theorem push_moved (hi : i.Stays) (hg : f.Reworked limits g) (hafter : g.stack.size + 1 = i.after f.stack.size)
    (v : Int64) :
    Yields (push limits v) ⟨⟨below.push g⟩, pc + 1, steps, input, output⟩
      (fun _ => Moved limits halt i pc steps (below.push f))
      fun fault _ => fault.Possible limits halt i f.stack.size := by
  by_cases hsize : limits.stackSize ≤ g.stack.size
  · refine .of_error ((push_apply v).trans (if_pos hsize)) ?_
    show limits.stackSize < i.after f.stack.size
    omega
  · have hpush : (g.push v).stack.size = g.stack.size + 1 := Array.size_push v
    refine .of_ok ((push_apply v).trans (if_neg hsize))
      ⟨.work hi (hg.trans (.push (by omega) v)) (hpush.trans hafter) (.inl rfl), rfl⟩

theorem pop_yields {Q : Int64 → Machine → Prop}
    (hQ : ∀ v, Q v ⟨⟨below.push f.drop⟩, pc, steps, input, output⟩) :
    Yields pop ⟨⟨below.push f⟩, pc, steps, input, output⟩ Q fun fault _ => fault.Possible limits halt i n := by
  refine onStack_yields (CallStack.pop_yields.imp ?_ fun _ _ => id)
  rintro v _ rfl
  exact hQ v

/-! ## Instructions -/

theorem operate_moved {op : Operator} (hop : i.Applies op) :
    Yields (operate limits op) ⟨⟨below.push f⟩, pc + 1, steps, input, output⟩
      (fun _ => Moved limits halt i pc steps (below.push f))
      fun fault _ => fault.Possible limits halt i f.stack.size := by
  have hafter := hop.after_eq f.stack.size
  cases op with
  | ret =>
      refine .bind (onStack_yields (.of_ok (CallStack.leave_apply below f) ?_))
      exact ⟨.ret hop, rfl⟩
  | read =>
      unfold operate
      refine .bind ?_
      cases hread : input.readInt with
      | mk result input' =>
          cases result with
          | ok v =>
              simp only [Yields, read, hread]
              exact push_moved (hop.stays (by decide)) (.refl f) hafter.symm v
          | error e =>
              simp only [Yields, read, hread]
              trivial
  | write =>
      refine .bind (pop_yields fun v => ?_)
      cases hwrite : output.write (Decimal.ofInt64 v ++ "\n") with
      | mk result output' =>
          cases result with
          | ok _ =>
              simp only [Yields, write, hwrite]
              exact ⟨.work (hop.stays (by decide)) (.drop f) (f.size_drop.trans hafter.symm) (.inl rfl), rfl⟩
          | error e =>
              simp only [Yields, write, hwrite]
              trivial
  | odd =>
      refine .bind (pop_yields fun v => push_moved (hop.stays (by decide)) (.drop f) ?_ _)
      rw [f.size_drop, hafter]
      rfl
  | binary op =>
      refine .bind (pop_yields fun rhs => .bind (pop_yields fun lhs => ?_))
      cases hv : op.apply lhs rhs with
      | ok v =>
          refine push_moved (hop.stays (by simp)) ((Frame.Reworked.drop f).trans (.drop f.drop)) ?_ v
          rw [f.drop.size_drop, f.size_drop, hafter]
          rfl
      | error fault =>
          obtain rfl := BinaryOp.eq_of_apply_error hv
          trivial

/-- What an instruction comes to in a machine that has a frame. -/
theorem execute_moved (limits : Limits) (halt : Nat) (i : Instr) (below : Array Frame) (f : Frame)
    (pc steps : Nat) (input : Input) (output : Output) :
    Yields (execute limits halt i) ⟨⟨below.push f⟩, pc + 1, steps, input, output⟩
      (fun _ => Moved limits halt i pc steps (below.push f))
      fun fault _ => fault.Possible limits halt i f.stack.size := by
  unfold execute
  cases hi : i.opcode with
  | loadConst =>
      refine push_moved (.of_opcode (by simp [hi]) (by simp [hi])) (.refl f) ?_ _
      simp [Instr.after, Instr.pops, Instr.pushes, hi]
  | loadVar =>
      refine .bind (onStack_yields ((CallStack.load_yields _ _).imp ?_ fun _ _ => id))
      rintro v _ rfl
      refine push_moved (.of_opcode (by simp [hi]) (by simp [hi])) (.refl f) ?_ v
      simp [Instr.after, Instr.pops, Instr.pushes, hi]
  | storeVar =>
      refine .bind (pop_yields fun v => onStack_yields ((CallStack.store_yields _ _ v).imp ?_ fun _ _ => id))
      rintro _ _ ⟨j, k, rfl⟩
      exact ⟨.store hi, rfl⟩
  | call =>
      refine .bind (.of_ok (Action.get_apply _) ?_)
      split
      · trivial
      · next hdepth =>
        refine .bind (target_yields (by rw [hi]; rfl) rfl fun entry hentry hle => ?_)
        refine .bind (.of_ok (Action.get_apply _) (.bind (onStack_yields ?_)))
        refine (CallStack.call_yields _ _ _).imp ?_ fun _ _ => id
        rintro _ _ ⟨enclosing, rfl⟩
        exact ⟨.call hi (Nat.not_lt.mp hdepth) hentry hle, rfl⟩
  | enter =>
      unfold frameLocals
      refine .bind ?_
      split
      · split
        · refine onStack_yields (.of_ok (CallStack.allocate_apply below f _) ?_)
          have hafter : i.after f.stack.size = f.stack.size := by simp [Instr.after, Instr.pops, Instr.pushes, hi]
          exact ⟨.work (.of_opcode (by simp [hi]) (by simp [hi])) (.allocate f _) hafter.symm (.inl rfl), rfl⟩
        · trivial
      · trivial
  | jump =>
      have hstays : i.Stays := .of_opcode (by simp [hi]) (by simp [hi])
      have hafter : i.after f.stack.size = f.stack.size := by simp [Instr.after, Instr.pops, Instr.pushes, hi]
      refine .bind (target_yields (by rw [hi]; rfl) rfl fun index hindex hle => ?_)
      exact ⟨.work hstays (.refl f) hafter.symm (.inr ⟨.inl hi, hindex, hle⟩), rfl⟩
  | jumpIfFalse =>
      have hstays : i.Stays := .of_opcode (by simp [hi]) (by simp [hi])
      have hafter : f.drop.stack.size = i.after f.stack.size := by
        simp [f.size_drop, Instr.after, Instr.pops, Instr.pushes, hi]
      refine .bind (pop_yields fun v => ?_)
      split
      · refine .bind (target_yields (by rw [hi]; rfl) rfl fun index hindex hle => ?_)
        exact ⟨.work hstays (.drop f) hafter (.inr ⟨.inr hi, hindex, hle⟩), rfl⟩
      · exact ⟨.work hstays (.drop f) hafter (.inl rfl), rfl⟩
  | operate =>
      cases hop : Operator.ofCode? i.address with
      | some op => exact operate_moved ⟨hi, hop⟩
      | none => trivial

theorem count_yields {m : Machine} {Q : Unit → Machine → Prop}
    (hQ : (∀ limit, limits.steps = some limit → m.steps + 1 ≤ limit) → Q () { m with steps := m.steps + 1 }) :
    Yields (count limits) m Q fun fault _ => fault.Possible limits halt i n := by
  refine .bind (.of_ok (Action.modify_apply _ _) ?_)
  cases hlimit : limits.steps with
  | none => exact hQ (by simp [hlimit])
  | some limit =>
      refine .bind (.of_ok (Action.get_apply _) ?_)
      split
      · trivial
      · next hle =>
        refine hQ fun limit' h => ?_
        cases hlimit.symm.trans h
        exact Nat.not_lt.mp hle

/-- The same with the count of the step, which its limit may refuse. -/
theorem step_moved (limits : Limits) (halt : Nat) (i : Instr) {m : Machine} {below : Array Frame} {f : Frame}
    (hm : m.stack.frames = below.push f) :
    Yields (step limits halt i) m
      (fun _ m' => Moved limits halt i m.pc (m.steps + 1) m.stack.frames m' ∧
        ∀ limit, limits.steps = some limit → m.steps + 1 ≤ limit)
      fun fault _ => fault.Possible limits halt i f.stack.size := by
  obtain ⟨⟨frames⟩, pc, steps, input, output⟩ := m
  obtain rfl : frames = below.push f := hm
  refine .bind (count_yields fun hle => .bind (.of_ok (Action.modify_apply _ _) ?_))
  exact (execute_moved limits halt i below f pc (steps + 1) input output).imp
    (fun _ _ h => ⟨h, hle⟩) fun _ _ => id

end Machine

end

end PLZero
