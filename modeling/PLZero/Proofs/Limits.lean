import Mathlib
import PLZero.Proofs.Robustness

/-!
# Limits

A limit ends a run early and does nothing else: until then the machine is the one that higher limits
give, and what it has written is where their output starts.
-/

namespace PLZero

open PLZero.Action (Yields Raises leaves)

/-- Every limit is at most the other one; to have none is to have the highest. -/
structure Limits.AtMost (limits limits' : Limits) : Prop where
  callDepth_le : limits.callDepth ≤ limits'.callDepth
  stackSize_le : limits.stackSize ≤ limits'.stackSize
  steps_le : ∀ k', limits'.steps = some k' → ∃ k, limits.steps = some k ∧ k ≤ k'

instance : LE Limits := ⟨Limits.AtMost⟩

/-- The machine of a run, as far as it has come. -/
def Progress.machine : Progress → Machine
  | running m | done _ m => m

/-! ## Faults of the call stack -/

namespace CallStack

theorem raises_current : Raises current (¬ ·.IsLimit) := by
  intro s
  unfold Yields current
  cases s.frames.back? with
  | some f => trivial
  | none => exact id

theorem raises_resolve (distance : Int64) : Raises (resolve distance) (¬ ·.IsLimit) := by
  intro s
  unfold Yields resolve
  by_cases hneg : distance < 0
  · rw [if_pos hneg]
    exact id
  · rw [if_neg hneg]
    by_cases hdepth : s.depth = 0
    · rw [if_pos hdepth]
      exact id
    · rw [if_neg hdepth]
      cases s.follow distance.toInt.toNat (s.depth - 1) with
      | some j => trivial
      | none => exact id

theorem raises_modify (f : CallStack → CallStack) :
    Raises (modify f : CallStack.Action Unit) (¬ ·.IsLimit) := fun _ => trivial

theorem raises_push (v : Int64) : Raises (push v) (¬ ·.IsLimit) :=
  raises_current.bind fun _ => raises_modify _

theorem raises_allocate (count : Nat) : Raises (allocate count) (¬ ·.IsLimit) :=
  raises_current.bind fun _ => raises_modify _

theorem raises_pop : Raises pop (¬ ·.IsLimit) := by
  refine raises_current.bind fun f => ?_
  cases f.stack.back? with
  | some v => exact (raises_modify _).bind fun _ _ => trivial
  | none => exact fun _ => id

theorem raises_leave : Raises leave (¬ ·.IsLimit) := by
  intro s
  unfold Yields leave
  cases s.frames.back? with
  | some f => trivial
  | none => exact id

theorem raises_load (distance slot : Int64) : Raises (load distance slot) (¬ ·.IsLimit) := by
  refine (raises_resolve distance).bind fun j s => ?_
  unfold Yields
  dsimp only
  split
  · trivial
  · next h =>
    split at h
    · split at h <;> cases h
      exact id
    · cases h
      exact id

theorem raises_store (distance slot v : Int64) : Raises (store distance slot v) (¬ ·.IsLimit) := by
  refine (raises_resolve distance).bind fun j s => .bind (.of_ok (Action.get_apply s) ?_)
  dsimp only
  split
  · split
    · trivial
    · exact id
  · exact id

theorem raises_call (returnAddress entry : Nat) (distance : Int64) :
    Raises (call returnAddress entry distance) (¬ ·.IsLimit) :=
  fun s => .bind (.of_ok (Action.get_apply s)
    ((raises_current.bind fun _ => (raises_resolve distance).bind fun _ => raises_modify _) s))

end CallStack

namespace Machine

/-! ## Output grows -/

/-- What the second machine has written starts with what the first one has. -/
def Precedes (m m' : Machine) : Prop := m.output.text.toList <+: m'.output.text.toList

theorem Precedes.refl (m : Machine) : m.Precedes m := List.prefix_rfl

theorem Precedes.trans {m m' m'' : Machine} (h : m.Precedes m') (h' : m'.Precedes m'') : m.Precedes m'' :=
  List.IsPrefix.trans h h'

theorem Precedes.of_eq {m m' : Machine} (h : m.output = m'.output) : m.Precedes m' := by
  simp [Precedes, h]

/-- The action takes back nothing that has been written, and it is none that counts steps. -/
def Adds {α : Type} (x : Exec α) : Prop :=
  ∀ m, Yields x m (fun _ m' => m.Precedes m') fun fault m' => m.Precedes m' ∧ ∀ k, fault ≠ .stepLimit k

namespace Adds

variable {α β : Type}

theorem bind {x : Exec α} {f : α → Exec β} (hx : Adds x) (hf : ∀ a, Adds (f a)) : Adds (x >>= f) := by
  intro m
  refine .bind ((hx m).imp (fun a m' hm' => ?_) fun _ _ => id)
  exact (hf a m').imp (fun _ _ => hm'.trans) fun _ _ h => ⟨hm'.trans h.1, h.2⟩

theorem pure (a : α) : Adds (Pure.pure a : Exec α) := fun m => .refl m

theorem throw {fault : Fault} (h : ∀ k, fault ≠ .stepLimit k) : Adds (MonadExcept.throw fault : Exec α) :=
  fun m => ⟨.refl m, h⟩

theorem guarded {p : Prop} [Decidable p] {fault : Fault} {y : Exec α} (h : ∀ k, fault ≠ .stepLimit k)
    (hy : Adds y) : Adds (if p then MonadExcept.throw fault else y) := by
  split
  · exact .throw h
  · exact hy

theorem get : Adds (MonadState.get : Exec Machine) := fun m => .refl m

theorem onStack {action : CallStack.Action α} (h : Raises action (¬ ·.IsLimit)) :
    Adds (Machine.onStack action) := by
  intro m
  obtain ⟨s, pc, steps, input, output⟩ := m
  refine onStack_yields ((h s).imp (fun _ _ _ => .of_eq rfl) fun fault _ hfault => ⟨.of_eq rfl, ?_⟩)
  rintro k rfl
  exact hfault trivial

theorem jump (index : Nat) : Adds (Machine.jump index) := fun _ => .of_eq rfl

theorem target (halt : Nat) (address : Int64) : Adds (Machine.target halt address) := by
  unfold Machine.target
  cases CallStack.slot? address with
  | none => exact .throw (by simp)
  | some index =>
      dsimp only
      split
      · exact .pure _
      · exact .throw (by simp)

theorem frameLocals (size : Int64) : Adds (Machine.frameLocals size) := by
  unfold Machine.frameLocals
  cases CallStack.slot? size with
  | none => exact .throw (by simp)
  | some slots =>
      dsimp only
      split
      · exact .pure _
      · exact .throw (by simp)

theorem push (limits : Limits) (v : Int64) : Adds (Machine.push limits v) :=
  (onStack CallStack.raises_current).bind fun _ => .guarded (by simp) (.onStack (CallStack.raises_push v))

theorem pop : Adds Machine.pop := .onStack CallStack.raises_pop

theorem read : Adds Machine.read := by
  rintro ⟨s, pc, steps, input, output⟩
  cases hread : input.readInt with
  | mk result input' =>
      cases result with
      | ok v =>
          simp only [Yields, Machine.read, hread]
          exact .of_eq rfl
      | error e =>
          simp only [Yields, Machine.read, hread]
          exact ⟨.of_eq rfl, by simp⟩

theorem write (v : Int64) : Adds (Machine.write v) := by
  rintro ⟨s, pc, steps, input, output⟩
  generalize hwrite : output.write (Decimal.ofInt64 v ++ "\n") = r
  obtain ⟨result, output'⟩ := r
  have hbegins : output.text.toList <+: output'.text.toList := by
    unfold Output.write at hwrite
    split at hwrite <;> cases hwrite <;> simp
  cases result with
  | ok _ =>
      simp only [Yields, Machine.write, hwrite]
      exact hbegins
  | error message =>
      simp only [Yields, Machine.write, hwrite]
      exact ⟨hbegins, by simp⟩

theorem operate (limits : Limits) (op : Operator) : Adds (Machine.operate limits op) := by
  cases op with
  | ret => exact (onStack CallStack.raises_leave).bind fun _ => .jump _
  | read => exact read.bind fun _ => .push limits _
  | write => exact pop.bind fun _ => .write _
  | odd => exact pop.bind fun _ => .push limits _
  | binary op =>
      refine pop.bind fun rhs => pop.bind fun lhs => ?_
      cases hv : op.apply lhs rhs with
      | ok v => exact .push limits v
      | error fault =>
          obtain rfl := BinaryOp.eq_of_apply_error hv
          exact .throw (by simp)

theorem call (halt : Nat) (i : Instr) : Adds (do
    let entry ← Machine.target halt i.address
    Machine.onStack (CallStack.call (← MonadState.get).pc entry i.level)
    Machine.jump entry) :=
  (target halt _).bind fun _ => get.bind fun _ => (onStack (CallStack.raises_call _ _ _)).bind fun _ => .jump _

theorem execute (limits : Limits) (halt : Nat) (i : Instr) : Adds (Machine.execute limits halt i) := by
  unfold Machine.execute
  cases i.opcode with
  | loadConst => exact .push limits _
  | loadVar => exact (onStack (CallStack.raises_load _ _)).bind fun _ => .push limits _
  | storeVar => exact pop.bind fun _ => .onStack (CallStack.raises_store _ _ _)
  | call => exact get.bind fun _ => .guarded (by simp) (.call halt i)
  | enter => exact (frameLocals _).bind fun _ => .onStack (CallStack.raises_allocate _)
  | jump => exact (target halt _).bind fun _ => .jump _
  | jumpIfFalse =>
      refine pop.bind fun v => ?_
      split
      · exact (target halt _).bind fun _ => .jump _
      · exact .pure _
  | operate =>
      dsimp only
      cases Operator.ofCode? i.address with
      | some op => exact .operate limits op
      | none => exact .throw (by simp)

theorem precedes {x : Exec α} (hx : Adds x) (m : Machine) : m.Precedes (leaves x m) :=
  ((hx m).imp (fun _ _ => id) fun _ _ => And.left).leaves

end Adds

/-! ## Steps under two limits -/

/-- The second action does what the first one does, or a limit cuts the first one short. -/
def CutShort {α : Type} (x y : Exec α) : Prop :=
  ∀ m, y m = x m ∨ ∃ fault m', x m = .error fault m' ∧ fault.IsLimit ∧ m'.Precedes (leaves y m)

namespace CutShort

variable {α β : Type} {limits limits' : Limits}

theorem refl (x : Exec α) : CutShort x x := fun _ => .inl rfl

/-- An action that the lower limit refuses whenever the higher one does. -/
theorem guarded {p q : Prop} [Decidable p] [Decidable q] {fault fault' : Fault} {y : Exec α} (hqp : q → p)
    (hlimit : fault.IsLimit) (hsteps : ∀ k, fault' ≠ .stepLimit k) (hy : Adds y) :
    CutShort (if p then throw fault else y) (if q then throw fault' else y) := by
  by_cases hp : p
  · have hadds : Adds (if q then throw fault' else y) := .guarded hsteps hy
    rw [if_pos hp]
    exact fun m => .inr ⟨fault, m, rfl, hlimit, hadds.precedes m⟩
  · rw [if_neg hp, if_neg (mt hqp hp)]
    exact .refl y

theorem bind (x : Exec α) {f g : α → Exec β} (h : ∀ a, CutShort (f a) (g a)) :
    CutShort (x >>= f) (x >>= g) := by
  intro m
  cases hx : x m with
  | error fault m' =>
      left
      rw [Action.bind_of_error hx, Action.bind_of_error hx]
  | ok a m' =>
      unfold leaves
      rw [Action.bind_of_ok hx, Action.bind_of_ok hx]
      exact h a m'

theorem push (h : limits ≤ limits') (v : Int64) : CutShort (Machine.push limits v) (Machine.push limits' v) := by
  refine bind _ fun _ => .guarded (Nat.le_trans h.stackSize_le) trivial (by simp) ?_
  exact .onStack (CallStack.raises_push v)

theorem operate (h : limits ≤ limits') (op : Operator) :
    CutShort (Machine.operate limits op) (Machine.operate limits' op) := by
  cases op with
  | ret => exact .refl _
  | read => exact bind _ fun _ => push h _
  | write => exact .refl _
  | odd => exact bind _ fun _ => push h _
  | binary op =>
      refine bind _ fun rhs => bind _ fun lhs => ?_
      cases op.apply lhs rhs with
      | ok v => exact push h v
      | error fault => exact .refl _

theorem execute (h : limits ≤ limits') (halt : Nat) (i : Instr) :
    CutShort (Machine.execute limits halt i) (Machine.execute limits' halt i) := by
  cases hi : i.opcode with
  | loadConst =>
      simp only [Machine.execute, hi]
      exact push h _
  | loadVar =>
      simp only [Machine.execute, hi]
      exact bind _ fun _ => push h _
  | call =>
      simp only [Machine.execute, hi]
      exact bind _ fun _ => .guarded (Nat.lt_of_le_of_lt h.callDepth_le) trivial (by simp) (.call halt i)
  | operate =>
      simp only [Machine.execute, hi]
      cases Operator.ofCode? i.address with
      | some op => exact operate h op
      | none => exact .refl _
  | storeVar | enter | jump | jumpIfFalse =>
      simp only [Machine.execute, hi]
      exact .refl _

end CutShort

section

variable {limits limits' : Limits} {code : Code} {m m' : Machine} {n : Nat}

theorem count_apply (h : ∀ k, limits.steps = some k → m.steps < k) :
    count limits m = .ok () { m with steps := m.steps + 1 } := by
  unfold count
  rw [Action.bind_of_ok (Action.modify_apply _ _)]
  cases hk : limits.steps with
  | none => rfl
  | some k =>
      dsimp only
      rw [Action.bind_of_ok (Action.get_apply _), if_neg (Nat.not_lt.mpr (h k hk))]
      rfl

theorem step_counted {halt : Nat} {i : Instr} (h : ∀ k, limits.steps = some k → m.steps < k) :
    step limits halt i m = execute limits halt i { m with pc := m.pc + 1, steps := m.steps + 1 } :=
  Action.bind_of_ok (count_apply h)

theorem runFor_add (h : runFor limits code n m = .running m') (k : Nat) :
    runFor limits code (n + k) m = runFor limits code k m' := by
  induction n generalizing m with
  | zero =>
      cases h
      rw [Nat.zero_add]
  | succ n ih =>
      rw [Nat.succ_add]
      cases hi : code[m.pc]? with
      | none =>
          rw [runFor_halted hi] at h
          cases h
      | some i =>
          cases hm : step limits code.size i m with
          | ok _ m'' =>
              rw [runFor_step hi hm] at h ⊢
              exact ih h
          | error fault m'' =>
              rw [runFor_fault hi hm] at h
              cases h

theorem orderly_of_running {input : Input} {output : Output}
    (h : runFor limits code n (.boot code input output) = .running m) : Orderly limits code.size n m := by
  have hgives := gives_orderly limits code input output n
  rw [h] at hgives
  cases hgives with
  | running h => exact h

/-! ## The limit on steps -/

end

/-- Code that writes a number and calls itself. -/
def Recursion.code : Code := #[⟨.loadConst, 0, 7⟩, .operate .write, ⟨.call, 0, 0⟩]

end Machine

end PLZero
