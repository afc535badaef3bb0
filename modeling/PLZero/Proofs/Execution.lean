import PLZero.Proofs.Action
import PLZero.Proofs.Activation
import PLZero.Proofs.Operand
import PLZero.Proofs.Run

/-!
# Instructions

What each instruction does to a machine whose current frame is known: the frames, the next instruction
and the channels afterwards, as long as no limit refuses the step.
-/

namespace PLZero

def Fault.IsLimit : Fault → Prop
  | stepLimit _ | callDepthLimit _ | stackSizeLimit _ => True
  | _ => False

@[simp] theorem Frame.drop_push (f : Frame) (v : Int64) : (f.push v).drop = f := by
  simp [Frame.drop, Frame.push]

@[simp] theorem Frame.bone_push (f : Frame) (v : Int64) : (f.push v).bone = f.bone := rfl

@[simp] theorem Frame.bone_allocate (f : Frame) (count : Nat) : (f.allocate count).bone = f.bone := rfl

@[simp] theorem Frame.bone_setLocal (f : Frame) (slot : Nat) (v : Int64) :
    (f.setLocal slot v).bone = f.bone := rfl

theorem modify_middle {α : Type} (front : List α) (a : α) (back : List α) (f : α → α) :
    (front ++ a :: back).modify front.length f = front ++ f a :: back := by
  rw [List.modify_eq_take_cons_drop (by simp)]
  simp

/-- What a change of a local slot keeps of a frame, it keeps of all frames. -/
theorem Frame.map_modify_setLocal {α : Type} (g : Frame → α) {slot : Nat} {v : Int64}
    (hg : ∀ f : Frame, g (f.setLocal slot v) = g f) (frames : Array Frame) (j : Nat) :
    (frames.modify j (·.setLocal slot v)).map g = frames.map g := by
  apply Array.ext_getElem?
  intro i
  rw [Array.getElem?_map, Array.getElem?_map, Array.getElem?_modify]
  split
  · cases frames[i]? with
    | none => rfl
    | some f => exact congrArg some (hg f)
  · rfl

theorem BinaryOp.eq_of_apply_error {op : BinaryOp} {a b : Int64} {fault : Fault}
    (h : op.apply a b = .error fault) : fault = .divisionByZero := by
  cases op with
  | div =>
      simp only [BinaryOp.apply] at h
      split at h
      · exact (Except.error.inj h).symm
      · cases h
  | _ => cases h

/-- Text is written as a whole, or a sink that is not unlimited refuses it. -/
theorem Output.write_cases (output : Output) (text : String) :
    output.write text = (.ok (), { output with text := output.text ++ text }) ∨
      output.sink ≠ .unlimited ∧ ∃ message output', output.write text = (.error message, output') := by
  unfold Output.write
  cases hrefused : output.sink.refuse? output.text text with
  | none => exact .inl rfl
  | some refusal =>
      refine .inr ⟨fun hsink => ?_, _, _, rfl⟩
      rw [hsink] at hrefused
      cases hrefused

namespace CallStack

variable (below : Array Frame) (f : Frame)

@[simp] theorem current_apply : current ⟨below.push f⟩ = .ok f ⟨below.push f⟩ := by
  simp [current]

theorem modifyCurrent_push (g : Frame → Frame) :
    modifyCurrent ⟨below.push f⟩ g = ⟨below.push (g f)⟩ := by
  unfold modifyCurrent depth
  congr 1
  apply Array.ext'
  rw [Array.toList_modify, Array.toList_push, Array.toList_push, Array.size_push, Nat.add_sub_cancel,
    ← Array.length_toList, modify_middle]

theorem push_apply (v : Int64) : push v ⟨below.push f⟩ = .ok () ⟨below.push (f.push v)⟩ := by
  unfold push
  rw [Action.bind_of_ok (current_apply below f)]
  exact congrArg _ (modifyCurrent_push below f _)

theorem pop_apply (v : Int64) : pop ⟨below.push (f.push v)⟩ = .ok v ⟨below.push f⟩ := by
  unfold pop
  rw [Action.bind_of_ok (current_apply below _)]
  have hback : (f.push v).stack.back? = some v := by simp [Frame.push]
  simp only [hback]
  have hdrop := modifyCurrent_push below (f.push v) Frame.drop
  rw [Frame.drop_push] at hdrop
  exact congrArg (EStateM.Result.ok v) hdrop

theorem allocate_apply (count : Nat) :
    allocate count ⟨below.push f⟩ = .ok () ⟨below.push (f.allocate count)⟩ := by
  unfold allocate
  rw [Action.bind_of_ok (current_apply below f)]
  exact congrArg _ (modifyCurrent_push below f _)

theorem leave_apply : leave ⟨below.push f⟩ = .ok f.returnAddress ⟨below⟩ := by
  simp [leave]

variable {below f} {d j : Nat}

theorem resolve_apply (hd : d < Decimal.int64Bound) (hj : follow ⟨below.push f⟩ d below.size = some j) :
    resolve (.ofNat d) ⟨below.push f⟩ = .ok j ⟨below.push f⟩ := by
  have hj : follow ⟨below.push f⟩ d (depth ⟨below.push f⟩ - 1) = some j := by
    simpa [depth] using hj
  unfold resolve
  rw [if_neg (Operand.not_ofNat_lt_zero hd), if_neg (by simp [depth]), Operand.toInt_ofNat hd,
    Int.toNat_natCast, hj]

theorem load_apply {slot : Nat} {g : Frame} {v : Int64} (hd : d < Decimal.int64Bound)
    (hj : follow ⟨below.push f⟩ d below.size = some j) (hg : (below.push f)[j]? = some g)
    (hslot : slot < Decimal.int64Bound) (hv : g.locals[slot]? = some v) :
    load (.ofNat d) (.ofNat slot) ⟨below.push f⟩ = .ok v ⟨below.push f⟩ := by
  refine (Action.bind_of_ok (resolve_apply hd hj)).trans ?_
  simp only [hg, Operand.slot?_ofNat hslot, hv]

theorem store_apply {slot : Nat} {g : Frame} {v : Int64} (hd : d < Decimal.int64Bound)
    (hj : follow ⟨below.push f⟩ d below.size = some j) (hg : (below.push f)[j]? = some g)
    (hbound : slot < Decimal.int64Bound) (hslot : slot < g.locals.size) :
    store (.ofNat d) (.ofNat slot) v ⟨below.push f⟩
      = .ok () ⟨(below.push f).modify j (·.setLocal slot v)⟩ := by
  unfold store
  rw [Action.bind_of_ok (resolve_apply hd hj), Action.bind_of_ok (Action.get_apply _)]
  simp only [hg, Operand.slot?_ofNat hbound, if_pos hslot]
  rfl

/-- The frame of a call of the code at `entry`. -/
def called (returnAddress entry caller enclosing : Nat) : Frame :=
  ⟨returnAddress, entry, some caller, some enclosing, #[], #[]⟩

theorem call_apply {returnAddress entry : Nat} (hd : d < Decimal.int64Bound)
    (hj : follow ⟨below.push f⟩ d below.size = some j) :
    call returnAddress entry (.ofNat d) ⟨below.push f⟩ =
      .ok () ⟨(below.push f).push (called returnAddress entry below.size j)⟩ := by
  unfold call
  rw [Action.bind_of_ok (Action.get_apply _), Action.bind_of_ok (current_apply below f),
    Action.bind_of_ok (resolve_apply hd hj)]
  have hcaller : depth ⟨below.push f⟩ - 1 = below.size := by simp [depth]
  rw [hcaller]
  rfl

end CallStack

namespace Machine

variable {limits : Limits} {halt : Nat} {below : Array Frame} {f : Frame} {pc steps : Nat} {input : Input}
  {output : Output}

theorem onStack_apply {α : Type} {action : CallStack.Action α} {s s' : CallStack} {a : α}
    (h : action s = .ok a s') :
    onStack action ⟨s, pc, steps, input, output⟩ = .ok a ⟨s', pc, steps, input, output⟩ := by
  simp only [onStack, h]

theorem push_apply (v : Int64) :
    push limits v ⟨⟨below.push f⟩, pc, steps, input, output⟩ =
      if limits.stackSize ≤ f.stack.size then
        .error (.stackSizeLimit limits.stackSize) ⟨⟨below.push f⟩, pc, steps, input, output⟩
      else .ok () ⟨⟨below.push (f.push v)⟩, pc, steps, input, output⟩ := by
  unfold push
  rw [Action.bind_of_ok (onStack_apply (CallStack.current_apply below f))]
  split
  · rfl
  · exact onStack_apply (CallStack.push_apply below f v)

theorem pop_apply (v : Int64) :
    pop ⟨⟨below.push (f.push v)⟩, pc, steps, input, output⟩
      = .ok v ⟨⟨below.push f⟩, pc, steps, input, output⟩ :=
  onStack_apply (CallStack.pop_apply below f v)

theorem target_apply {address : Nat} (h : address < Decimal.int64Bound) (hle : address ≤ halt) (m : Machine) :
    target halt (.ofNat address) m = .ok address m := by
  unfold target
  simp only [Operand.slot?_ofNat h, if_pos hle]
  rfl

theorem frameLocals_apply {count : Nat} (h : count + reservedSlots < Decimal.int64Bound) (m : Machine) :
    frameLocals (.ofNat (count + reservedSlots)) m = .ok count m := by
  unfold frameLocals
  simp only [Operand.slot?_ofNat h, if_pos (Nat.le_add_left reservedSlots count), Nat.add_sub_cancel]
  rfl

theorem step_apply (limits : Limits) (halt : Nat) (i : Instr) (s : CallStack) (pc steps : Nat)
    (input : Input) (output : Output) :
    (∃ limit, step limits halt i ⟨s, pc, steps, input, output⟩
        = .error (.stepLimit limit) ⟨s, pc, steps + 1, input, output⟩) ∨
      step limits halt i ⟨s, pc, steps, input, output⟩
        = execute limits halt i ⟨s, pc + 1, steps + 1, input, output⟩ := by
  have hcount : count limits ⟨s, pc, steps, input, output⟩ = .ok () ⟨s, pc, steps + 1, input, output⟩ ∨
      ∃ limit, count limits ⟨s, pc, steps, input, output⟩
        = .error (.stepLimit limit) ⟨s, pc, steps + 1, input, output⟩ := by
    unfold count
    rw [Action.bind_of_ok (Action.modify_apply _ _)]
    cases limits.steps with
    | none => exact .inl rfl
    | some limit =>
        dsimp only
        rw [Action.bind_of_ok (Action.get_apply _)]
        split
        · exact .inr ⟨limit, rfl⟩
        · exact .inl rfl
  unfold step
  rcases hcount with h | ⟨limit, h⟩
  · rw [Action.bind_of_ok h]
    exact .inr rfl
  · rw [Action.bind_of_error h]
    exact .inl ⟨limit, rfl⟩

/-- What there is to see of a machine, apart from the number of steps it has taken. -/
structure Shows (frames : Array Frame) (pc : Nat) (input : Input) (output : Output) (m : Machine) :
    Prop where
  frames_eq : m.stack.frames = frames
  pc_eq : m.pc = pc
  input_eq : m.input = input
  output_eq : m.output = output

section

variable {code : Code} {K : Skeleton → Prop} {E : Fault → Prop} {Q : Machine → Prop} {m : Machine}
  {frames : Array Frame}

/-- A step is carried out, unless a limit refuses it. -/
theorem moves_of_execute (hE : ∀ fault, fault.IsLimit → E fault) {i : Instr}
    (hm : Shows frames pc input output m) (hi : code[pc]? = some i)
    (h : ∀ steps,
      (∃ frames' pc' input' output' steps', execute limits code.size i ⟨⟨frames⟩, pc + 1, steps, input, output⟩
          = .ok () ⟨⟨frames'⟩, pc', steps', input', output'⟩ ∧ K (frames'.map Frame.bone) ∧
          ∀ m', Shows frames' pc' input' output' m' → Q m') ∨
        ∃ fault m', execute limits code.size i ⟨⟨frames⟩, pc + 1, steps, input, output⟩ = .error fault m' ∧
          E fault) :
    Moves limits code (fun m => K m.stack.skeleton) E Q m := by
  obtain ⟨⟨_⟩, _, steps, _, _⟩ := m
  obtain ⟨rfl, rfl, rfl, rfl⟩ := hm
  refine ⟨i, hi, ?_⟩
  rcases step_apply limits code.size i _ _ steps _ _ with ⟨limit, hlimit⟩ | hexecute
  · exact .inr ⟨.stepLimit limit, _, hlimit, hE (.stepLimit limit) trivial⟩
  · rw [hexecute]
    rcases h (steps + 1) with ⟨frames', pc', input', output', steps', hrun, hK, hQ⟩ | ⟨fault, m', hrun, hfault⟩
    · exact .inl ⟨_, hrun, hK, hQ _ ⟨rfl, rfl, rfl, rfl⟩⟩
    · exact .inr ⟨fault, m', hrun, hfault⟩

variable (hE : ∀ fault, fault.IsLimit → E fault)

include hE

/-! ## Values -/

/-- An instruction that comes down to pushing a value. -/
theorem moves_push {i : Instr} {v : Int64} {input' : Input} (hm : Shows frames pc input output m)
    (hi : code[pc]? = some i)
    (h : ∀ steps, execute limits code.size i ⟨⟨frames⟩, pc + 1, steps, input, output⟩
      = push limits v ⟨⟨below.push f⟩, pc + 1, steps, input', output⟩)
    (hK : K ((below.push f).map Frame.bone)) :
    Moves limits code (fun m => K m.stack.skeleton) E
      (Shows (below.push (f.push v)) (pc + 1) input' output) m := by
  refine moves_of_execute hE hm hi fun steps => ?_
  rw [h, push_apply]
  split
  · exact .inr ⟨_, _, rfl, hE _ trivial⟩
  · exact .inl ⟨_, _, _, _, _, rfl, by simpa using hK, fun _ h => h⟩

theorem moves_loadConst {level v : Int64} (hm : Shows (below.push f) pc input output m)
    (hi : code[pc]? = some ⟨.loadConst, level, v⟩) (hK : K ((below.push f).map Frame.bone)) :
    Moves limits code (fun m => K m.stack.skeleton) E
      (Shows (below.push (f.push v)) (pc + 1) input output) m :=
  moves_push hE hm hi (fun _ => rfl) hK

theorem moves_loadVar {d slot j : Nat} {g : Frame} {v : Int64} (hm : Shows (below.push f) pc input output m)
    (hi : code[pc]? = some ⟨.loadVar, .ofNat d, .ofNat slot⟩) (hK : K ((below.push f).map Frame.bone))
    (hd : d < Decimal.int64Bound) (hj : CallStack.follow ⟨below.push f⟩ d below.size = some j)
    (hg : (below.push f)[j]? = some g) (hslot : slot < Decimal.int64Bound) (hv : g.locals[slot]? = some v) :
    Moves limits code (fun m => K m.stack.skeleton) E
      (Shows (below.push (f.push v)) (pc + 1) input output) m := by
  have hload : CallStack.load (.ofNat d) (.ofNat slot) ⟨below.push f⟩ = .ok v ⟨below.push f⟩ :=
    CallStack.load_apply hd hj hg hslot hv
  refine moves_push hE hm hi (fun steps => ?_) hK
  unfold execute
  exact Action.bind_of_ok (onStack_apply hload)

theorem moves_binary {op : BinaryOp} {a b v : Int64}
    (hm : Shows (below.push ((f.push a).push b)) pc input output m)
    (hi : code[pc]? = some (.operate (.binary op))) (hK : K ((below.push f).map Frame.bone))
    (hv : op.apply a b = .ok v) :
    Moves limits code (fun m => K m.stack.skeleton) E
      (Shows (below.push (f.push v)) (pc + 1) input output) m := by
  refine moves_push hE hm hi (fun steps => ?_) hK
  unfold execute
  simp only [Instr.operate, Operator.ofCode?_code, operate]
  rw [Action.bind_of_ok (pop_apply b), Action.bind_of_ok (pop_apply a), hv]

theorem moves_odd {a : Int64} (hm : Shows (below.push (f.push a)) pc input output m)
    (hi : code[pc]? = some (.operate .odd)) (hK : K ((below.push f).map Frame.bone)) :
    Moves limits code (fun m => K m.stack.skeleton) E
      (Shows (below.push (f.push (a % 2))) (pc + 1) input output) m := by
  refine moves_push hE hm hi (fun steps => ?_) hK
  unfold execute
  simp only [Instr.operate, Operator.ofCode?_code, operate]
  rw [Action.bind_of_ok (pop_apply a)]

theorem moves_read {input' : Input} {v : Int64} (hm : Shows (below.push f) pc input output m)
    (hi : code[pc]? = some (.operate .read)) (hK : K ((below.push f).map Frame.bone))
    (hread : input.readInt = (.ok v, input')) :
    Moves limits code (fun m => K m.stack.skeleton) E
      (Shows (below.push (f.push v)) (pc + 1) input' output) m := by
  refine moves_push hE hm hi (fun steps => ?_) hK
  unfold execute
  simp only [Instr.operate, Operator.ofCode?_code, operate]
  exact Action.bind_of_ok (by simp only [read, hread])

theorem moves_storeVar {d slot j : Nat} {g : Frame} {v : Int64}
    (hm : Shows (below.push (f.push v)) pc input output m)
    (hi : code[pc]? = some ⟨.storeVar, .ofNat d, .ofNat slot⟩) (hK : K ((below.push f).map Frame.bone))
    (hd : d < Decimal.int64Bound) (hj : CallStack.follow ⟨below.push f⟩ d below.size = some j)
    (hg : (below.push f)[j]? = some g) (hbound : slot < Decimal.int64Bound) (hslot : slot < g.locals.size) :
    Moves limits code (fun m => K m.stack.skeleton) E
      (Shows ((below.push f).modify j (·.setLocal slot v)) (pc + 1) input output) m := by
  have hstore : CallStack.store (.ofNat d) (.ofNat slot) v ⟨below.push f⟩
      = .ok () ⟨(below.push f).modify j (·.setLocal slot v)⟩ :=
    CallStack.store_apply hd hj hg hbound hslot
  have hbone := Frame.map_modify_setLocal Frame.bone (fun g => g.bone_setLocal slot v) (below.push f) j
  refine moves_of_execute hE hm hi fun steps => .inl ⟨_, _, _, _, steps, ?_, hbone ▸ hK, fun _ h => h⟩
  unfold execute
  exact (Action.bind_of_ok (pop_apply v)).trans (onStack_apply hstore)

/-! ## Control -/

theorem moves_jump {level : Int64} {address : Nat} (hm : Shows frames pc input output m)
    (hi : code[pc]? = some ⟨.jump, level, .ofNat address⟩) (hK : K (frames.map Frame.bone))
    (haddress : address < Decimal.int64Bound) (hle : address ≤ code.size) :
    Moves limits code (fun m => K m.stack.skeleton) E (Shows frames address input output) m := by
  refine moves_of_execute hE hm hi fun steps => .inl ⟨_, _, _, _, steps, ?_, hK, fun _ h => h⟩
  unfold execute
  exact Action.bind_of_ok (target_apply haddress hle _)

/-- A conditional jump drops a value and goes on after it, or at the target if the value is zero. -/
theorem moves_jumpIfFalse {level : Int64} {address : Nat} {v : Int64}
    (hm : Shows (below.push (f.push v)) pc input output m)
    (hi : code[pc]? = some ⟨.jumpIfFalse, level, .ofNat address⟩) (hK : K ((below.push f).map Frame.bone))
    (haddress : address < Decimal.int64Bound) (hle : address ≤ code.size) :
    Moves limits code (fun m => K m.stack.skeleton) E
      (Shows (below.push f) (if v = 0 then address else pc + 1) input output) m := by
  refine moves_of_execute hE hm hi fun steps => .inl ⟨_, _, _, _, steps, ?_, hK, fun _ h => h⟩
  unfold execute
  dsimp only
  rw [Action.bind_of_ok (pop_apply v)]
  split
  · exact Action.bind_of_ok (target_apply haddress hle _)
  · rfl

theorem moves_ret (hm : Shows (below.push f) pc input output m) (hi : code[pc]? = some (.operate .ret))
    (hK : K (below.map Frame.bone)) :
    Moves limits code (fun m => K m.stack.skeleton) E (Shows below f.returnAddress input output) m := by
  refine moves_of_execute hE hm hi fun steps => .inl ⟨_, _, _, _, steps, ?_, hK, fun _ h => h⟩
  unfold execute
  simp only [Instr.operate, Operator.ofCode?_code, operate]
  exact Action.bind_of_ok (onStack_apply (CallStack.leave_apply below f))

theorem moves_enter {level : Int64} {count : Nat} (hm : Shows (below.push f) pc input output m)
    (hi : code[pc]? = some ⟨.enter, level, .ofNat (count + reservedSlots)⟩)
    (hK : K ((below.push f).map Frame.bone)) (hcount : count + reservedSlots < Decimal.int64Bound) :
    Moves limits code (fun m => K m.stack.skeleton) E
      (Shows (below.push (f.allocate count)) (pc + 1) input output) m := by
  refine moves_of_execute hE hm hi fun steps => .inl ⟨_, _, _, _, steps, ?_, by simpa using hK, fun _ h => h⟩
  unfold execute
  exact (Action.bind_of_ok (frameLocals_apply hcount _)).trans
    (onStack_apply (CallStack.allocate_apply below f count))

theorem moves_call {d j entry : Nat} (hm : Shows (below.push f) pc input output m)
    (hi : code[pc]? = some ⟨.call, .ofNat d, .ofNat entry⟩) (hd : d < Decimal.int64Bound)
    (hj : CallStack.follow ⟨below.push f⟩ d below.size = some j)
    (hentry : entry < Decimal.int64Bound) (hle : entry ≤ code.size)
    (hK : K (((below.push f).push (CallStack.called (pc + 1) entry below.size j)).map Frame.bone)) :
    Moves limits code (fun m => K m.stack.skeleton) E
      (Shows ((below.push f).push (CallStack.called (pc + 1) entry below.size j)) entry input output) m := by
  refine moves_of_execute hE hm hi fun steps => ?_
  unfold execute
  dsimp only
  rw [Action.bind_of_ok (Action.get_apply _)]
  split
  · exact .inr ⟨_, _, rfl, hE _ trivial⟩
  · refine .inl ⟨_, _, _, _, steps, ?_, hK, fun _ h => h⟩
    rw [Action.bind_of_ok (target_apply hentry hle _), Action.bind_of_ok (Action.get_apply _),
      Action.bind_of_ok (onStack_apply (CallStack.call_apply hd hj))]
    rfl

/-! ## Output and faults -/

theorem moves_write {v : Int64} (hm : Shows (below.push (f.push v)) pc input output m)
    (hi : code[pc]? = some (.operate .write)) (hK : K ((below.push f).map Frame.bone))
    (hsink : output.sink = .unlimited ∨ ∀ message, E (.output message)) :
    Moves limits code (fun m => K m.stack.skeleton) E
      (Shows (below.push f) (pc + 1) input
        { output with text := output.text ++ (Decimal.ofInt64 v ++ "\n") }) m := by
  refine moves_of_execute hE hm hi fun steps => ?_
  unfold execute
  simp only [Instr.operate, Operator.ofCode?_code, operate]
  rw [Action.bind_of_ok (pop_apply v)]
  unfold write
  rcases output.write_cases (Decimal.ofInt64 v ++ "\n") with hwrite | ⟨hlimited, message, output', hwrite⟩
  · simp only [hwrite]
    exact .inl ⟨_, _, _, _, steps, rfl, hK, fun _ h => h⟩
  · simp only [hwrite]
    exact .inr ⟨_, _, rfl, hsink.resolve_left hlimited message⟩

theorem leads_of_execute_error {i : Instr} {fault : Fault} {F : Fault → Machine → Prop}
    (hm : Shows frames pc input output m) (hi : code[pc]? = some i)
    (h : ∀ steps, ∃ m', execute limits code.size i ⟨⟨frames⟩, pc + 1, steps, input, output⟩
      = .error fault m' ∧ m'.output = output) (hF : ∀ m', m'.output = output → F fault m') :
    Leads limits code (fun m => K m.stack.skeleton) E Q F m := by
  obtain ⟨⟨_⟩, _, steps, _, _⟩ := m
  obtain ⟨rfl, rfl, rfl, rfl⟩ := hm
  rcases step_apply limits code.size i _ _ steps _ _ with ⟨limit, hlimit⟩ | hexecute
  · exact .fault hi hlimit (.inl (hE (.stepLimit limit) trivial))
  · obtain ⟨m', hrun, hm'⟩ := h (steps + 1)
    exact .fault hi (hexecute.trans hrun) (.inr (hF m' hm'))

theorem leads_binary_error {op : BinaryOp} {a b : Int64} {fault : Fault} {F : Fault → Machine → Prop}
    (hm : Shows (below.push ((f.push a).push b)) pc input output m)
    (hi : code[pc]? = some (.operate (.binary op))) (hfault : op.apply a b = .error fault)
    (hF : ∀ m', m'.output = output → F fault m') :
    Leads limits code (fun m => K m.stack.skeleton) E Q F m := by
  refine leads_of_execute_error hE hm hi (fun steps => ?_) hF
  unfold execute
  simp only [Instr.operate, Operator.ofCode?_code, operate]
  rw [Action.bind_of_ok (pop_apply b), Action.bind_of_ok (pop_apply a), hfault]
  exact ⟨_, rfl, rfl⟩

theorem leads_read_error {input' : Input} {e : InputError} {F : Fault → Machine → Prop}
    (hm : Shows frames pc input output m) (hi : code[pc]? = some (.operate .read))
    (hread : input.readInt = (.error e, input')) (hF : ∀ m', m'.output = output → F (.input e) m') :
    Leads limits code (fun m => K m.stack.skeleton) E Q F m := by
  refine leads_of_execute_error hE hm hi (fun steps => ?_) hF
  unfold execute
  simp only [Instr.operate, Operator.ofCode?_code, operate]
  have hfail : read ⟨⟨frames⟩, pc + 1, steps, input, output⟩
      = .error (.input e) ⟨⟨frames⟩, pc + 1, steps, input', output⟩ := by
    simp only [read, hread]
  exact ⟨_, Action.bind_of_error hfail, rfl⟩

end

end Machine

end PLZero
