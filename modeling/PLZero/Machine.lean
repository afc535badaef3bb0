import PLZero.Assembly
import PLZero.Log
import PLZero.Machine.CallStack
import PLZero.Machine.Channel
import PLZero.Text.Column

/-!
# The machine

Runs code from its first instruction, in a program frame that returns past the last one: there the
machine halts. A step that fails leaves the machine as far as it got, and the failure says which
instruction it was and which calls were active.

Running is given for a number of steps at a time, so that it is a total function; a caller goes on
with the machine until it is done.
-/

namespace PLZero

structure Limits where
  /-- The number of calls that may be active; the program itself is none. -/
  callDepth : Nat := 10000
  /-- The number of steps, if it is limited. -/
  steps : Option Nat := none
  /-- The number of values that a frame may hold for the expression it evaluates. -/
  stackSize : Nat := 10000

/-- A machine that runs some code. -/
structure Machine where
  stack : CallStack
  pc : Nat
  /-- The number of steps that have been tried. -/
  steps : Nat
  input : Input
  output : Output

abbrev Exec := EStateM Fault Machine

/-- How far a run has come. -/
inductive Progress where
  | running (m : Machine)
  | done (result : Except (Failure Fault) Unit) (m : Machine)

namespace BinaryOp

def truth (p : Prop) [Decidable p] : Int64 := if p then 1 else 0

/-- The value of an operator. Arithmetic wraps around and division goes towards zero. -/
def apply (op : BinaryOp) (lhs rhs : Int64) : Except Fault Int64 :=
  match op with
  | sub => .ok (lhs - rhs)
  | add => .ok (lhs + rhs)
  | mul => .ok (lhs * rhs)
  | div => if rhs = 0 then .error .divisionByZero else .ok (lhs / rhs)
  | lt => .ok (truth (lhs < rhs))
  | le => .ok (truth (lhs ≤ rhs))
  | gt => .ok (truth (rhs < lhs))
  | ge => .ok (truth (rhs ≤ lhs))
  | eq => .ok (truth (lhs = rhs))
  | ne => .ok (truth (lhs ≠ rhs))

end BinaryOp

namespace Machine

/-- A machine before the first instruction of code. -/
def boot (code : Code) (input : Input) (output : Output) : Machine :=
  ⟨.boot code.size, 0, 0, input, output⟩

/-! ## Parts of a step -/

def onStack {α : Type} (action : CallStack.Action α) : Exec α
  | ⟨stack, pc, steps, input, output⟩ =>
    match action stack with
    | .ok a stack => .ok a ⟨stack, pc, steps, input, output⟩
    | .error fault stack => .error fault ⟨stack, pc, steps, input, output⟩

/-- Pushes a value, if the current frame may hold another one. -/
def push (limits : Limits) (value : Int64) : Exec Unit := do
  let frame ← onStack CallStack.current
  if limits.stackSize ≤ frame.stack.size then
    throw (.stackSizeLimit limits.stackSize)
  else
    onStack (CallStack.push value)

def pop : Exec Int64 := onStack CallStack.pop

/-- The instruction that an address denotes, or the place where the machine halts. -/
def target (halt : Nat) (address : Int64) : Exec Nat :=
  match CallStack.slot? address with
  | some index => if index ≤ halt then return index else throw (.invalidTarget address)
  | none => throw (.invalidTarget address)

def jump (index : Nat) : Exec Unit := modify fun m => { m with pc := index }

/-- The number of local slots in a frame of a given size. -/
def frameLocals (size : Int64) : Exec Nat :=
  match CallStack.slot? size with
  | some slots =>
    if reservedSlots ≤ slots then return slots - reservedSlots else throw (.invalidFrameSize size)
  | none => throw (.invalidFrameSize size)

def read : Exec Int64
  | ⟨stack, pc, steps, input, output⟩ =>
    match input.readInt with
    | (.ok value, input) => .ok value ⟨stack, pc, steps, input, output⟩
    | (.error e, input) => .error (.input e) ⟨stack, pc, steps, input, output⟩

/-- Writes an integer on a line of its own. -/
def write (value : Int64) : Exec Unit
  | ⟨stack, pc, steps, input, output⟩ =>
    match output.write (Decimal.ofInt64 value ++ "\n") with
    | (.ok _, output) => .ok () ⟨stack, pc, steps, input, output⟩
    | (.error message, output) => .error (.output message) ⟨stack, pc, steps, input, output⟩

/-! ## Steps -/

def operate (limits : Limits) (op : Operator) : Exec Unit := do
  match op with
  | .ret => jump (← onStack CallStack.leave)
  | .read => push limits (← read)
  | .write => write (← pop)
  | .odd => push limits ((← pop) % 2)
  | .binary op =>
    let rhs ← pop
    let lhs ← pop
    match op.apply lhs rhs with
    | .ok value => push limits value
    | .error fault => throw fault

/-- Carries out an instruction of code that ends at `halt`. -/
def execute (limits : Limits) (halt : Nat) (i : Instr) : Exec Unit := do
  match i.opcode with
  | .loadConst => push limits i.address
  | .loadVar => push limits (← onStack (CallStack.load i.level i.address))
  | .storeVar =>
    let value ← pop
    onStack (CallStack.store i.level i.address value)
  | .call =>
    if limits.callDepth < (← get).stack.depth then
      throw (.callDepthLimit limits.callDepth)
    else
      let entry ← target halt i.address
      onStack (CallStack.call (← get).pc entry i.level)
      jump entry
  | .enter =>
    let count ← frameLocals i.address
    onStack (CallStack.allocate count)
  | .jump => jump (← target halt i.address)
  | .jumpIfFalse =>
    if (← pop) = 0 then
      jump (← target halt i.address)
  | .operate =>
    match Operator.ofCode? i.address with
    | some op => operate limits op
    | none => throw (.invalidOperator i.address)

/-- Counts a step, which the limit may refuse. -/
def count (limits : Limits) : Exec Unit := do
  modify fun m => { m with steps := m.steps + 1 }
  match limits.steps with
  | some limit => if limit < (← get).steps then throw (.stepLimit limit)
  | none => return

/-- One step: the instruction is counted, the machine moves to the next one, and carries it out. -/
def step (limits : Limits) (halt : Nat) (i : Instr) : Exec Unit := do
  count limits
  modify fun m => { m with pc := m.pc + 1 }
  execute limits halt i

/-! ## Runs -/

/-- The failure of the instruction at `pc`, which left the machine as it is. -/
def failure (pc : Nat) (fault : Fault) (m : Machine) : Failure Fault :=
  ((Failure.ofCause fault).atInstr pc).withCallStack m.stack.sites

/-- Completes the output of a machine that has halted. -/
def conclude (m : Machine) : Except (Failure Fault) Unit :=
  match m.output.flush with
  | .ok _ => .ok ()
  | .error message => .error (.ofCause (.output message))

/-- Runs code for at most the given number of steps. -/
def runFor (limits : Limits) (code : Code) : Nat → Machine → Progress
  | 0, m => .running m
  | n + 1, m =>
    match code[m.pc]? with
    | none => .done m.conclude m
    | some i =>
      let pc := m.pc
      match step limits code.size i m with
      | .ok _ m => runFor limits code n m
      | .error fault m => .done (.error (m.failure pc fault)) m

/-! ## Waiting for input -/

/-- Whether the next instruction reads a word that has not arrived as a whole. -/
def awaitsInput (code : Code) (m : Machine) : Bool :=
  match code[m.pc]? with
  | some i => i.opcode = .operate && Operator.ofCode? i.address = some .read && !m.input.hasWord
  | none => false

/-! ## Reports -/

def startEntry (code : Code) : Log.Entry := ⟨.debug, s!"vm: running {code.size} instructions"⟩

def haltEntry (m : Machine) : Log.Entry := ⟨.debug, s!"vm: halted after {m.steps} steps"⟩

/-- What is reported before an instruction is carried out. -/
def instrEntry (m : Machine) (i : Instr) : Log.Entry :=
  ⟨.trace, Decimal.padded 4 m.pc ++ " " ++ Text.flushLeft 14 i.opcode.name ++ " "
    ++ Text.flushRight 3 (Decimal.ofInt64 i.level) ++ " "
    ++ Text.flushRight 6 (Decimal.ofInt64 i.address) ++ s!"  depth={m.stack.depth}"⟩

def returnEntry (m : Machine) : Log.Entry := ⟨.trace, "return to " ++ Decimal.padded 4 m.pc⟩

/-- Whether the limit refuses the next step. -/
def atStepLimit (limits : Limits) (m : Machine) : Bool :=
  match limits.steps with
  | some limit => limit ≤ m.steps
  | none => false

/-- What is reported about at most the given number of steps. -/
def logFor (limits : Limits) (code : Code) : Nat → Machine → List Log.Entry
  | 0, _ => []
  | n + 1, m =>
    match code[m.pc]? with
    | none => []
    | some i =>
      if m.atStepLimit limits then []
      else
        m.instrEntry i ::
          match step limits code.size i m with
          | .ok _ m' =>
            let rest := logFor limits code n m'
            if i.opcode = .operate ∧ Operator.ofCode? i.address = some .ret then
              m'.returnEntry :: rest
            else rest
          | .error .. => []

end Machine

end PLZero
