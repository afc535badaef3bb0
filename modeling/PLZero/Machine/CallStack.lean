import PLZero.Machine.Fault

/-!
# Call stacks

The activations of blocks that have not ended, outermost first; the last one is the current one. The
dynamic link of a frame is its caller, the static link an activation of the block around its own;
both are indices into the stack and lie below the frame.
-/

namespace PLZero

/-- The activation of a block. -/
structure Frame where
  returnAddress : Nat
  /-- Where the code of the block starts; zero for the program. -/
  entry : Nat
  dynamicLink : Option Nat
  staticLink : Option Nat
  /-- The values of the expression that is being evaluated, the newest last. -/
  stack : Array Int64
  locals : Array Int64
deriving DecidableEq

namespace Frame

def push (f : Frame) (value : Int64) : Frame := { f with stack := f.stack.push value }

def drop (f : Frame) : Frame := { f with stack := f.stack.pop }

/-- Adds local slots that hold zero. -/
def allocate (f : Frame) (count : Nat) : Frame :=
  { f with locals := f.locals ++ Array.replicate count 0 }

def setLocal (f : Frame) (slot : Nat) (value : Int64) : Frame :=
  { f with locals := f.locals.setIfInBounds slot value }

/-- What a backtrace shows of a frame. -/
def site (f : Frame) : CallSite := ⟨f.entry, f.returnAddress⟩

end Frame

/-- The activations that have not ended. -/
structure CallStack where
  frames : Array Frame
deriving DecidableEq

namespace CallStack

def empty : CallStack := ⟨#[]⟩

/-- Only the program is active, which returns to `halt`. -/
def boot (halt : Nat) : CallStack := ⟨#[⟨halt, 0, none, none, #[], #[]⟩]⟩

def depth (s : CallStack) : Nat := s.frames.size

/-- The active calls, outermost first. -/
def sites (s : CallStack) : List CallSite := s.frames.toList.map Frame.site

def modifyCurrent (s : CallStack) (f : Frame → Frame) : CallStack :=
  ⟨s.frames.modify (s.depth - 1) f⟩

/-- Follows static links from a frame. -/
def follow (s : CallStack) : Nat → Nat → Option Nat
  | 0, index => some index
  | links + 1, index =>
    match s.frames[index]? with
    | some frame => match frame.staticLink with
      | some enclosing => s.follow links enclosing
      | none => none
    | none => none

/-- The index that a signed operand denotes. -/
def slot? (operand : Int64) : Option Nat :=
  if operand < 0 then none else some operand.toInt.toNat

/-- An operation on a call stack that may fail. -/
abbrev Action := EStateM Fault CallStack

def current : Action Frame := fun s =>
  match s.frames.back? with
  | some frame => .ok frame s
  | none => .error .noActiveFrame s

/-- The frame that a number of static links lead to from the current one. -/
def resolve (distance : Int64) : Action Nat := fun s =>
  if distance < 0 then .error (.chainOverrun distance) s
  else if s.depth = 0 then .error .noActiveFrame s
  else match s.follow distance.toInt.toNat (s.depth - 1) with
    | some index => .ok index s
    | none => .error (.chainOverrun distance) s

/-- Makes a new frame current, for a call from the one that is. -/
def call (returnAddress entry : Nat) (distance : Int64) : Action Unit := do
  let caller := (← get).depth - 1
  let _ ← current
  let enclosing ← resolve distance
  modify fun s => ⟨s.frames.push ⟨returnAddress, entry, some caller, some enclosing, #[], #[]⟩⟩

/-- Ends the current frame and gives its return address. -/
def leave : Action Nat := fun s =>
  match s.frames.back? with
  | some frame => .ok frame.returnAddress ⟨s.frames.pop⟩
  | none => .error .returnWithoutFrame s

/-- The value of a local slot of the frame at a distance. -/
def load (distance slot : Int64) : Action Int64 := do
  let index ← resolve distance
  fun s => match s.frames[index]?, slot? slot with
    | some frame, some i => match frame.locals[i]? with
      | some value => .ok value s
      | none => .error (.slotOutOfRange slot) s
    | _, _ => .error (.slotOutOfRange slot) s

/-- Puts a value into a local slot of the frame at a distance. -/
def store (distance slot value : Int64) : Action Unit := do
  let index ← resolve distance
  let frames := (← get).frames
  match frames[index]?, slot? slot with
  | some frame, some i =>
    if i < frame.locals.size then
      modify fun s => ⟨s.frames.modify index (·.setLocal i value)⟩
    else
      throw (.slotOutOfRange slot)
  | _, _ => throw (.slotOutOfRange slot)

def allocate (count : Nat) : Action Unit := do
  let _ ← current
  modify (·.modifyCurrent (·.allocate count))

def push (value : Int64) : Action Unit := do
  let _ ← current
  modify (·.modifyCurrent (·.push value))

def pop : Action Int64 := do
  let frame ← current
  match frame.stack.back? with
  | some value =>
    modify (·.modifyCurrent Frame.drop)
    return value
  | none => throw .stackUnderflow

end CallStack

end PLZero
