import PLZero.Text.Decimal

/-!
# Faults

Why a machine stops before its program has ended. A failure is a cause with what is known about its
place: the instruction that failed and the calls that were active.
-/

namespace PLZero

inductive InputError where
  /-- The source of the input failed. -/
  | source (message : String)
  | endOfInput
  | notAnInteger (text : String)
deriving DecidableEq

def InputError.message : InputError → String
  | source message => message
  | endOfInput => "unexpected end of input"
  | notAnInteger text => s!"'{text}' is not an integer"

/-- Why an instruction cannot be carried out. -/
inductive Fault where
  | noActiveFrame
  | returnWithoutFrame
  | stackUnderflow
  | chainOverrun (distance : Int64)
  | slotOutOfRange (slot : Int64)
  | divisionByZero
  | invalidOperator (code : Int64)
  | invalidTarget (address : Int64)
  | invalidFrameSize (size : Int64)
  | stepLimit (limit : Nat)
  | callDepthLimit (limit : Nat)
  | stackSizeLimit (limit : Nat)
  | input (error : InputError)
  | output (message : String)
deriving DecidableEq

def Fault.message : Fault → String
  | noActiveFrame => "no active frame"
  | returnWithoutFrame => "return with no active frame"
  | stackUnderflow => "stack underflow: evaluation stack is empty"
  | chainOverrun distance =>
    "frame chain overrun: cannot follow " ++ Decimal.ofInt64 distance ++ " static link(s)"
  | slotOutOfRange slot => "local slot " ++ Decimal.ofInt64 slot ++ " out of range"
  | divisionByZero => "division by zero"
  | invalidOperator code => "invalid operator " ++ Decimal.ofInt64 code
  | invalidTarget address => "invalid jump target " ++ Decimal.ofInt64 address
  | invalidFrameSize size => "invalid frame size " ++ Decimal.ofInt64 size
  | stepLimit limit => s!"execution step limit exceeded ({limit})"
  | callDepthLimit limit => s!"call depth limit exceeded ({limit}) - possible infinite recursion"
  | stackSizeLimit limit => s!"stack size limit exceeded ({limit})"
  | input error => "input error: " ++ error.message
  | output message => "output error: " ++ message

/-- An active call: where its code starts and where it returns to. -/
structure CallSite where
  entry : Nat
  returnAddress : Nat
deriving DecidableEq

def CallSite.text (site : CallSite) : String :=
  "@" ++ Decimal.padded 4 site.entry ++ s!" returns to {site.returnAddress}"

/-- A cause with its place. The active calls are given outermost first. -/
structure Failure (ε : Type) where
  cause : ε
  pc : Option Nat
  callStack : List CallSite
deriving DecidableEq

namespace Failure

variable {ε : Type}

/-- A cause whose place is not known. -/
def ofCause (cause : ε) : Failure ε := ⟨cause, none, []⟩

/-- Says which instruction failed, unless that is known already. -/
def atInstr (f : Failure ε) (pc : Nat) : Failure ε := { f with pc := f.pc <|> some pc }

/-- Says which calls were active, unless that is known already. -/
def withCallStack (f : Failure ε) (sites : List CallSite) : Failure ε :=
  if f.callStack.isEmpty then { f with callStack := sites } else f

/-- The text of a failure, given that of its cause; the active calls are shown innermost first. -/
def render (message : ε → String) (f : Failure ε) : String :=
  let place := match f.pc with
    | some pc => s!" (at instruction {pc})"
    | none => ""
  let calls := f.callStack.reverse.zipIdx.map fun (site, index) => s!"\n    {index}: " ++ site.text
  let heading := if calls.isEmpty then "" else "\n  call stack:"
  "runtime error: " ++ message f.cause ++ place ++ heading ++ String.join calls

def message (f : Failure Fault) : String := f.render Fault.message

end Failure

end PLZero
