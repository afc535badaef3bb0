import PLZero.Command

/-!
# The command line

Reads files, feeds the machine lines of the standard input as it asks for them, and prints.
-/

namespace PLZero

open Command

/-- An error of the system: its text starts with a capital, and its code may come negated. -/
def systemText (code : UInt32) (details : String) : String :=
  s!"{details.capitalize} (os error {code.toInt32.toInt.natAbs})"

def systemMessage : IO.Error → String
  | .alreadyExists _ code details | .otherError code details | .resourceBusy code details
  | .resourceVanished code details | .unsupportedOperation code details
  | .hardwareFault code details | .unsatisfiedConstraints code details
  | .illegalOperation code details | .protocolError code details | .timeExpired code details
  | .interrupted _ code details | .noFileOrDirectory _ code details
  | .invalidArgument _ code details | .permissionDenied _ code details
  | .resourceExhausted _ code details | .inappropriateType _ code details
  | .noSuchThing _ code details => systemText code details
  | e => toString e

/-- The result of an action, with the system's name of an error. -/
def attempt {α : Type} (action : IO α) : IO (Except String α) := do
  try
    return .ok (← action)
  catch e =>
    return .error (systemMessage e)

def printNotice (notice : Notice) : IO Unit := IO.eprint notice.text

/-- Prints log entries, of those that the options ask for. -/
def printLog (options : Options) (entries : List Log.Entry) : IO Unit :=
  (Log.upTo options.logLevel entries).forM fun entry => printNotice (.log entry)

/-- The bytes of the next line of a stream, with its newline; none at the end of the stream. -/
partial def readLine (stream : IO.FS.Stream) (line : ByteArray) : IO ByteArray := do
  let byte ← stream.read 1
  let line := line ++ byte
  if byte.isEmpty || byte.toList = [0x0A] then return line else readLine stream line

/-- Hands the machine another line of the standard input, and says whether there was none. -/
def feed (stdin : IO.FS.Stream) (m : Machine) : IO (Machine × Bool) := do
  let line ← readLine stdin .empty
  let pieces := m.input.pieces ++ [line.toList]
  return ({ m with input := { m.input with pieces } }, line.isEmpty)

/-- Prints what the machine has written since the last time. -/
def drain (stdout : IO.FS.Stream) (m : Machine) : IO Machine := do
  if m.output.text.isEmpty then
    return m
  else
    stdout.putStr m.output.text
    return { m with output := { m.output with text := "" } }

/-- Runs a machine step by step until it is done. -/
partial def runToEnd (options : Options) (code : Code) (m : Machine) (ended : Bool) :
    IO (Machine × Except (Failure Fault) Unit) := do
  if !ended && m.awaitsInput code then
    let (m, ended) ← feed (← IO.getStdin) m
    runToEnd options code m ended
  else
    if options.logLevel = .trace then
      printLog options (m.logFor options.limits code 1)
    match m.runFor options.limits code 1 with
    | .running m => runToEnd options code (← drain (← IO.getStdout) m) ended
    | .done result m => return (← drain (← IO.getStdout) m, result)

/-- Carries out a stage and those after it, and gives the exit code. -/
partial def carryOut (options : Options) (stage : Stage) : IO UInt32 := do
  IO.print stage.text
  stage.notices.forM printNotice
  match stage.next with
  | .exit code => return code.toUInt32
  | .writeImage path code =>
    let bytes := ByteArray.mk (Image.encode code).toArray
    let result ← attempt (IO.FS.writeBinFile path bytes)
    carryOut options (afterWrite options path code result)
  | .run code =>
    printLog options [Machine.startEntry code]
    let (m, result) ← runToEnd options code (.boot code ⟨[], none⟩ .unlimited) false
    carryOut options (afterRun options m result)

end PLZero

open PLZero in
/-- Runs the command; arguments that are refused give exit code 2. -/
def main (args : List String) : IO UInt32 := do
  match Command.Options.parse args with
  | none =>
    IO.eprintln "usage: plzero [OPTIONS] FILE"
    return 2
  | some options =>
    let content ← attempt (IO.FS.readBinFile options.file)
    carryOut options (Command.start options content)
