import PLZero.Code.Listing
import PLZero.Code.Statistics
import PLZero.Command.Options
import PLZero.Pipeline
import PLZero.Token.Table
import PLZero.Tree.Outline

/-!
# The command

What the command does between the operations on files and the run of the machine, which are left to
its caller. Each stage says what to print and what comes next.
-/

namespace PLZero.Command

inductive Notice where
  | log (entry : Log.Entry)
  | failure (message : String)

def Notice.text : Notice → String
  | log entry => entry.line
  | failure message => message ++ "\n"

inductive Next where
  | exit (code : Nat)
  /-- Write an image to a file; then go on with `afterWrite`. -/
  | writeImage (path : String) (code : Code)
  /-- Run code; then go on with `afterRun`. -/
  | run (code : Code)

/-- A stage: text to print, messages for the user, and what comes next. -/
structure Stage where
  text : String
  notices : List Notice
  next : Next

namespace Stage

def fail (message : String) : Stage := ⟨"", [.failure message], .exit 1⟩

def print (text : String) : Stage := ⟨text, [], .exit 0⟩

/-- A stage with log entries in front, of those that the options ask for. -/
def withLog (s : Stage) (options : Options) (entries : List Log.Entry) : Stage :=
  { s with notices := (Log.upTo options.logLevel entries).map .log ++ s.notices }

end Stage

/-! ## File names -/

/-- The last component of a path that names something in a directory. Empty components and `.` name
nothing. -/
def fileName? (path : List Char) : Option (List Char) :=
  let components := (path.splitOn '/').filter fun name => name ≠ [] ∧ name ≠ ['.']
  match components.getLast? with
  | some name => if name = ['.', '.'] then none else some name
  | none => none

/-- What follows the last dot of a file name. A name that has only its first character as a dot has no
extension. -/
def extension? (path : List Char) : Option (List Char) :=
  match fileName? path with
  | none => none
  | some name =>
    let reversed := name.reverse.takeWhile (· ≠ '.')
    if reversed.length + 1 < name.length then some reversed.reverse else none

def isSourceFile (path : String) : Bool := extension? path.toList = some "pl0".toList

/-! ## Stages -/

def useCode (options : Options) (code : Code) : Stage :=
  match options.emit with
  | some path => ⟨"", [], .writeImage path code⟩
  | none =>
    if options.has .bc then .print code.dump
    else if options.has .listing then .print (Listing.title ++ Listing.ofCode code)
    else if options.has .stats then .print (Statistics.ofCode code)
    else ⟨"", [], .run code⟩

def indexList (indices : List Nat) : String :=
  "[" ++ ", ".intercalate (indices.map fun (n : Nat) => Decimal.ofInt n) ++ "]"

/-- The stage for an image, given its bytes or why they cannot be read. -/
def loadImage (options : Options) (content : Except String ByteArray) : Stage :=
  match content with
  | .error message => .fail (Error.file message).message
  | .ok bytes => match Image.decode bytes.toList with
    | .error e => .fail (Error.image e).message
    | .ok code =>
      let dangling := code.dangling
      let warning : List Log.Entry :=
        if dangling.isEmpty then []
        else [⟨.warn, "image has branches with invalid targets at " ++ indexList dangling⟩]
      let loaded : Log.Entry := ⟨.info, s!"loaded {code.size} instructions from {options.file}"⟩
      (useCode options code).withLog options (warning ++ [loaded])

def useSource (options : Options) (source : String) : Stage :=
  if options.has .tokens then
    match Token.lex source with
    | .error e => .fail (Error.lexing e).message
    | .ok tokens => .print (Token.table (!options.has .noColor) tokens)
  else if options.has .ast then
    match Source.parse source with
    | .error e => .fail e.message
    | .ok block => .print block.outline
  else
    let (result, entries) := Source.compile source
    match result with
    | .error e => (Stage.fail e.message).withLog options entries
    | .ok code => (useCode options code).withLog options entries

/-- What is reported about a source that is no text. -/
def notText : String := "stream did not contain valid UTF-8"

/-- The stage for a source file, given its bytes or why they cannot be read. -/
def loadSource (options : Options) (content : Except String ByteArray) : Stage :=
  let unreadable (message : String) : Stage :=
    .fail (s!"Failed to read '{options.file}': " ++ message)
  let stage := match content with
    | .error message => unreadable message
    | .ok bytes => match String.fromUTF8? bytes with
      | some source => useSource options source
      | none => unreadable notText
  if isSourceFile options.file then stage
  else stage.withLog options [⟨.warn, s!"expected a .pl0 file, got {options.file}"⟩]

/-- The first stage, given the bytes of the file or why they cannot be read. -/
def start (options : Options) (content : Except String ByteArray) : Stage :=
  if options.has .image then loadImage options content else loadSource options content

/-- The stage after an image was written, or why it was not. -/
def afterWrite (options : Options) (path : String) (code : Code) (result : Except String Unit) :
    Stage :=
  match result with
  | .error message => .fail (Error.file message).message
  | .ok _ =>
    let size := (Image.encode code).length
    (Stage.print "").withLog options
      [⟨.info, s!"wrote {code.size} instructions ({size} bytes) to {path}"⟩]

def afterRun (options : Options) (m : Machine) (result : Except (Failure Fault) Unit) : Stage :=
  match result with
  | .error f => .fail (Error.running f).message
  | .ok _ => (Stage.print "").withLog options [m.haltEntry]

end PLZero.Command
