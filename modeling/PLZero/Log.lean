import PLZero.Text.Terminal

/-!
# Log entries

What the parts of the system report about their work. An entry is data: who runs them decides which
entries to show and where. The text of an entry may quote a name from outside, so it is printed such
that it can neither pass for another entry nor act on a terminal.
-/

namespace PLZero

/-- How much attention an entry wants, most first. -/
inductive Log.Level where
  | warn | info | debug | trace
deriving DecidableEq

namespace Log

def Level.name : Level → String
  | warn => "WARN"
  | info => "INFO"
  | debug => "DEBUG"
  | trace => "TRACE"

/-- Levels in the order of their detail. -/
def Level.detail : Level → Nat
  | warn => 0
  | info => 1
  | debug => 2
  | trace => 3

structure Entry where
  level : Level
  text : String
deriving DecidableEq

/-- How far the lines of an entry after its first one are indented. -/
def indentation : Nat := 4

/-- A text with its lines after the first one indented. -/
def indented (text : String) : String :=
  String.ofList <| text.toList.flatMap fun c =>
    if c = '\n' then c :: List.replicate indentation ' ' else [c]

/-- An entry as it is printed, with the end of its line. -/
def Entry.line (entry : Entry) : String :=
  Text.Terminal.visible (entry.level.name ++ " " ++ indented entry.text ++ "\n")

/-- The entries that are no more detailed than a level. -/
def upTo (level : Level) (entries : List Entry) : List Entry :=
  entries.filter fun entry => entry.level.detail ≤ level.detail

end Log

end PLZero
