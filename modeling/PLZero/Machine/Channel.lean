import PLZero.Machine.Fault
import PLZero.Text.Utf8

/-!
# Input and output

Input arrives in pieces; reading an integer takes the next word, whatever the pieces. Output is text for
a sink, which may refuse any of it at any time.
-/

namespace PLZero

/-- Bytes that are not read yet, in the pieces in which they arrive, and what the source reports after
the last of them: the end of the input, unless it fails. -/
structure Input where
  pieces : List (List UInt8)
  failure : Option String

namespace Input

def ofBytes (bytes : List UInt8) : Input := ⟨[bytes], none⟩

def bytes (input : Input) : List UInt8 := input.pieces.flatten

/-- A byte that separates words: space, tab, newline, form feed or carriage return. -/
def isBlank (b : UInt8) : Bool :=
  b = 0x20 || b = 0x09 || b = 0x0A || b = 0x0C || b = 0x0D

structure Word where
  bytes : List UInt8
  /-- Whether a blank ended the word, and not the end of the pieces. -/
  ended : Bool
  /-- The pieces after the blank. -/
  rest : List (List UInt8)

/-- Takes a word that starts with `word`, or the next one if that is empty. -/
def takeWord (word : List UInt8) : List (List UInt8) → Word
  | [] => ⟨word, false, []⟩
  | piece :: pieces =>
    let piece := if word.isEmpty then piece.dropWhile isBlank else piece
    let word := word ++ piece.takeWhile fun b => !isBlank b
    match piece.dropWhile fun b => !isBlank b with
    | [] => takeWord word pieces
    | _ :: rest => ⟨word, true, rest :: pieces⟩

/-- Whether the next word is complete, so that reading it does not need another piece. -/
def hasWord (input : Input) : Bool := (takeWord [] input.pieces).ended

/-- The integer that a word stands for. -/
def integer (word : List UInt8) : Except InputError Int64 :=
  if word.isEmpty then .error .endOfInput
  else
    let text := Utf8.decodeLossy word
    match Decimal.int64? text with
    | some value => .ok value
    | none => .error (.notAnInteger (String.ofList text))

/-- Reads the next word as an integer. The word is used up even if it is none; a source that fails
takes the word before the failure with it. -/
def readInt (input : Input) : Except InputError Int64 × Input :=
  let word := takeWord [] input.pieces
  let result := match word.ended, input.failure with
    | false, some message => .error (.source message)
    | _, _ => integer word.bytes
  (result, { input with pieces := word.rest })

end Input

/-- What output goes to. From the text that it has taken before and the text that it is given, a sink
decides whether it takes all of it; otherwise it takes so many characters and reports an error. -/
structure Sink where
  refuse? : String → String → Option (Nat × String)

namespace Sink

def unlimited : Sink := ⟨fun _ _ => none⟩

/-- A sink with room for so many bytes, for text of one byte to a character. -/
def limited (room : Nat) : Sink where
  refuse? taken text :=
    if taken.length + text.length ≤ room then none else some (room - taken.length, "sink full")

def ofRoom? : Option Nat → Sink
  | none => unlimited
  | some room => limited room

instance : Coe (Option Nat) Sink := ⟨ofRoom?⟩

end Sink

structure Output where
  text : String
  sink : Sink
  /-- What the sink reports when it is asked to complete its work, if it fails. -/
  flushFailure : Option String

namespace Output

def unlimited : Output := ⟨"", .unlimited, none⟩

/-- Writes text. A part that the sink has taken stays even if it refuses the rest. -/
def write (out : Output) (text : String) : Except String Unit × Output :=
  match out.sink.refuse? out.text text with
  | none => (.ok (), { out with text := out.text ++ text })
  | some (taken, message) =>
    (.error message, { out with text := out.text ++ String.ofList (text.toList.take taken) })

/-- Completes the output. -/
def flush (out : Output) : Except String Unit :=
  match out.flushFailure with
  | none => .ok ()
  | some message => .error message

end Output

end PLZero
