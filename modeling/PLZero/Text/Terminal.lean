/-!
# Terminal control sequences

What is left of a text when everything in it that a terminal would act upon is taken out: control
characters other than white space, and control sequences from the escape character to their end.

White space inside a sequence shows, where a terminal would act on it at once. It interrupts the
sequence: the text after it shows too, until a control character resumes the sequence or a character
beyond ASCII gives it up.

Main statement: a text without anything to act upon is left as it is.
-/

namespace PLZero.Text.Terminal

/-- A sequence that has not ended. -/
inductive Sequence where
  /-- After the escape character. -/
  | escape
  /-- After the escape character and an intermediate one; the next final character is the last. -/
  | escapeTail
  /-- After `[`: parameters, up to a final character. -/
  | control
  /-- After `]`: any text, up to a bell. -/
  | command
  /-- After `P`: the parameters of a string for the device. -/
  | device
  /-- The parameters of a string for the device, of which there is one. -/
  | deviceParameter
  /-- The parameters of a string for the device, after an intermediate character. -/
  | deviceTail
  /-- Any text, up to the string terminator. -/
  | string
deriving DecidableEq

/-- Where reading a text has come to. -/
inductive State where
  /-- In text that shows, which may have interrupted a sequence. -/
  | text (interrupted : Option Sequence)
  | inside (sequence : Sequence)
deriving DecidableEq

/-- A character whose code lies in a closed range. -/
def within (low high : Nat) (c : Char) : Bool := low ≤ c.toNat && c.toNat ≤ high

/-- The characters that open a sequence. -/
def isEscape (c : Char) : Bool := c = '\x1b'

/-- The characters that give up a sequence: cancel and substitute. -/
def isCancel (c : Char) : Bool := c = '\x18' || c = '\x1a'

/-- White space, which shows: tab, newline, form feed and carriage return. -/
def isSpacing (c : Char) : Bool := c = '\t' || c = '\n' || c = '\x0c' || c = '\x0d'

def isPrintable (c : Char) : Bool := within 0x20 0x7E c

def isExtended (c : Char) : Bool := 0x80 ≤ c.toNat

/-- A character that shows where no sequence is open. -/
def isShown (c : Char) : Bool := isPrintable c || isSpacing c || isExtended c

/-- An intermediate character of a sequence. -/
def isIntermediate (c : Char) : Bool := within 0x20 0x2F c

/-- A final character of a control sequence. -/
def isFinal (c : Char) : Bool := within 0x40 0x7E c

/-- The string terminator is a byte, and is also found among those that encode a character. -/
def isTerminator (c : Char) : Bool := isExtended c && (String.utf8EncodeChar c).contains 0x9C

/-- The sequence after another character of it, or `none` if that is the last. -/
def Sequence.next (s : Sequence) (c : Char) : Option Sequence :=
  match s with
  | escape =>
    if isIntermediate c then some escapeTail
    else if isPrintable c then
      match c with
      | '[' => some control
      | ']' => some command
      | 'P' => some device
      | 'X' | '^' | '_' => some string
      | _ => none
    else some escape
  | escapeTail => if within 0x30 0x7E c then none else some escapeTail
  | control => if isFinal c then none else some control
  | command => if c = '\x07' then none else some command
  | device =>
    if isIntermediate c then some deviceTail
    else if within 0x30 0x3F c then some deviceParameter
    else if isFinal c then some string
    else some device
  | deviceParameter =>
    if isIntermediate c then some deviceTail
    else if within 0x3C 0x7E c then some string
    else some deviceParameter
  | deviceTail => if within 0x30 0x7E c then some string else some deviceTail
  | string => if isTerminator c then none else some string

/-- The sequences in which white space shows; in the others it is a part of their text. -/
def Sequence.showsSpacing : Sequence → Bool
  | escape | escapeTail | control => true
  | _ => false

/-- The state in a sequence, or in text if it has ended. -/
def State.ofSequence : Option Sequence → State
  | some s => inside s
  | none => text none

/-- Reads a character: the state after it and whether it shows. -/
def State.step (s : State) (c : Char) : State × Bool :=
  if isEscape c then (inside .escape, false)
  else if isCancel c then (text none, false)
  else match s with
    | text interrupted =>
      if isExtended c then (text none, true)
      else if isShown c then (text interrupted, true)
      else (ofSequence interrupted, false)
    | inside sequence =>
      if isSpacing c && sequence.showsSpacing then (text (some sequence), true)
      else (ofSequence (sequence.next c), false)

/-- The characters of a text that show, read from a given state. -/
def visibleFrom : State → List Char → List Char
  | _, [] => []
  | s, c :: rest =>
    match s.step c with
    | (s, true) => c :: visibleFrom s rest
    | (s, false) => visibleFrom s rest

def visible (text : String) : String := String.ofList (visibleFrom (.text none) text.toList)

end PLZero.Text.Terminal
