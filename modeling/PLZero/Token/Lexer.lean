import PLZero.Position
import PLZero.Text.Blank
import PLZero.Token

/-!
# From characters to tokens

A scanner is the text that is still unread and the place where it starts. Scanning skips blanks and
takes the longest lexeme, until the text ends or a lexeme is refused; it then says where the scanner
stands, so that a later scan goes on from there. A number that is out of range counts as read; a
character that starts no token stays unread.
-/

namespace PLZero

inductive LexError.Cause where
  /-- A run of digits whose value does not fit a word. -/
  | numberOutOfRange (digits : List Char)
  /-- A colon without the equals sign that makes it an assignment. -/
  | loneColon
  /-- A character that starts no token. -/
  | unexpectedCharacter (c : Char)
deriving DecidableEq

/-- A refused lexeme and where it starts. -/
abbrev LexError := Located LexError.Cause

namespace LexError

def Cause.message : Cause → String
  | .numberOutOfRange digits => "number literal out of range: " ++ String.ofList digits
  | .loneColon => "expected '=' after ':'"
  | .unexpectedCharacter c => "unexpected character: '" ++ String.singleton c ++ "'"

def message (e : LexError) : String := e.position.text ++ ": " ++ e.value.message

end LexError

structure Scanner where
  rest : List Char
  position : Position

namespace Scanner

/-- A scanner before the first character of a text. -/
def ofString (source : String) : Scanner := ⟨source.toList, .start⟩

/-- Moves over the next `n` characters. -/
def advance (s : Scanner) (n : Nat) : Scanner :=
  ⟨s.rest.drop n, s.position.after (s.rest.take n)⟩

/-- Moves to the next character that is no blank. -/
def skipBlanks (s : Scanner) : Scanner :=
  s.advance (s.rest.takeWhile Text.isBlank).length

def isWordStart (c : Char) : Bool := c.isAlpha || c = '_'

def isWordPart (c : Char) : Bool := c.isAlphanum || c = '_'

/-- The token of a word: a keyword if it is one, else an identifier. -/
def wordToken (word : List Char) : Token :=
  match Keyword.ofSpelling? (String.ofList word) with
  | some keyword => .keyword keyword
  | none => .ident (String.ofList word)

/-- The token of a run of digits, if its value fits a signed word. -/
def numberToken (digits : List Char) : Except LexError.Cause Token :=
  if Decimal.value digits < Decimal.int64Bound then .ok (.number (Int64.ofNat (Decimal.value digits)))
  else .error (.numberOutOfRange digits)

/-- The mark that a text starts with, given its first two characters, and its length. -/
def markToken (c : Char) (following : Option Char) : Except LexError.Cause (Mark × Nat) :=
  match c, following with
  | ':', some '=' => .ok (.assign, 2)
  | '<', some '=' => .ok (.ltEq, 2)
  | '>', some '=' => .ok (.gtEq, 2)
  | ':', _ => .error .loneColon
  | '+', _ => .ok (.plus, 1)
  | '-', _ => .ok (.minus, 1)
  | '*', _ => .ok (.star, 1)
  | '/', _ => .ok (.slash, 1)
  | '=', _ => .ok (.eq, 1)
  | '#', _ => .ok (.notEq, 1)
  | '<', _ => .ok (.lt, 1)
  | '>', _ => .ok (.gt, 1)
  | '(', _ => .ok (.lparen, 1)
  | ')', _ => .ok (.rparen, 1)
  | ';', _ => .ok (.semicolon, 1)
  | '.', _ => .ok (.period, 1)
  | ',', _ => .ok (.comma, 1)
  | c, _ => .error (.unexpectedCharacter c)

/-- The longest lexeme at the start of a text that is not empty: the token it stands for or why it is
refused, and the number of characters it takes. -/
def lexeme (c : Char) (following : List Char) : Except LexError.Cause Token × Nat :=
  if c.isDigit then
    let digits := c :: following.takeWhile Char.isDigit
    (numberToken digits, digits.length)
  else if isWordStart c then
    let word := c :: following.takeWhile isWordPart
    (.ok (wordToken word), word.length)
  else match markToken c following.head? with
    | .ok (mark, length) => (.ok (.mark mark), length)
    | .error cause => (.error cause, 0)

theorem markToken_length_pos {c : Char} {following : Option Char} {m : Mark} {n : Nat}
    (h : markToken c following = .ok (m, n)) : 0 < n := by
  unfold markToken at h
  split at h <;> simp at h <;> omega

/-- A lexeme that is accepted is not empty. -/
theorem lexeme_length_pos {c : Char} {following : List Char} {t : Token} {n : Nat}
    (h : lexeme c following = (.ok t, n)) : 0 < n := by
  unfold lexeme at h
  split at h
  · simp only [Prod.mk.injEq] at h
    simp [← h.2]
  · split at h
    · simp only [Prod.mk.injEq] at h
      simp [← h.2]
    · split at h
      · next hm =>
        simp only [Prod.mk.injEq] at h
        exact h.2 ▸ markToken_length_pos hm
      · simp at h

theorem length_skipBlanks_le (s : Scanner) : s.skipBlanks.rest.length ≤ s.rest.length := by
  simp [skipBlanks, advance]

/-- Reads tokens to the end of the text, with the place where each of them starts. The scanner that is
returned stands at the end, or after what was read when a lexeme was refused. -/
def tokenize (s : Scanner) : Except LexError (List (Located Token)) × Scanner :=
  match _hs : s.skipBlanks with
  | ⟨[], position⟩ => (.ok [⟨.eof, position⟩], ⟨[], position⟩)
  | ⟨c :: following, position⟩ =>
    match _hl : lexeme c following with
    | (.error cause, length) =>
      (.error ⟨cause, position⟩, advance ⟨c :: following, position⟩ length)
    | (.ok token, length) =>
      match tokenize (advance ⟨c :: following, position⟩ length) with
      | (.ok tokens, s') => (.ok (⟨token, position⟩ :: tokens), s')
      | (.error e, s') => (.error e, s')
termination_by s.rest.length
decreasing_by
  have h1 := length_skipBlanks_le s
  have h2 := lexeme_length_pos _hl
  simp only [advance, _hs, List.length_drop, List.length_cons] at h1 ⊢
  omega

end Scanner

def Token.lex (source : String) : Except LexError (List (Located Token)) :=
  (Scanner.ofString source).tokenize.1

end PLZero
