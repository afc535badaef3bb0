import PLZero.Position
import PLZero.Token

/-!
# Token tables

A list of tokens as a table: place, class and text, a token to a line, in the colours of a terminal
or without them.
-/

namespace PLZero.Token

def className : Token → String
  | number _ => "NUMBER"
  | ident _ => "IDENT"
  | eof => "EOF"
  | keyword _ => "KEYWORD"
  | mark symbol => match symbol with
    | .plus | .minus | .star | .slash | .assign => "OP"
    | .eq | .notEq | .lt | .ltEq | .gt | .gtEq => "CMP"
    | .lparen | .rparen | .semicolon | .period | .comma => "PUNCT"

/-- The text of a token in a table; the end of the source has none. -/
def cell : Token → String
  | eof => ""
  | token => token.text

/-- The terminal's code for the colour of a token. -/
def colour : Token → String
  | number _ => "\x1b[36m"
  | ident _ => "\x1b[33m"
  | eof => "\x1b[2m"
  | keyword _ => "\x1b[34m"
  | mark symbol => match symbol with
    | .lparen | .rparen | .semicolon | .period | .comma => "\x1b[2m"
    | _ => "\x1b[35m"

/-- The terminal's code for the end of a colour. -/
def plain : String := "\x1b[0m"

def row (coloured : Bool) (token : Located Token) : String :=
  let (start, stop) := if coloured then (token.value.colour, plain) else ("", "")
  token.position.text ++ "\t" ++ start ++ token.value.className ++ "\t" ++ token.value.cell ++ stop
    ++ "\n"

def table (coloured : Bool) (tokens : List (Located Token)) : String :=
  String.join (tokens.map (row coloured))

end PLZero.Token
