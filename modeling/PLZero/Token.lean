import PLZero.Text.Decimal

/-!
# Tokens

The words and marks of PL/0. Each keyword and each mark has exactly one spelling. A word is looked up in
a table of its own, which agrees with the spellings. A token also has a description, which messages use and
which names numbers and identifiers by their class.
-/

namespace PLZero

inductive Keyword where
  | «begin» | call | const | «do» | «else» | «end» | «if» | odd
  | procedure | read | «return» | «then» | var | «while» | write
deriving DecidableEq

namespace Keyword

def spelling : Keyword → String
  | «begin» => "begin"
  | call => "call"
  | const => "const"
  | «do» => "do"
  | «else» => "else"
  | «end» => "end"
  | «if» => "if"
  | odd => "odd"
  | procedure => "procedure"
  | read => "read"
  | «return» => "return"
  | «then» => "then"
  | var => "var"
  | «while» => "while"
  | write => "write"

/-- The keyword that a word is, if it is one. -/
def ofSpelling? : String → Option Keyword
  | "begin" => some «begin»
  | "call" => some call
  | "const" => some const
  | "do" => some «do»
  | "else" => some «else»
  | "end" => some «end»
  | "if" => some «if»
  | "odd" => some odd
  | "procedure" => some procedure
  | "read" => some read
  | "return" => some «return»
  | "then" => some «then»
  | "var" => some var
  | "while" => some «while»
  | "write" => some write
  | _ => none

theorem ofSpelling?_spelling (k : Keyword) : ofSpelling? k.spelling = some k := by
  cases k <;> rfl

theorem ofSpelling?_eq_some {word : String} {k : Keyword} : ofSpelling? word = some k ↔ k.spelling = word := by
  constructor
  · intro h
    unfold ofSpelling? at h
    split at h <;> cases h <;> rfl
  · rintro rfl
    exact ofSpelling?_spelling k

theorem ofSpelling?_eq_none {word : String} : ofSpelling? word = none ↔ ∀ k : Keyword, k.spelling ≠ word := by
  simp [Option.eq_none_iff_forall_ne_some, ofSpelling?_eq_some]

end Keyword

/-- The operators and separators. -/
inductive Mark where
  | plus | minus | star | slash
  | assign | eq | notEq | lt | ltEq | gt | gtEq
  | lparen | rparen | semicolon | period | comma
deriving DecidableEq

namespace Mark

def all : List Mark :=
  [plus, minus, star, slash, assign, eq, notEq, lt, ltEq, gt, gtEq, lparen, rparen, semicolon,
    period, comma]

def spelling : Mark → String
  | plus => "+"
  | minus => "-"
  | star => "*"
  | slash => "/"
  | assign => ":="
  | eq => "="
  | notEq => "#"
  | lt => "<"
  | ltEq => "<="
  | gt => ">"
  | gtEq => ">="
  | lparen => "("
  | rparen => ")"
  | semicolon => ";"
  | period => "."
  | comma => ","

def ofSpelling? (text : String) : Option Mark :=
  all.find? fun mark => mark.spelling = text

theorem ofSpelling?_spelling (m : Mark) : ofSpelling? m.spelling = some m := by
  cases m <;> decide

def isRelational : Mark → Bool
  | eq | notEq | lt | ltEq | gt | gtEq => true
  | _ => false

end Mark

/-- The units that a source text is made of; `eof` closes every list of them. -/
inductive Token where
  | number (value : Int64)
  | ident (name : String)
  | keyword (word : Keyword)
  | mark (symbol : Mark)
  | eof
deriving DecidableEq

namespace Token

/-- How messages name a token. -/
def describe : Token → String
  | number _ => "number"
  | ident _ => "identifier"
  | keyword word => word.spelling
  | mark symbol => symbol.spelling
  | eof => "end of source"

/-- How a token is written; the end of the source keeps its description. -/
def text : Token → String
  | number value => Decimal.ofInt64 value
  | ident name => name
  | token => token.describe

def isRelational : Token → Bool
  | mark symbol => symbol.isRelational
  | _ => false

end Token

end PLZero
