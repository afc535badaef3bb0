/-!
# Positions in a source text

A position is a line and a column, both counted from one in characters.
-/

namespace PLZero

/-- A place in a source text. -/
structure Position where
  line : Nat
  column : Nat
deriving DecidableEq

namespace Position

def start : Position := ⟨1, 1⟩

/-- The place after a character: a newline starts the next line. -/
def next (p : Position) (c : Char) : Position :=
  if c = '\n' then ⟨p.line + 1, 1⟩ else ⟨p.line, p.column + 1⟩

/-- The place after a text that starts at `p`. -/
def after (p : Position) (text : List Char) : Position := text.foldl next p

@[simp] theorem after_nil (p : Position) : p.after [] = p := rfl

@[simp] theorem after_cons (p : Position) (c : Char) (text : List Char) :
    p.after (c :: text) = (p.next c).after text := rfl

@[simp] theorem after_append (p : Position) (s t : List Char) :
    p.after (s ++ t) = (p.after s).after t := List.foldl_append

def text (p : Position) : String := s!"{p.line}:{p.column}"

end Position

/-- A value with the place where it stands in the source text. -/
structure Located (α : Type) where
  value : α
  position : Position
deriving DecidableEq

end PLZero
