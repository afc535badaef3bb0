import PLZero.Position
import PLZero.Symbol
import PLZero.Token

/-!
# Program trees

A program whose names are bound to their symbols. Operators are kept as the tokens that stand for
them; whether a token is one is for the compiler to say.
-/

namespace PLZero

/-- An expression. A name stands for whatever its symbol says. -/
inductive Expr where
  | binary (op : Token) (lhs rhs : Expr) (position : Position)
  | unary (op : Token) (operand : Expr) (position : Position)
  | literal (value : Int64)
  | name (symbol : Symbol) (position : Position)
deriving DecidableEq

/-- A statement. The empty statement is an empty sequence. -/
inductive Stmt where
  | assign (target : Symbol) (value : Expr) (position : Position)
  | read (targets : List (Located Symbol))
  | write (values : List Expr)
  | call (callee : Symbol) (position : Position)
  | ifThen (condition : Expr) (body : Stmt)
  | ifElse (condition : Expr) (body alternative : Stmt)
  | whileDo (condition : Expr) (body : Stmt)
  | sequence (body : List Stmt)
  | ret

/-- A procedure declaration; `β` is the type of its block. -/
structure Procedure (β : Type) where
  symbol : Symbol
  block : β
  position : Position

/-- A block: its declarations and its body. -/
structure Block where
  level : Nat
  variableCount : Nat
  consts : List Symbol
  vars : List Symbol
  procedures : List (Procedure Block)
  body : Stmt

end PLZero
