/-!
# Symbols

What a declared name stands for. A variable is found by the level of the block that declares it and
its slot there, a procedure by an id that is unique in a program.
-/

namespace PLZero

inductive Binding where
  | var (level slot : Nat)
  | const (value : Int64)
  | proc (level id : Nat)
deriving DecidableEq

/-- How messages name the kind of a binding. -/
def Binding.kind : Binding → String
  | var .. => "variable"
  | const .. => "constant"
  | proc .. => "procedure"

structure Symbol where
  name : String
  binding : Binding
deriving DecidableEq

/-- A symbol that has a slot in its block. -/
def Symbol.isVariable (s : Symbol) : Bool :=
  match s.binding with
  | .var .. => true
  | _ => false

end PLZero
