import PLZero.Position
import PLZero.Symbol
import PLZero.Token

/-!
# Why a tree is not compiled

A misuse of a name or an operator is located; an inconsistency of the tree itself, which no parsed
program shows, is not.
-/

namespace PLZero

/-- A tree that does not hang together. -/
inductive Inconsistency where
  /-- A procedure declaration whose symbol is no procedure. -/
  | notAProcedure (name : String)
  /-- A call of a procedure that is declared nowhere. -/
  | noEntry (name : String)
  /-- A call from a level that is outside the one that declares the procedure. -/
  | unreachable (name : String) (caller : Int64) (declared : Nat)
  /-- A variable of a level that is inside the one that uses it. -/
  | invisible (name : String) (declared used : Nat)
  /-- Jumps or calls that were never patched. -/
  | unresolved (patches : Nat)
deriving DecidableEq

def Inconsistency.message : Inconsistency → String
  | notAProcedure name => s!"declaration of '{name}' is not bound to a procedure symbol"
  | noEntry name => s!"procedure '{name}' has no entry address"
  | unreachable name caller declared =>
    s!"call to '{name}' from level " ++ Decimal.ofInt64 caller
      ++ s!" cannot reach its declaring level {declared}"
  | invisible name declared used =>
    s!"'{name}' declared at level {declared} is not visible from level {used}"
  | unresolved patches => s!"{patches} backpatch(es) left unresolved"

inductive CompileError where
  | notAssignable (symbol : Symbol) (position : Position)
  | notCallable (symbol : Symbol) (position : Position)
  | notAValue (symbol : Symbol) (position : Position)
  | invalidOperator (op : Token) (position : Position)
  | internal (cause : Inconsistency)
deriving DecidableEq

namespace CompileError

def position? : CompileError → Option Position
  | notAssignable _ position | notCallable _ position | notAValue _ position
  | invalidOperator _ position => some position
  | internal _ => none

def text : CompileError → String
  | notAssignable symbol _ =>
    s!"compile error: {symbol.binding.kind} '{symbol.name}' is not assignable"
      ++ "\n  hint: only variables declared with 'var' can be assigned or read into"
  | notCallable symbol _ =>
    s!"compile error: {symbol.binding.kind} '{symbol.name}' is not a procedure"
      ++ "\n  hint: 'call' expects a name declared with 'procedure'"
  | notAValue symbol _ =>
    s!"compile error: procedure '{symbol.name}' cannot be used in an expression"
  | invalidOperator op _ => "compile error: invalid operator '" ++ op.describe ++ "'"
  | internal cause => "compile error: internal error: " ++ cause.message

/-- The message, after its place if it has one. -/
def message (e : CompileError) : String :=
  match e.position? with
  | some position => position.text ++ ": " ++ e.text
  | none => e.text

end CompileError

end PLZero
