import PLZero.Symbol

/-!
# Scopes

The scopes that are open at a point of a program, innermost first. The level of a scope is the number
of scopes around it. A name may be defined once in a scope and hides the same name further out; the
variables of a scope are numbered in the order of their definition, and every attempt to define a
procedure uses up an id.
-/

namespace PLZero

/-- The names of one block, newest first, and how many of them are variables. -/
structure Scope where
  symbols : List Symbol
  variableCount : Nat
  counts : variableCount = symbols.countP Symbol.isVariable

namespace Scope

def empty : Scope := ⟨[], 0, rfl⟩

def find? (s : Scope) (name : String) : Option Symbol :=
  s.symbols.find? fun symbol => symbol.name = name

def add (s : Scope) (symbol : Symbol) : Scope where
  symbols := symbol :: s.symbols
  variableCount := if symbol.isVariable then s.variableCount + 1 else s.variableCount
  counts := by rw [List.countP_cons, ← s.counts]; split <;> rfl

end Scope

inductive ScopeError where
  | noOpenScope
  | duplicate (name : String)
deriving DecidableEq

def ScopeError.message : ScopeError → String
  | noOpenScope => "no open scope"
  | duplicate name => "duplicated symbol \"" ++ name ++ "\""

/-- The open scopes, innermost first, and the id of the next procedure. -/
structure ScopeChain where
  scopes : List Scope
  nextProcedure : Nat

namespace ScopeChain

def empty : ScopeChain := ⟨[], 0⟩

def enter (c : ScopeChain) : ScopeChain := { c with scopes := .empty :: c.scopes }

/-- The level of the innermost scope; zero if none is open. -/
def level (c : ScopeChain) : Nat := c.scopes.length - 1

def variableCount (c : ScopeChain) : Nat :=
  match c.scopes with
  | [] => 0
  | scope :: _ => scope.variableCount

/-- Closes the innermost scope, if there is one, and tells how many variables it has. -/
def close (c : ScopeChain) : Nat × ScopeChain := (c.variableCount, { c with scopes := c.scopes.tail })

/-- What is left when the innermost scope is closed. -/
def leave (c : ScopeChain) : ScopeChain := c.close.2

/-- The symbol that a name denotes: that of the innermost scope that has one. -/
def resolve (c : ScopeChain) (name : String) : Option Symbol :=
  c.scopes.findSome? fun scope => scope.find? name

/-- An operation that may be refused; the chain is kept also then. -/
abbrev Update := EStateM ScopeError ScopeChain

/-- Adds a symbol to the innermost scope. -/
def define (symbol : Symbol) : Update Symbol := fun c =>
  match c.scopes with
  | [] => .error .noOpenScope c
  | scope :: outer =>
    if (scope.find? symbol.name).isSome then .error (.duplicate symbol.name) c
    else .ok symbol { c with scopes := scope.add symbol :: outer }

/-- Defines a variable, in the next slot of the innermost scope. -/
def defineVariable (name : String) : Update Symbol := fun c =>
  define ⟨name, .var c.level c.variableCount⟩ c

def defineConstant (name : String) (value : Int64) : Update Symbol :=
  define ⟨name, .const value⟩

/-- Defines a procedure. The id is used up whether or not the definition is refused. -/
def defineProcedure (name : String) : Update Symbol := fun c =>
  define ⟨name, .proc c.level c.nextProcedure⟩ { c with nextProcedure := c.nextProcedure + 1 }

end ScopeChain

end PLZero
