import PLZero.Scope
import PLZero.Tree

/-!
# From tokens to program trees

Recursive descent over a list of tokens. Declarations enter the open scopes as they are read and names
are resolved where they are used, so a name must be declared before it is used.

A parser that refuses its input keeps the place it has reached and the scopes that are open. Nesting
and repetition are bounded by `bound`, the number of tokens at the start: both use up tokens, so the
bound is never met while one is left.
-/

namespace PLZero

inductive SyntaxError.Cause where
  | expected (wanted found : Token)
  | expectedStatement (found : Token)
  | expectedComparison (found : Token)
  | expectedFactor (found : Token)
  | expectedIdentifier (found : Token)
  | expectedNumber (found : Token)
  | undeclared (name : String)
  | definition (error : ScopeError)
deriving DecidableEq

abbrev SyntaxError := Located SyntaxError.Cause

namespace SyntaxError

/-- A message of the form "expected this instead of that". -/
def insteadOf (wanted : String) (found : Token) : String :=
  "expected " ++ wanted ++ " instead of '" ++ found.describe ++ "'"

def Cause.message : Cause → String
  | .expected wanted found => insteadOf ("'" ++ wanted.describe ++ "'") found
  | .expectedStatement found => insteadOf "a statement" found
  | .expectedComparison found => insteadOf "a comparison operator" found
  | .expectedFactor found => insteadOf "an identifier, a number or '('" found
  | .expectedIdentifier found => insteadOf "an identifier" found
  | .expectedNumber found => insteadOf "a number" found
  | .undeclared name => "undeclared identifier \"" ++ name ++ "\""
  | .definition error => error.message

def message (e : SyntaxError) : String := e.position.text ++ ": " ++ e.value.message

end SyntaxError

/-- The tokens that are still unread, the place to report once there are none, and the open scopes. -/
structure Parser where
  rest : List (Located Token)
  ending : Position
  scopes : ScopeChain

abbrev Parse := EStateM SyntaxError Parser

namespace Parser

/-- A parser before the first of a list of tokens. Past the last token, its place is reported. -/
def ofTokens (tokens : List (Located Token)) : Parser where
  rest := tokens
  ending := match tokens.getLast? with
    | some token => token.position
    | none => .start
  scopes := .empty

/-- The next token; past the last one, the end of the source. -/
def current (p : Parser) : Token :=
  match p.rest with
  | [] => .eof
  | token :: _ => token.value

def place (p : Parser) : Position :=
  match p.rest with
  | [] => p.ending
  | token :: _ => token.position

/-! ## Tokens -/

/-- The next token, which stays unread. -/
def peek : Parse Token := do return (← get).current

def position : Parse Position := do return (← get).place

def advance : Parse Token := do
  let token ← peek
  modify fun p => { p with rest := p.rest.tail }
  return token

/-- Refuses the input at the next token. -/
def refuse {α : Type} (cause : Token → SyntaxError.Cause) : Parse α := do
  throw ⟨cause (← peek), ← position⟩

/-- Reads the next token if it is the wanted one. -/
def accept (wanted : Token) : Parse Bool := do
  if (← peek) = wanted then
    let _ ← advance
    return true
  else
    return false

/-- Reads the wanted token and refuses any other. -/
def expect (wanted : Token) : Parse Unit := do
  unless ← accept wanted do
    refuse (.expected wanted)

def identifier : Parse String := do
  match ← peek with
  | .ident name =>
    let _ ← advance
    return name
  | _ => refuse .expectedIdentifier

def number : Parse Int64 := do
  match ← peek with
  | .number value =>
    let _ ← advance
    return value
  | _ => refuse .expectedNumber

/-- Reads items with a mark between them. -/
def separated {α : Type} (separator : Mark) (item : Parse α) : Nat → Parse (List α)
  | 0 => do return [← item]
  | bound + 1 => do
    let first ← item
    if ← accept (.mark separator) then
      return first :: (← separated separator item bound)
    else
      return [first]

/-! ## Names -/

def enterScope : Parse Unit := modify fun p => { p with scopes := p.scopes.enter }

def leaveScope : Parse Unit := modify fun p => { p with scopes := p.scopes.leave }

/-- Carries out a definition, for a name at the given place. -/
def declare (position : Position) (definition : ScopeChain.Update Symbol) : Parse Symbol := fun p =>
  match definition p.scopes with
  | .ok symbol scopes => .ok symbol { p with scopes }
  | .error error scopes => .error ⟨.definition error, position⟩ { p with scopes }

/-- Reads a name that is declared. -/
def declaredName : Parse (Located Symbol) := do
  let position ← position
  let name ← identifier
  match (← get).scopes.resolve name with
  | some symbol => return ⟨symbol, position⟩
  | none => throw ⟨.undeclared name, position⟩

/-! ## Expressions -/

def isAdditive : Token → Bool
  | .mark .plus | .mark .minus => true
  | _ => false

def isMultiplicative : Token → Bool
  | .mark .star | .mark .slash => true
  | _ => false

/-- Goes on with operators of one class, which group to the left. -/
def operations (isOperator : Token → Bool) (operand : Parse Expr) : Nat → Expr → Parse Expr
  | 0, lhs => return lhs
  | bound + 1, lhs => do
    if isOperator (← peek) then
      let position ← position
      let op ← advance
      let rhs ← operand
      operations isOperator operand bound (.binary op lhs rhs position)
    else
      return lhs

/-- Factors joined by multiplication and division. -/
def term (bound : Nat) (factor : Parse Expr) : Parse Expr := do
  operations isMultiplicative factor bound (← factor)

/-- Terms joined by addition and subtraction. A minus in front subtracts the first term from zero; a
plus in front has no effect. -/
def sum (bound : Nat) (factor : Parse Expr) : Parse Expr := do
  let position ← position
  let first ← match ← peek with
    | .mark .minus => do
      let minus ← advance
      pure (.binary minus (.literal 0) (← term bound factor) position)
    | .mark .plus => do
      let _ ← advance
      term bound factor
    | _ => term bound factor
  operations isAdditive (term bound factor) bound first

def atom : Parse Expr := do
  match ← peek with
  | .ident _ =>
    let name ← declaredName
    return .name name.value name.position
  | .number _ => return .literal (← number)
  | _ => refuse .expectedFactor

/-- An atom, or an expression in parentheses of at most the given depth. -/
def factor (bound : Nat) : Nat → Parse Expr
  | 0 => atom
  | depth + 1 => do
    if ← accept (.mark .lparen) then
      let expr ← sum bound (factor bound depth)
      expect (.mark .rparen)
      return expr
    else
      atom

def expression (bound : Nat) : Parse Expr := sum bound (factor bound bound)

/-- A parity test or a comparison. The token in the operator's place is read even if it is none. -/
def condition (bound : Nat) : Parse Expr := do
  let start ← position
  if ← accept (.keyword .odd) then
    return .unary (.keyword .odd) (← expression bound) start
  else
    let lhs ← expression bound
    let position ← position
    let op ← advance
    if op.isRelational then
      return .binary op lhs (← expression bound) position
    else
      throw ⟨.expectedComparison op, position⟩

/-! ## Statements -/

/-- A statement that holds no other. Nothing at all is the empty statement, where one can end. -/
def simpleStatement (bound : Nat) : Parse Stmt := do
  match ← peek with
  | .ident _ =>
    let target ← declaredName
    expect (.mark .assign)
    return .assign target.value (← expression bound) target.position
  | .keyword .call =>
    let _ ← advance
    let callee ← declaredName
    return .call callee.value callee.position
  | .keyword .read =>
    let _ ← advance
    return .read (← separated .comma declaredName bound)
  | .keyword .write =>
    let _ ← advance
    return .write (← separated .comma (expression bound) bound)
  | .keyword .«return» =>
    let _ ← advance
    return .ret
  | .mark .semicolon | .keyword .«end» | .mark .period | .keyword .«else» => return .sequence []
  | _ => refuse .expectedStatement

/-- A statement with others in it of at most the given depth. An `else` goes with the nearest `if`. -/
def statement (bound : Nat) : Nat → Parse Stmt
  | 0 => simpleStatement bound
  | depth + 1 => do
    match ← peek with
    | .keyword .«begin» =>
      let _ ← advance
      let body ← separated .semicolon (statement bound depth) bound
      expect (.keyword .«end»)
      return .sequence body
    | .keyword .«if» =>
      let _ ← advance
      let test ← condition bound
      expect (.keyword .«then»)
      let body ← statement bound depth
      if ← accept (.keyword .«else») then
        return .ifElse test body (← statement bound depth)
      else
        return .ifThen test body
    | .keyword .«while» =>
      let _ ← advance
      let test ← condition bound
      expect (.keyword .«do»)
      return .whileDo test (← statement bound depth)
    | _ => simpleStatement bound

/-! ## Blocks -/

def constant : Parse Symbol := do
  let position ← position
  let name ← identifier
  expect (.mark .eq)
  let value ← number
  declare position (ScopeChain.defineConstant name value)

def variableName : Parse Symbol := do
  let position ← position
  let name ← identifier
  declare position (ScopeChain.defineVariable name)

/-- A list of declarations after its keyword, if the keyword is there. -/
def declarations (keyword : Keyword) (declaration : Parse Symbol) (bound : Nat) :
    Parse (List Symbol) := do
  if ← accept (.keyword keyword) then
    let symbols ← separated .comma declaration bound
    expect (.mark .semicolon)
    return symbols
  else
    return []

/-- One procedure. Its name is visible in its own block. -/
def procedure (block : Parse Block) : Parse (Procedure Block) := do
  let _ ← advance
  let position ← position
  let name ← identifier
  let symbol ← declare position (ScopeChain.defineProcedure name)
  expect (.mark .semicolon)
  enterScope
  let block ← block
  leaveScope
  expect (.mark .semicolon)
  return ⟨symbol, block, position⟩

def procedures (block : Parse Block) : Nat → Parse (List (Procedure Block))
  | 0 => return []
  | bound + 1 => do
    if (← peek) = .keyword .procedure then
      return (← procedure block) :: (← procedures block bound)
    else
      return []

/-- A block, given how to read its procedures. -/
def blockWith (bound : Nat) (procedures : Parse (List (Procedure Block))) : Parse Block := do
  let consts ← declarations .const constant bound
  let vars ← declarations .var variableName bound
  let scopes := (← get).scopes
  let procedures ← procedures
  let body ← statement bound bound
  return {
    level := scopes.level
    variableCount := scopes.variableCount
    consts
    vars
    procedures
    body }

/-- A block with others in it of at most the given depth. -/
def block (bound : Nat) : Nat → Parse Block
  | 0 => blockWith bound (return [])
  | depth + 1 => blockWith bound (procedures (block bound depth) bound)

/-- A program: a block, a period, and the end of the source. The block's scope stays open when the
block is refused. -/
def program : Parse Block := do
  let bound := (← get).rest.length
  enterScope
  let block ← block bound bound
  leaveScope
  expect (.mark .period)
  expect .eof
  return block

end Parser

def Block.parse (tokens : List (Located Token)) : Except SyntaxError Block :=
  match Parser.program (.ofTokens tokens) with
  | .ok block _ => .ok block
  | .error error _ => .error error

end PLZero
