import PLZero.Tree

/-!
# Outlines

A program tree as indented text, a node to a line, two blanks for each level of nesting. Targets of
assignments, reads and calls and the declarations of a block are given by name alone; a name in an
expression says what it is bound to.
-/

namespace PLZero

structure Outline.Line where
  depth : Nat
  text : String
deriving DecidableEq

namespace Outline

/-- A line with its indentation and its end. -/
def Line.render (line : Line) : String :=
  "".pushn ' ' (2 * line.depth) ++ line.text ++ "\n"

def render (lines : List Line) : String := String.join (lines.map Line.render)

/-- What a name in an expression is bound to. -/
def nameText (symbol : Symbol) : String :=
  match symbol.binding with
  | .var level slot => s!"variable {symbol.name} (level {level}, slot {slot})"
  | .const value => s!"constant {symbol.name} = " ++ Decimal.ofInt64 value
  | .proc .. => s!"procedure {symbol.name}"

/-- The names of symbols with a text between them. -/
def names (separator : String) (symbols : List Symbol) : String :=
  separator.intercalate (symbols.map Symbol.name)

/-- The line of a list of declarations; there is none if the list is empty. -/
def declarations (depth : Nat) (title : String) (symbols : List Symbol) : List Line :=
  if symbols.isEmpty then [] else [⟨depth, s!"{title} [ " ++ names " " symbols ++ " ]"⟩]

/-- An expression, its operands nested in it. -/
def expr (depth : Nat) : Expr → List Line
  | .binary op lhs rhs _ => ⟨depth, "binary " ++ op.text⟩ :: (expr (depth + 1) lhs ++ expr (depth + 1) rhs)
  | .unary op operand _ => ⟨depth, "unary " ++ op.text⟩ :: expr (depth + 1) operand
  | .literal value => [⟨depth, "literal " ++ Decimal.ofInt64 value⟩]
  | .name symbol _ => [⟨depth, nameText symbol⟩]

mutual

/-- A statement, its parts nested in it. -/
def stmt (depth : Nat) : Stmt → List Line
  | .assign target value _ => ⟨depth, s!"assign {target.name}"⟩ :: expr (depth + 1) value
  | .read targets => [⟨depth, "read " ++ names ", " (targets.map Located.value)⟩]
  | .write values => ⟨depth, "write"⟩ :: values.flatMap (expr (depth + 1))
  | .call callee _ => [⟨depth, s!"call {callee.name}"⟩]
  | .ifThen condition body =>
    ⟨depth, "if"⟩ :: ⟨depth + 1, "condition"⟩ :: expr (depth + 2) condition
      ++ ⟨depth + 1, "then"⟩ :: stmt (depth + 2) body
  | .ifElse condition body alternative =>
    ⟨depth, "if"⟩ :: ⟨depth + 1, "condition"⟩ :: expr (depth + 2) condition
      ++ ⟨depth + 1, "then"⟩ :: stmt (depth + 2) body
      ++ ⟨depth + 1, "else"⟩ :: stmt (depth + 2) alternative
  | .whileDo condition body =>
    ⟨depth, "while"⟩ :: ⟨depth + 1, "condition"⟩ :: expr (depth + 2) condition
      ++ ⟨depth + 1, "body"⟩ :: stmt (depth + 2) body
  | .sequence body => ⟨depth, "begin"⟩ :: stmts (depth + 1) body ++ [⟨depth, "end"⟩]
  | .ret => [⟨depth, "return"⟩]

def stmts (depth : Nat) : List Stmt → List Line
  | [] => []
  | first :: rest => stmt depth first ++ stmts depth rest

end

mutual

/-- A block: its declarations and its body nested in it. -/
def block (depth : Nat) : Block → List Line
  | { level, variableCount, consts, vars, procedures := nested, body } =>
    ⟨depth, s!"block (level {level}, {variableCount} variables)"⟩
      :: declarations (depth + 1) "constants" consts
      ++ declarations (depth + 1) "variables" vars
      ++ procedures (depth + 1) nested
      ++ stmt (depth + 1) body
termination_by structural block => block

/-- Procedures one after the other, each with its block nested in it. -/
def procedures (depth : Nat) : List (Procedure Block) → List Line
  | [] => []
  | { symbol, block := nested, .. } :: rest =>
    ⟨depth, s!"procedure {symbol.name}"⟩ :: block (depth + 1) nested ++ procedures depth rest
termination_by structural list => list

end

end Outline

def Block.outline (b : Block) : String := Outline.render (Outline.block 0 b)

end PLZero
