import PLZero.Code.Image
import PLZero.Compiler
import PLZero.Machine.Fault
import PLZero.Token.Lexer
import PLZero.Tree.Parser

/-!
# From source to code

The phases one after the other, with one type for everything that can go wrong in them.
-/

namespace PLZero

/-- What can go wrong between a source text or an image and the end of its run. -/
inductive Error where
  | lexing (error : LexError)
  | parsing (error : SyntaxError)
  | compiling (error : CompileError)
  | running (error : Failure Fault)
  | image (error : ImageError)
  | file (message : String)

namespace Error

/-- The message of the phase that failed. -/
def cause : Error → String
  | lexing error => error.message
  | parsing error => error.message
  | compiling error => error.message
  | running error => error.message
  | image error => error.message
  | file message => message

/-- The message with the phase. Compiler and machine name themselves. -/
def message (e : Error) : String :=
  match e with
  | lexing _ => "lexer error: " ++ e.cause
  | parsing _ => "parse error: " ++ e.cause
  | compiling _ | running _ => e.cause
  | image _ => "invalid bytecode image: " ++ e.cause
  | file _ => "i/o error: " ++ e.cause

end Error

namespace Source

def parse (source : String) : Except Error Block :=
  match Token.lex source with
  | .error e => .error (.lexing e)
  | .ok tokens => match Block.parse tokens with
    | .error e => .error (.parsing e)
    | .ok block => .ok block

/-- The code of a source text, with what the phases report on the way there. -/
def compile (source : String) : Except Error Code × List Log.Entry :=
  match Token.lex source with
  | .error e => (.error (.lexing e), [])
  | .ok tokens =>
    let lexed : Log.Entry := ⟨.debug, s!"lexed {tokens.length} tokens"⟩
    match Block.parse tokens with
    | .error e => (.error (.parsing e), [lexed])
    | .ok block => match Compiler.compileProgram block .empty with
      | .error e compiler => (.error (.compiling e), lexed :: compiler.log.toList)
      | .ok code compiler =>
        let compiled : Log.Entry := ⟨.debug, s!"compiled {code.size} instructions"⟩
        (.ok code, lexed :: compiler.log.toList ++ [compiled])

end Source

end PLZero
