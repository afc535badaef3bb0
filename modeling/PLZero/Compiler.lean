import PLZero.Assembly
import PLZero.Compiler.Error
import PLZero.Log
import PLZero.Tree

/-!
# From program trees to code

One pass over the tree. A block becomes its own code followed by that of its procedures, each a
segment from `enter` to the last return. Jumps are patched as soon as their target is written; calls
wait until every procedure has an entry.

A step that fails leaves what it has written, its open patches included; code is handed out only when
no patch is open.
-/

namespace PLZero

/-- A call that waits for the entry of its procedure. -/
structure PendingCall where
  patch : Patch
  callee : Nat
  calleeLevel : Nat
  name : String
deriving DecidableEq

/-- The work of a compiler so far, and the level of the block that it is at. The newest entry of a
procedure counts. -/
structure Compiler where
  assembly : Assembly
  entries : List (Nat × Nat)
  pending : Array PendingCall
  level : Nat
  log : Array Log.Entry

abbrev Compile := EStateM CompileError Compiler

namespace Compiler

def empty : Compiler := ⟨.empty, [], #[], 0, #[]⟩

/-- The entry of a procedure whose code has been written. -/
def entryOf (c : Compiler) (id : Nat) : Option Nat := c.entries.lookup id

/-! ## Writing code -/

def report (level : Log.Level) (text : String) : Compile Unit :=
  modify fun c => { c with log := c.log.push ⟨level, text⟩ }

def assemble (f : Assembly → Assembly) : Compile Unit :=
  modify fun c => { c with assembly := f c.assembly }

/-- Writes an instruction that is to be patched. -/
def assembleOpen (f : Assembly → Patch × Assembly) : Compile Patch :=
  modifyGet fun c => ((f c.assembly).1, { c with assembly := (f c.assembly).2 })

def here : Compile Nat := do return (← get).assembly.next

def currentLevel : Compile Nat := do return (← get).level

/-- Works on a block at `level` and comes back to the block around it. Work that fails leaves its level
behind. -/
def atLevel (level : Nat) (work : Compile Unit) : Compile Unit := do
  let enclosing ← currentLevel
  modify fun c => { c with level := level }
  work
  modify fun c => { c with level := enclosing }

/-! ## Names -/

/-- The number of static links from the current block to the one that declares a variable. -/
def distance (declared : Nat) (symbol : Symbol) : Compile Nat := do
  let level ← currentLevel
  if declared ≤ level then return level - declared
  else throw (.internal (.invisible symbol.name declared level))

/-- Writes code that loads what a name stands for. -/
def load (symbol : Symbol) (position : Position) : Compile Unit := do
  match symbol.binding with
  | .var declared slot =>
    let links ← distance declared symbol
    assemble (·.loadVar links slot)
  | .const value => assemble (·.loadConst value)
  | .proc .. => throw (.notAValue symbol position)

def store (symbol : Symbol) (position : Position) : Compile Unit := do
  match symbol.binding with
  | .var declared slot =>
    let links ← distance declared symbol
    assemble (·.storeVar links slot)
  | .const .. | .proc .. => throw (.notAssignable symbol position)

/-- Writes a call that waits for its patch. -/
def emitCall (callee : Symbol) (callerLevel : Nat) (position : Position) : Compile Unit := do
  match callee.binding with
  | .proc calleeLevel id =>
    let patch ← assembleOpen (·.call callerLevel)
    report .trace s!"call to '{callee.name}' at {patch.position} pending"
    modify fun c => { c with pending := c.pending.push ⟨patch, id, calleeLevel, callee.name⟩ }
  | _ => throw (.notCallable callee position)

/-! ## Expressions and statements -/

/-- Writes code that pushes the value of an expression: operands first, from left to right. -/
def emitExpr : Expr → Compile Unit
  | .binary op lhs rhs position => do
    match BinaryOp.ofToken? op with
    | none => throw (.invalidOperator op position)
    | some operator =>
      emitExpr lhs
      emitExpr rhs
      assemble (·.operate (.binary operator))
  | .unary op operand position => do
    match Operator.ofPrefixToken? op with
    | none => throw (.invalidOperator op position)
    | some operator =>
      emitExpr operand
      assemble (·.operate operator)
  | .literal value => assemble (·.loadConst value)
  | .name symbol position => load symbol position

def emitReads : List (Located Symbol) → Compile Unit
  | [] => return
  | target :: rest => do
    assemble (·.operate .read)
    store target.value target.position
    emitReads rest

def emitWrites : List Expr → Compile Unit
  | [] => return
  | value :: rest => do
    emitExpr value
    assemble (·.operate .write)
    emitWrites rest

mutual

/-- Writes the code of a statement of the current block. -/
def emitStmt : Stmt → Compile Unit
  | .assign target value position => do
    emitExpr value
    store target position
  | .read targets => emitReads targets
  | .write values => emitWrites values
  | .call callee position => do emitCall callee (← currentLevel) position
  | .ifThen condition body => do
    emitExpr condition
    let skip ← assembleOpen (·.jumpIfFalse)
    emitStmt body
    assemble (·.patchHere skip)
  | .ifElse condition body alternative => do
    emitExpr condition
    let skip ← assembleOpen (·.jumpIfFalse)
    emitStmt body
    let leave ← assembleOpen (·.jump)
    assemble (·.patchHere skip)
    emitStmt alternative
    assemble (·.patchHere leave)
  | .whileDo condition body => do
    let start ← here
    emitExpr condition
    let leave ← assembleOpen (·.jumpIfFalse)
    emitStmt body
    assemble (·.jumpTo start)
    assemble (·.patchHere leave)
  | .sequence body => emitStmts body
  | .ret => assemble (·.operate .ret)

def emitStmts : List Stmt → Compile Unit
  | [] => return
  | first :: rest => do
    emitStmt first
    emitStmts rest

end

/-! ## Blocks -/

/-- Records that the code of a procedure starts at the next instruction. -/
def recordEntry (symbol : Symbol) : Compile Unit := do
  match symbol.binding with
  | .proc _ id =>
    let entry ← here
    report .debug s!"procedure '{symbol.name}' entry at {entry}"
    modify fun c => { c with entries := (id, entry) :: c.entries }
  | _ => throw (.internal (.notAProcedure symbol.name))

mutual

/-- Writes the code of a block and, after it, that of its procedures. -/
def emitBlock : Block → Compile Unit
  | { level, variableCount, procedures, body, .. } => atLevel level do
    let start ← here
    report .debug s!"emitting block at level {level} with {variableCount} variables at {start}"
    assemble (·.enter variableCount)
    emitStmt body
    assemble (·.operate .ret)
    emitProcedures procedures
termination_by structural block => block

def emitProcedures : List (Procedure Block) → Compile Unit
  | [] => return
  | { symbol, block, .. } :: rest => do
    recordEntry symbol
    emitBlock block
    emitProcedures rest
termination_by structural procedures => procedures

end

/-! ## Calls -/

/-- Patches a call: its level becomes the number of static links from the caller to the block that
declares the procedure. -/
def resolveCall (call : PendingCall) : Compile Unit := do
  match (← get).entryOf call.callee with
  | none => throw (.internal (.noEntry call.name))
  | some entry =>
    let caller := (← get).assembly.levelAt call.patch
    let distance := caller - .ofNat call.calleeLevel
    if distance < 0 then
      throw (.internal (.unreachable call.name caller call.calleeLevel))
    else
      report .debug (s!"patched call at {call.patch.position} to '{call.name}': distance "
        ++ Decimal.ofInt64 distance ++ s!", entry {entry}")
      assemble (·.patchCall call.patch distance.toInt.toNat entry)

def resolveCalls : List PendingCall → Compile Unit
  | [] => return
  | call :: rest => do
    resolveCall call
    resolveCalls rest

/-- Patches every call that waits. None waits afterwards, not even one that could not be patched. -/
def finalize : Compile Unit := do
  let pending := (← get).pending
  modify fun c => { c with pending := #[] }
  resolveCalls pending.toList

/-- Writes a program, patches its calls and hands out all code that was written. -/
def compileProgram (program : Block) : Compile Code := do
  emitBlock program
  finalize
  let assembly := (← get).assembly
  if assembly.outstanding = 0 then
    report .debug s!"generated {assembly.code.size} instructions"
    return assembly.code
  else
    throw (.internal (.unresolved assembly.outstanding))

end Compiler

def Block.compile (program : Block) : Except CompileError Code :=
  match Compiler.compileProgram program .empty with
  | .ok code _ => .ok code
  | .error e _ => .error e

end PLZero
