import PLZero.Token

/-!
# Instructions

The instructions of the machine: an opcode and two operands, whose meaning depends on the opcode. The
names and numbers here are part of the code's external formats.
-/

namespace PLZero

/-- What an instruction does with its operands `level` and `address`. -/
inductive Opcode where
  /-- Push `address` as a value. -/
  | loadConst
  /-- Push the local `address` of the frame `level` static links away. -/
  | loadVar
  /-- Pop into the local `address` of the frame `level` static links away. -/
  | storeVar
  /-- Call the code at `address` for the frame `level` static links away. -/
  | call
  /-- Make room for the locals of the current frame, whose size in slots is `address`. -/
  | enter
  /-- Go on at `address`. -/
  | jump
  /-- Pop a value and go on at `address` if it is zero. -/
  | jumpIfFalse
  /-- Apply the operator with the number `address`. -/
  | operate
deriving DecidableEq

namespace Opcode

/-- Every opcode, in the order of its index in an image. -/
def all : List Opcode := [loadConst, loadVar, storeVar, call, enter, jump, jumpIfFalse, operate]

def index : Opcode → Nat
  | loadConst => 0
  | loadVar => 1
  | storeVar => 2
  | call => 3
  | enter => 4
  | jump => 5
  | jumpIfFalse => 6
  | operate => 7

def ofIndex? (n : Nat) : Option Opcode := all[n]?

theorem ofIndex?_index (op : Opcode) : ofIndex? op.index = some op := by
  cases op <;> rfl

def name : Opcode → String
  | loadConst => "LOAD_CONST"
  | loadVar => "LOAD_VAR"
  | storeVar => "STORE_VAR"
  | call => "CALL"
  | enter => "ENTER"
  | jump => "JUMP"
  | jumpIfFalse => "JUMP_IF_FALSE"
  | operate => "OPERATE"

/-- The opcodes whose address is the index of an instruction. -/
def isBranch : Opcode → Bool
  | call | jump | jumpIfFalse => true
  | _ => false

end Opcode

/-- The operators that take two values and give one. -/
inductive BinaryOp where
  | sub | add | div | mul | lt | le | gt | ge | eq | ne
deriving DecidableEq

namespace BinaryOp

/-- The operator that a token stands for between two expressions. -/
def ofToken? : Token → Option BinaryOp
  | .mark .plus => some add
  | .mark .minus => some sub
  | .mark .star => some mul
  | .mark .slash => some div
  | .mark .eq => some eq
  | .mark .notEq => some ne
  | .mark .lt => some lt
  | .mark .ltEq => some le
  | .mark .gt => some gt
  | .mark .gtEq => some ge
  | _ => none

end BinaryOp

/-- What an `operate` instruction does. -/
inductive Operator where
  | ret
  | odd
  | write
  | read
  | binary (op : BinaryOp)
deriving DecidableEq

namespace Operator

/-- Every operator, in the order of its number. -/
def all : List Operator :=
  [ret, binary .sub, binary .add, binary .div, binary .mul, binary .lt, binary .le, binary .gt,
    binary .ge, binary .eq, binary .ne, odd, write, read]

def code : Operator → Int64
  | ret => 0
  | binary .sub => 1
  | binary .add => 2
  | binary .div => 3
  | binary .mul => 4
  | binary .lt => 5
  | binary .le => 6
  | binary .gt => 7
  | binary .ge => 8
  | binary .eq => 9
  | binary .ne => 10
  | odd => 11
  | write => 14
  | read => 16

def ofCode? (n : Int64) : Option Operator := all.find? fun op => op.code = n

theorem ofCode?_code (op : Operator) : ofCode? op.code = some op := by
  cases op with
  | binary op => cases op <;> decide
  | _ => decide

def name : Operator → String
  | ret => "RET"
  | binary .sub => "SUB"
  | binary .add => "ADD"
  | binary .div => "DIV"
  | binary .mul => "MUL"
  | binary .lt => "LT"
  | binary .le => "LE"
  | binary .gt => "GT"
  | binary .ge => "GE"
  | binary .eq => "EQ"
  | binary .ne => "NE"
  | odd => "ODD"
  | write => "WRITE"
  | read => "READ"

/-- The operator that a token stands for in front of an expression. -/
def ofPrefixToken? : Token → Option Operator
  | .keyword .odd => some odd
  | _ => none

end Operator

structure Instr where
  opcode : Opcode
  level : Int64
  address : Int64
deriving DecidableEq

/-- An instruction that applies an operator. -/
def Instr.operate (op : Operator) : Instr := ⟨.operate, 0, op.code⟩

end PLZero
