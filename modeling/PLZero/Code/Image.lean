import PLZero.Code
import PLZero.Code.Varint

/-!
# Images

The binary form of code: the number of instructions, then for each its opcode's index and its two
operands, all as numbers of variable length. Bytes after the last instruction are ignored.
-/

namespace PLZero

/-- Why an image is refused. -/
inductive ImageError where
  | unexpectedEnd
  | badNumber
  | unknownOpcode
deriving DecidableEq

def ImageError.message : ImageError → String
  | unexpectedEnd => "Hit the end of buffer, expected more data"
  | badNumber => "Found a varint that didn't terminate. Is the usize too big for this platform?"
  | unknownOpcode => "Serde Deserialization Error"

namespace Image

/-- What is refused when a number cannot be read. -/
def ofVarintError : Varint.Error → ImageError
  | .unexpectedEnd => .unexpectedEnd
  | .tooLong => .badNumber

/-- Reads a number of a given width. -/
def number (width : Varint.Width) (bytes : List UInt8) : Except ImageError (Nat × List UInt8) :=
  match Varint.decode width bytes with
  | .ok result => .ok result
  | .error e => .error (ofVarintError e)

def word (bytes : List UInt8) : Except ImageError (Int64 × List UInt8) := do
  let (n, bytes) ← number Varint.word64 bytes
  return (Varint.unzigzag n, bytes)

def opcode (bytes : List UInt8) : Except ImageError (Opcode × List UInt8) := do
  let (n, bytes) ← number Varint.word32 bytes
  match Opcode.ofIndex? n with
  | some opcode => return (opcode, bytes)
  | none => throw .unknownOpcode

def instr (bytes : List UInt8) : Except ImageError (Instr × List UInt8) := do
  let (opcode, bytes) ← opcode bytes
  let (level, bytes) ← word bytes
  let (address, bytes) ← word bytes
  return (⟨opcode, level, address⟩, bytes)

/-- Reads the given number of instructions, after those that were read before. -/
def instrs : Nat → Code → List UInt8 → Except ImageError Code
  | 0, code, _ => .ok code
  | n + 1, code, bytes =>
    match instr bytes with
    | .ok (instr, bytes) => instrs n (code.push instr) bytes
    | .error e => .error e

/-- The code that bytes are an image of. -/
def decode (bytes : List UInt8) : Except ImageError Code := do
  let (size, bytes) ← number Varint.word64 bytes
  instrs size #[] bytes

def encodeInstr (i : Instr) : List UInt8 :=
  Varint.encode i.opcode.index ++ Varint.encode (Varint.zigzag i.level)
    ++ Varint.encode (Varint.zigzag i.address)

def encode (code : Code) : List UInt8 :=
  Varint.encode code.size ++ code.toList.flatMap encodeInstr

end Image

end PLZero
