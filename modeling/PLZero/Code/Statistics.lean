import PLZero.Code
import PLZero.Text.Column
import PLZero.Text.Percent

/-!
# Statistics

How often each opcode occurs in code, most frequent first, with its share of all instructions.
-/

namespace PLZero.Statistics

/-- The opcodes that occur in code, with their number. -/
def counts (code : Code) : List (Opcode × Nat) :=
  (Opcode.all.map fun opcode => (opcode, code.count opcode)).filter fun (_, n) => 0 < n

/-- The order of the table: more frequent opcodes first, and by name where they are equally so. -/
def precedes (a b : Opcode × Nat) : Bool :=
  b.2 < a.2 || (a.2 = b.2 && a.1.name ≤ b.1.name)

def row (total : Nat) (opcode : Opcode) (n : Nat) : String :=
  "  " ++ Text.flushLeft 14 opcode.name ++ " " ++ Text.flushRight 4 (Decimal.ofInt n) ++ " ("
    ++ Text.flushRight 5 (Percent.text n total) ++ "%)\n"

/-- The statistics of code. Every address that is called counts as a procedure. -/
def ofCode (code : Code) : String :=
  let procedures := (code.targets [.call]).eraseDups.length
  "=== BYTECODE STATISTICS ===\n\n"
    ++ "Instructions:     " ++ Decimal.ofInt code.size ++ "\n"
    ++ "Procedures:       " ++ Decimal.ofInt procedures ++ "\n\n"
    ++ "Opcode frequency:\n"
    ++ String.join (((counts code).mergeSort precedes).map fun (opcode, n) => row code.size opcode n)

end PLZero.Statistics
