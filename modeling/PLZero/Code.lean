import PLZero.Instr

/-!
# Code

A compiled program: one sequence of instructions. Entries of procedures and targets of jumps are
indices into it.
-/

namespace PLZero

abbrev Code := Array Instr

namespace Code

def count (code : Code) (opcode : Opcode) : Nat :=
  code.toList.countP fun instr => instr.opcode = opcode

/-- The indices of the instructions that a test selects. -/
def indices (code : Code) (test : Instr → Bool) : List Nat :=
  code.toList.zipIdx.filterMap fun (instr, index) => if test instr then some index else none

theorem indices_eq_nil {code : Code} {test : Instr → Bool} :
    code.indices test = [] ↔ ∀ i ∈ code.toList, test i = false := by
  simp only [indices, List.filterMap_eq_nil_iff]
  constructor
  · intro h i hi
    obtain ⟨k, hk⟩ := List.getElem?_of_mem hi
    simpa using h (i, k) (List.mem_zipIdx_iff_getElem?.mpr hk)
  · rintro h ⟨i, k⟩ hk
    simp [h i (List.mem_of_getElem? (List.mem_zipIdx_iff_getElem?.mp hk))]

def branches (code : Code) : List Nat := code.indices fun instr => instr.opcode.isBranch

/-- The indices of jumps and calls whose target is no instruction. -/
def dangling (code : Code) : List Nat :=
  code.indices fun instr =>
    instr.opcode.isBranch && (instr.address < 0 || (code.size : Int) ≤ instr.address.toInt)

theorem dangling_eq_nil {code : Code} : code.dangling = [] ↔
    ∀ i ∈ code.toList, i.opcode.isBranch → ¬ i.address < 0 ∧ i.address.toInt < code.size := by
  simp [dangling, indices_eq_nil]

/-- The addresses of instructions with one of the given opcodes. -/
def targets (code : Code) (opcodes : List Opcode) : List Int64 :=
  (code.toList.filter fun instr => instr.opcode ∈ opcodes).map Instr.address

/-- A line of the dump: index, opcode, level and address with tabs between them. -/
def dumpLine (index : Nat) (instr : Instr) : String :=
  Decimal.ofInt index ++ "\t" ++ instr.opcode.name ++ "\t" ++ Decimal.ofInt64 instr.level ++ "\t"
    ++ Decimal.ofInt64 instr.address ++ "\n"

/-- The instructions as plain text, one to a line. -/
def dump (code : Code) : String :=
  String.join (code.toList.zipIdx.map fun (instr, index) => dumpLine index instr)

end Code

end PLZero
