import Mathlib
import PLZero.Code
import PLZero.Proofs.Numerals

/-!
# Dumps can be read

A line of a dump has four columns, and no column has a tab or a newline in it. So a dump falls into its
lines and columns again, and the columns of a line tell the index and the instruction. Different code has
different dumps.
-/

namespace PLZero

/-! ## Columns -/

/-- Text without the characters that separate columns and lines. -/
def Unbroken (text : String) : Prop := '\t' ∉ text.toList ∧ '\n' ∉ text.toList

theorem Decimal.unbroken_ofInt (n : Int) : Unbroken (ofInt n) :=
  ⟨not_mem_ofInt rfl (by decide) n, not_mem_ofInt rfl (by decide) n⟩

namespace Opcode

theorem unbroken_name (op : Opcode) : Unbroken op.name := by
  unfold Unbroken
  cases op <;> decide

/-- The opcode with a name. -/
def ofName? (name : String) : Option Opcode := all.find? fun op => op.name = name

theorem ofName?_name (op : Opcode) : ofName? op.name = some op := by
  cases op <;> decide

end Opcode

namespace Code

/-- The columns of the line for an instruction at an index. -/
def columns (x : Instr × Nat) : List String :=
  [Decimal.ofInt x.2, x.1.opcode.name, Decimal.ofInt64 x.1.level, Decimal.ofInt64 x.1.address]

theorem unbroken_columns (x : Instr × Nat) : ∀ column ∈ columns x, Unbroken column := by
  simp only [columns, List.forall_mem_cons, List.not_mem_nil, false_implies, implies_true, and_true]
  exact ⟨Decimal.unbroken_ofInt _, x.1.opcode.unbroken_name, Decimal.unbroken_ofInt _, Decimal.unbroken_ofInt _⟩

/-- The instruction and the index that the columns of a line tell. -/
def row? : List String → Option (Instr × Nat)
  | [index, name, level, address] => do
    let index ← Decimal.natural? index.toList
    let opcode ← Opcode.ofName? name
    let level ← Decimal.int64? level.toList
    let address ← Decimal.int64? address.toList
    return (⟨opcode, level, address⟩, index)
  | _ => none

theorem row?_columns (x : Instr × Nat) : row? (columns x) = some x := by
  simp [row?, columns, Decimal.natural?_ofInt, Opcode.ofName?_name, Decimal.int64?_ofInt64]

/-! ## Lines -/

/-- The columns of the lines of a text. -/
def table (text : String) : List (List String) :=
  (text.toList.splitOn '\n').map fun line => (line.splitOn '\t').map String.ofList

/-- A line of a dump without its end. -/
def line (x : Instr × Nat) : List Char := ['\t'].intercalate ((columns x).map String.toList)

theorem toList_dumpLine (x : Instr × Nat) : (dumpLine x.2 x.1).toList = line x ++ ['\n'] := by
  simp [dumpLine, line, columns, List.intercalate_cons_cons]

theorem splitOn_line (x : Instr × Nat) : (line x).splitOn '\t' = (columns x).map String.toList := by
  refine List.splitOn_intercalate '\t' ?_ (by simp [columns])
  rw [List.forall_mem_map]
  exact fun column hcolumn => (unbroken_columns x column hcolumn).1

theorem newline_not_mem_line (x : Instr × Nat) : '\n' ∉ line x := by
  have hnumber (n : Int) := (Decimal.unbroken_ofInt n).2
  have hname := x.1.opcode.unbroken_name.2
  simp [line, columns, List.intercalate_cons_cons, hnumber, hname, Decimal.ofInt64]

/-- Lines that each have an end are what the ends separate, with nothing behind the last one. -/
theorem flatMap_eq_intercalate {α : Type} (f : α → List Char) (xs : List α) :
    (xs.flatMap fun x => f x ++ ['\n']) = ['\n'].intercalate (xs.map f ++ [[]]) := by
  induction xs with
  | nil => rfl
  | cons x xs ih =>
      rw [List.flatMap_cons, ih]
      cases xs <;> simp [List.intercalate_cons_cons]

theorem table_dump (code : Code) : table code.dump = code.toList.zipIdx.map columns ++ [[""]] := by
  have hlines : code.dump.toList = ['\n'].intercalate (code.toList.zipIdx.map line ++ [[]]) := by
    rw [← flatMap_eq_intercalate, dump, String.toList_join, List.flatMap_map]
    exact List.flatMap_congr fun x _ => toList_dumpLine x
  have hsplit : code.dump.toList.splitOn '\n' = code.toList.zipIdx.map line ++ [[]] := by
    rw [hlines]
    refine List.splitOn_intercalate '\n' ?_ (by simp)
    simp only [List.forall_mem_append, List.forall_mem_map, List.forall_mem_singleton]
    exact ⟨fun x _ => newline_not_mem_line x, List.not_mem_nil⟩
  rw [table, hsplit, List.map_append, List.map_map]
  congr 1
  refine List.map_congr_left fun x _ => ?_
  simp [splitOn_line, Function.comp_def]

/-- The lines and columns of a dump tell the index, the opcode and the operands of every instruction in
turn, so no two programs have the same dump. -/
theorem dump_readable :
    (∀ code : Code, table code.dump = code.toList.zipIdx.map columns ++ [[""]] ∧
      (table code.dump).dropLast.mapM row? = some code.toList.zipIdx) ∧
    Function.Injective dump := by
  have hrows (code : Code) : (table code.dump).dropLast.mapM row? = some code.toList.zipIdx := by
    rw [table_dump, List.dropLast_concat, List.mapM_map, show row? ∘ columns = pure from funext row?_columns,
      List.mapM_pure, List.map_id']
    rfl
  refine ⟨fun code => ⟨table_dump code, hrows code⟩, fun code code' h => ?_⟩
  have hsame : code.toList.zipIdx = code'.toList.zipIdx :=
    Option.some.inj ((hrows code).symm.trans (h ▸ hrows code'))
  have hcode := congrArg (List.map Prod.fst) hsame
  simpa using hcode

end Code

end PLZero
