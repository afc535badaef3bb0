import PLZero.Code

/-!
# Listings

Code for a reader: entries of procedures and targets of jumps are marked, jumps show their direction
and operators are given by name.
-/

namespace PLZero.Listing

/-- An address in four places. -/
def address (n : Int64) : String := Decimal.padded 4 n.toInt

def index (n : Nat) : String := Decimal.padded 4 n

/-- The target of a jump at an index, with its direction. A jump to itself goes back. -/
def arrow (ip : Nat) (target : Int64) : String :=
  (if target.toInt ≤ ip then "↑ " else "↓ ") ++ address target

def instr (ip : Nat) (i : Instr) : String :=
  let level := Decimal.ofInt64 i.level
  let value := Decimal.ofInt64 i.address
  match i.opcode with
  | .loadConst => "LOAD_CONST     " ++ value
  | .loadVar => "LOAD_VAR       " ++ level ++ ", " ++ value
  | .storeVar => "STORE_VAR      " ++ level ++ ", " ++ value
  | .call => "CALL           " ++ level ++ ", @" ++ address i.address
  | .enter => "ENTER          " ++ value
  | .jump => "JUMP           " ++ arrow ip i.address
  | .jumpIfFalse => "JUMP_IF_FALSE  " ++ arrow ip i.address
  | .operate => match Operator.ofCode? i.address with
    | some op => "OPERATE        " ++ op.name
    | none => "OPERATE        ?" ++ value

/-- The lines for the instruction at an index, given the entries of procedures and the targets of
jumps. -/
def lines (entries jumps : List Int64) (ip : Nat) (i : Instr) : String :=
  let here := Int64.ofNat ip
  let isEntry := here ∈ entries
  let isTarget := here ∈ jumps
  let heading :=
    if isEntry then "      ┌── procedure @" ++ index ip ++ "\n"
    else if isTarget then "      ┌──────────────────────────────────\n"
    else ""
  let marker := if isEntry ∨ isTarget then "► " else "  "
  heading ++ index ip ++ " " ++ marker ++ instr ip i ++ "\n"

def ofCode (code : Code) : String :=
  let entries := code.targets [.call]
  let jumps := code.targets [.jump, .jumpIfFalse]
  String.join (code.toList.zipIdx.map fun (i, ip) => lines entries jumps ip i)

/-- The title above a listing that is printed on its own. -/
def title : String := "=== BYTECODE PROGRAM ===\n\n"

end PLZero.Listing
