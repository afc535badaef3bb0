import PLZero.Code

/-!
# Assemblies

Code that is being written. An instruction whose target is not known yet gets a placeholder and a
patch, which says where it stands; the assembly counts the patches that are still open.
-/

namespace PLZero

/-- An instruction whose operands are not final. -/
structure Patch where
  position : Nat
deriving DecidableEq

/-- The slots of a frame that hold its return address and links. -/
def reservedSlots : Nat := 3

/-- Instructions written so far, and the number of open patches. -/
structure Assembly where
  code : Code
  outstanding : Nat

namespace Assembly

def empty : Assembly := ⟨#[], 0⟩

def next (a : Assembly) : Nat := a.code.size

def emit (a : Assembly) (i : Instr) : Assembly := { a with code := a.code.push i }

/-- Writes an instruction whose address is to be patched. -/
def emitOpen (a : Assembly) (opcode : Opcode) (level : Int64) : Patch × Assembly :=
  (⟨a.next⟩, { a.emit ⟨opcode, level, 0⟩ with outstanding := a.outstanding + 1 })

/-! ## Instructions -/

def loadConst (a : Assembly) (value : Int64) : Assembly := a.emit ⟨.loadConst, 0, value⟩

def loadVar (a : Assembly) (distance slot : Nat) : Assembly :=
  a.emit ⟨.loadVar, .ofNat distance, .ofNat slot⟩

def storeVar (a : Assembly) (distance slot : Nat) : Assembly :=
  a.emit ⟨.storeVar, .ofNat distance, .ofNat slot⟩

/-- A call to be patched. Until then its level is that of the caller. -/
def call (a : Assembly) (callerLevel : Nat) : Patch × Assembly :=
  a.emitOpen .call (.ofNat callerLevel)

def jump (a : Assembly) : Patch × Assembly := a.emitOpen .jump 0

def jumpIfFalse (a : Assembly) : Patch × Assembly := a.emitOpen .jumpIfFalse 0

/-- A jump to a known index. -/
def jumpTo (a : Assembly) (target : Nat) : Assembly := a.emit ⟨.jump, 0, .ofNat target⟩

/-- The start of a block with the given number of variables. -/
def enter (a : Assembly) (variableCount : Nat) : Assembly :=
  a.emit ⟨.enter, 0, .ofNat (variableCount + reservedSlots)⟩

def operate (a : Assembly) (op : Operator) : Assembly := a.emit (.operate op)

/-! ## Patches -/

def patchAddress (a : Assembly) (patch : Patch) (target : Nat) : Assembly where
  code := a.code.modify patch.position fun i => { i with address := .ofNat target }
  outstanding := a.outstanding - 1

/-- Closes a patch with the index of the next instruction. -/
def patchHere (a : Assembly) (patch : Patch) : Assembly := a.patchAddress patch a.next

/-- Closes the patch of a call. -/
def patchCall (a : Assembly) (patch : Patch) (distance entry : Nat) : Assembly :=
  patchAddress
    { a with code := a.code.modify patch.position fun i => { i with level := .ofNat distance } }
    patch entry

/-- The level of an open instruction: for a call, that of the caller. -/
def levelAt (a : Assembly) (patch : Patch) : Int64 :=
  match a.code[patch.position]? with
  | some i => i.level
  | none => 0

end Assembly

end PLZero
