import PLZero.Assembly
import PLZero.Proofs.Usage

/-!
# The code of a tree

What the compiler writes, as a function of the tree, and where the code of each block starts. A block
is one segment, from its `enter` to its last return, followed by the segments of its procedures in the
order of their declaration.

How a call is written is a parameter: the compiler first writes every call as a draft and links it when
all entries are known. Nothing else of the code depends on it, and no length does.
-/

namespace PLZero

/-! ## Expressions -/

/-- The code that loads what a name stands for, in a block at `level`. -/
def Symbol.loadCode (level : Nat) (x : Symbol) : List Instr :=
  match x.binding with
  | .var declared slot => [⟨.loadVar, .ofNat (level - declared), .ofNat slot⟩]
  | .const value => [⟨.loadConst, 0, value⟩]
  | .proc .. => []

def Symbol.storeCode (level : Nat) (x : Symbol) : List Instr :=
  match x.binding with
  | .var declared slot => [⟨.storeVar, .ofNat (level - declared), .ofNat slot⟩]
  | _ => []

/-- The code of an expression: operands first, from left to right. -/
def Expr.code (level : Nat) : Expr → List Instr
  | .binary op lhs rhs _ =>
    lhs.code level ++ rhs.code level
      ++ (BinaryOp.ofToken? op).toList.map fun operator => .operate (.binary operator)
  | .unary op operand _ => operand.code level ++ (Operator.ofPrefixToken? op).toList.map .operate
  | .literal value => [⟨.loadConst, 0, value⟩]
  | .name x _ => x.loadCode level

/-! ## Statements -/

/-- How a call from a block at a level is written. -/
abbrev Linkage := Nat → Symbol → Instr

/-- A call that waits for its entry. -/
def Linkage.draft : Linkage := fun level _ => ⟨.call, .ofNat level, 0⟩

mutual

/-- The code of a statement that starts at `base`. -/
def Stmt.code (link : Linkage) (level base : Nat) : Stmt → List Instr
  | .assign target value _ => value.code level ++ target.storeCode level
  | .read targets => targets.flatMap fun target => .operate .read :: target.value.storeCode level
  | .write values => values.flatMap fun value => value.code level ++ [.operate .write]
  | .call callee _ => [link level callee]
  | .ifThen condition body =>
    let test := condition.code level
    let start := base + test.length + 1
    let code := body.code link level start
    test ++ ⟨.jumpIfFalse, 0, .ofNat (start + code.length)⟩ :: code
  | .ifElse condition body alternative =>
    let test := condition.code level
    let start := base + test.length + 1
    let code := body.code link level start
    let start' := start + code.length + 1
    let code' := alternative.code link level start'
    test ++ ⟨.jumpIfFalse, 0, .ofNat start'⟩ :: code
      ++ ⟨.jump, 0, .ofNat (start' + code'.length)⟩ :: code'
  | .whileDo condition body =>
    let test := condition.code level
    let start := base + test.length + 1
    let code := body.code link level start
    test ++ ⟨.jumpIfFalse, 0, .ofNat (start + code.length + 1)⟩ :: code ++ [⟨.jump, 0, .ofNat base⟩]
  | .sequence body => Stmt.codes link level base body
  | .ret => [.operate .ret]

def Stmt.codes (link : Linkage) (level base : Nat) : List Stmt → List Instr
  | [] => []
  | s :: rest =>
    let code := s.code link level base
    code ++ Stmt.codes link level (base + code.length) rest

end

/-- The number of instructions of a statement in a block at `level`. -/
def Stmt.size (level : Nat) (s : Stmt) : Nat := (s.code .draft level 0).length

def Stmt.sizes (level : Nat) (ss : List Stmt) : Nat := (Stmt.codes .draft level 0 ss).length

mutual

@[simp] theorem Stmt.length_code (link : Linkage) (level base : Nat) (s : Stmt) :
    (s.code link level base).length = s.size level := by
  unfold Stmt.size
  cases s with
  | ifThen c body => simp [Stmt.code, body.length_code]
  | ifElse c body alternative => simp [Stmt.code, body.length_code, alternative.length_code]
  | whileDo c body => simp [Stmt.code, body.length_code]
  | sequence body => simp [Stmt.code, Stmt.length_codes]
  | _ => simp [Stmt.code]

@[simp] theorem Stmt.length_codes (link : Linkage) (level base : Nat) (ss : List Stmt) :
    (Stmt.codes link level base ss).length = Stmt.sizes level ss := by
  unfold Stmt.sizes
  cases ss with
  | nil => rfl
  | cons s rest => simp [Stmt.codes, s.length_code, Stmt.length_codes]

end

theorem Stmt.code_ifThen (link : Linkage) (level base : Nat) (c : Expr) (body : Stmt) :
    (Stmt.ifThen c body).code link level base =
      let start := base + (c.code level).length + 1
      c.code level ++ ⟨.jumpIfFalse, 0, .ofNat (start + body.size level)⟩
        :: body.code link level start := by
  simp only [Stmt.code, Stmt.length_code]

theorem Stmt.code_ifElse (link : Linkage) (level base : Nat) (c : Expr) (body alternative : Stmt) :
    (Stmt.ifElse c body alternative).code link level base =
      let start := base + (c.code level).length + 1
      let start' := start + body.size level + 1
      c.code level ++ ⟨.jumpIfFalse, 0, .ofNat start'⟩ :: body.code link level start
        ++ ⟨.jump, 0, .ofNat (start' + alternative.size level)⟩ :: alternative.code link level start' := by
  simp only [Stmt.code, Stmt.length_code]

theorem Stmt.code_whileDo (link : Linkage) (level base : Nat) (c : Expr) (body : Stmt) :
    (Stmt.whileDo c body).code link level base =
      let start := base + (c.code level).length + 1
      c.code level ++ ⟨.jumpIfFalse, 0, .ofNat (start + body.size level + 1)⟩
        :: body.code link level start ++ [⟨.jump, 0, .ofNat base⟩] := by
  simp only [Stmt.code, Stmt.length_code]

theorem Stmt.codes_cons (link : Linkage) (level base : Nat) (s : Stmt) (rest : List Stmt) :
    Stmt.codes link level base (s :: rest) =
      s.code link level base ++ Stmt.codes link level (base + s.size level) rest := by
  simp only [Stmt.codes, Stmt.length_code]

theorem Stmt.size_ifThen (level : Nat) (c : Expr) (body : Stmt) :
    (Stmt.ifThen c body).size level = (c.code level).length + 1 + body.size level := by
  rw [Stmt.size, Stmt.code_ifThen]
  simp
  omega

theorem Stmt.size_ifElse (level : Nat) (c : Expr) (body alternative : Stmt) :
    (Stmt.ifElse c body alternative).size level =
      (c.code level).length + 1 + body.size level + 1 + alternative.size level := by
  rw [Stmt.size, Stmt.code_ifElse]
  simp
  omega

theorem Stmt.size_whileDo (level : Nat) (c : Expr) (body : Stmt) :
    (Stmt.whileDo c body).size level = (c.code level).length + 1 + body.size level + 1 := by
  rw [Stmt.size, Stmt.code_whileDo]
  simp
  omega

theorem Stmt.sizes_cons (level : Nat) (s : Stmt) (rest : List Stmt) :
    Stmt.sizes level (s :: rest) = s.size level + Stmt.sizes level rest := by
  rw [Stmt.sizes, Stmt.codes_cons]
  simp

/-! ## Blocks -/

/-- The segment of a block that starts at `entry`, without its procedures. -/
def Block.segment (link : Linkage) (entry : Nat) (b : Block) : List Instr :=
  ⟨.enter, 0, .ofNat (b.variableCount + reservedSlots)⟩ :: b.body.code link b.level (entry + 1)
    ++ [.operate .ret]

mutual

/-- The code of a block that starts at `entry`, with its procedures. -/
def Block.code (link : Linkage) (entry : Nat) : Block → List Instr
  | ⟨level, count, consts, vars, procedures, body⟩ =>
    let own := Block.segment link entry ⟨level, count, consts, vars, procedures, body⟩
    own ++ Block.codes link (entry + own.length) procedures

def Block.codes (link : Linkage) (entry : Nat) : List (Procedure Block) → List Instr
  | [] => []
  | ⟨_, block, _⟩ :: rest =>
    let code := block.code link entry
    code ++ Block.codes link (entry + code.length) rest

end

/-- The number of instructions of a block with its procedures. -/
def Block.size (b : Block) : Nat := (b.code .draft 0).length

def Block.sizes (ps : List (Procedure Block)) : Nat := (Block.codes .draft 0 ps).length

@[simp] theorem Block.length_segment (link : Linkage) (entry : Nat) (b : Block) :
    (b.segment link entry).length = b.body.size b.level + 2 := by
  simp [Block.segment]

mutual

@[simp] theorem Block.length_code (link : Linkage) (entry : Nat) (b : Block) :
    (b.code link entry).length = b.size := by
  unfold Block.size
  cases b with
  | mk level count consts vars procedures body => simp [Block.code, Block.length_codes]

@[simp] theorem Block.length_codes (link : Linkage) (entry : Nat) (ps : List (Procedure Block)) :
    (Block.codes link entry ps).length = Block.sizes ps := by
  unfold Block.sizes
  cases ps with
  | nil => rfl
  | cons p rest =>
      obtain ⟨x, block, position⟩ := p
      simp [Block.codes, block.length_code, Block.length_codes]

end

theorem Block.code_eq (link : Linkage) (entry : Nat) (b : Block) :
    b.code link entry =
      b.segment link entry ++ Block.codes link (entry + (b.body.size b.level + 2)) b.procedures := by
  cases b with
  | mk => simp only [Block.code, Block.length_segment]

theorem Block.codes_cons (link : Linkage) (entry : Nat) (p : Procedure Block)
    (rest : List (Procedure Block)) :
    Block.codes link entry (p :: rest) =
      p.block.code link entry ++ Block.codes link (entry + p.block.size) rest := by
  simp only [Block.codes, Block.length_code]

/-! ## Places -/

/-- A block with the index of its first instruction. -/
structure Placed where
  entry : Nat
  block : Block

mutual

/-- The procedures in a block that starts at `entry`, those within them included, in the order of their
code. -/
def Block.places (entry : Nat) : Block → List (Symbol × Placed)
  | ⟨level, _, _, _, procedures, body⟩ => Block.placesIn (entry + (body.size level + 2)) procedures

def Block.placesIn (entry : Nat) : List (Procedure Block) → List (Symbol × Placed)
  | [] => []
  | ⟨x, block, _⟩ :: rest =>
    (x, ⟨entry, block⟩) :: (block.places entry ++ Block.placesIn (entry + block.size) rest)

end

def Symbol.procedureId (x : Symbol) : Nat :=
  match x.binding with
  | .proc _ id => id
  | _ => 0

/-- A place of a procedure whose body uses names only as they may be. -/
def Placed.Proper (p : Symbol × Placed) : Prop :=
  Usage.Admits .callee p.1 ∧ p.2.block.body.Uses Usage.Admits

/-- What the compiler records of a place. -/
def Placed.record (p : Symbol × Placed) : Nat × Nat := (p.1.procedureId, p.2.entry)

/-! ## Calls -/

/-- The entries of the procedures of a program, as the compiler records them. -/
def Block.entries (program : Block) : List (Nat × Nat) := ((program.places 0).map Placed.record).reverse

/-- How calls are written in the code of a program. -/
def Block.linkage (program : Block) : Linkage := fun level x =>
  match x.binding with
  | .proc declared id => match program.entries.lookup id with
    | some entry => ⟨.call, .ofNat level - .ofNat declared, .ofNat entry⟩
    | none => Linkage.draft level x
  | _ => Linkage.draft level x

end PLZero
