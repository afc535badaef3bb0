import PLZero.Machine.Channel
import PLZero.Proofs.Action
import PLZero.Tree

/-!
# What a program does

The meaning of a tree, without code and frames. A statement runs in an environment that has one array
of cells for each block around it, the program's own first; a procedure runs in the environment of its
caller, cut to the blocks around the declaration, with fresh cells of its own. Numbers are integers
that are cut to a word after every operation.

`exec` is given how to go on with a loop or with the body of a procedure, so that it follows the tree;
`run` ties that knot as often as its fuel says. More fuel keeps a finished answer (`run_mono`).
-/

namespace PLZero.Semantics

/-! ## States -/

/-- Input that is not read yet, and what its source reports after the last byte if it fails. -/
structure Supply where
  bytes : List UInt8
  failure : Option String

namespace Supply

/-- What is left of an input that arrives in pieces. -/
def ofInput (input : Input) : Supply := ⟨input.bytes, input.failure⟩

/-- The next word, up to a blank, as an integer. A source that fails takes a word that no blank ends
with it. -/
def next (s : Supply) : Except InputError Int64 × Supply :=
  let text := s.bytes.dropWhile Input.isBlank
  let word := text.takeWhile fun b => !Input.isBlank b
  match text.dropWhile fun b => !Input.isBlank b with
  | [] => match s.failure with
    | some message => (.error (.source message), { s with bytes := [] })
    | none => (Input.integer word, { s with bytes := [] })
  | _ :: rest => (Input.integer word, { s with bytes := rest })

end Supply

/-- The cells of the blocks around a statement, by level. -/
abbrev Env := List (Array Int64)

structure State where
  env : Env
  supply : Supply
  output : String

/-- Why a statement does not end as the next one starts. -/
inductive Stop where
  /-- The body of the procedure, or the program, is over. -/
  | returned
  | failed (fault : Fault)
  /-- The tree does not hang together. -/
  | undefined
  | outOfFuel

abbrev Run := EStateM Stop State

/-! ## Expressions -/

def truth (p : Prop) [Decidable p] : Int := if p then 1 else 0

/-- What an operator does with two integers; there is no quotient by zero. -/
def operation? : Token → Option (Int → Int → Option Int)
  | .mark .plus => some fun a b => some (a + b)
  | .mark .minus => some fun a b => some (a - b)
  | .mark .star => some fun a b => some (a * b)
  | .mark .slash => some fun a b => if b = 0 then none else some (a.tdiv b)
  | .mark .eq => some fun a b => some (truth (a = b))
  | .mark .notEq => some fun a b => some (truth (a ≠ b))
  | .mark .lt => some fun a b => some (truth (a < b))
  | .mark .ltEq => some fun a b => some (truth (a ≤ b))
  | .mark .gt => some fun a b => some (truth (a > b))
  | .mark .gtEq => some fun a b => some (truth (a ≥ b))
  | _ => none

/-- The value of an operator on two words: the result is cut to a word. -/
def apply (op : Token) (a b : Int64) : Run Int64 :=
  match operation? op with
  | some f => match f a.toInt b.toInt with
    | some n => return .ofInt n
    | none => throw (.failed .divisionByZero)
  | none => throw .undefined

def cell? (env : Env) (level slot : Nat) : Option Int64 :=
  match env[level]? with
  | some cells => cells[slot]?
  | none => none

def value (x : Symbol) : Run Int64 := fun σ =>
  match x.binding with
  | .var level slot => match cell? σ.env level slot with
    | some v => .ok v σ
    | none => .error .undefined σ
  | .const v => .ok v σ
  | .proc .. => .error .undefined σ

/-- The value of an expression: operands first, from left to right. A remainder of one or minus one
makes a number odd. -/
def eval : Expr → Run Int64
  | .binary op lhs rhs _ => do
    let a ← eval lhs
    let b ← eval rhs
    apply op a b
  | .unary op operand _ => do
    let a ← eval operand
    match op with
    | .keyword .odd => return .ofInt (a.toInt.tmod 2)
    | _ => throw .undefined
  | .literal v => return v
  | .name x _ => value x

/-! ## Statements -/

def assign (x : Symbol) (v : Int64) : Run Unit := fun σ =>
  match x.binding with
  | .var level slot => match cell? σ.env level slot with
    | some _ => .ok () { σ with env := σ.env.modify level (·.setIfInBounds slot v) }
    | none => .error .undefined σ
  | _ => .error .undefined σ

def read : Run Int64 := fun σ =>
  match σ.supply.next with
  | (.ok v, rest) => .ok v { σ with supply := rest }
  | (.error e, rest) => .error (.failed (.input e)) { σ with supply := rest }

/-- Writes an integer on a line of its own. -/
def write (v : Int64) : Run Unit := fun σ =>
  .ok () { σ with output := σ.output ++ (Decimal.ofInt64 v ++ "\n") }

def readAll : List (Located Symbol) → Run Unit
  | [] => return
  | target :: rest => do
    assign target.value (← read)
    readAll rest

/-- Writes each value before the next one is computed. -/
def writeAll : List Expr → Run Unit
  | [] => return
  | e :: rest => do
    write (← eval e)
    writeAll rest

mutual

/-- The procedures of a block, those within them included. -/
def procedures : Block → List (Symbol × Block)
  | ⟨_, _, _, _, ps, _⟩ => proceduresIn ps

def proceduresIn : List (Procedure Block) → List (Symbol × Block)
  | [] => []
  | ⟨x, block, _⟩ :: rest => (x, block) :: (procedures block ++ proceduresIn rest)

end

/-- Cells that hold zero, for the variables of a block. -/
def fresh (block : Block) : Array Int64 := .replicate block.variableCount 0

/-- Runs a body in the environment cut to the levels up to `level`, with fresh cells for the block. The
cells of the other levels are as before when the body has ended. -/
def within (level : Nat) (block : Block) (body : Run Unit) : Run Unit := fun σ =>
  match body { σ with env := σ.env.take (level + 1) ++ [fresh block] } with
  | .ok _ τ | .error .returned τ =>
    .ok () { τ with env := τ.env.take (level + 1) ++ σ.env.drop (level + 1) }
  | .error stop τ => .error stop τ

def call (program : Block) (again : Stmt → Run Unit) (x : Symbol) : Run Unit :=
  match x.binding, (procedures program).lookup x with
  | .proc level _, some block => within level block (again block.body)
  | _, _ => throw .undefined

mutual

/-- Runs a statement, given how to run what is left of a loop and the body of a procedure. -/
def exec (program : Block) (again : Stmt → Run Unit) : Stmt → Run Unit
  | .assign target value _ => do assign target (← eval value)
  | .read targets => readAll targets
  | .write values => writeAll values
  | .call callee _ => call program again callee
  | .ifThen condition body => do
    if (← eval condition) ≠ 0 then exec program again body
  | .ifElse condition body alternative => do
    if (← eval condition) ≠ 0 then exec program again body else exec program again alternative
  | .whileDo condition body => do
    if (← eval condition) ≠ 0 then
      exec program again body
      again (.whileDo condition body)
  | .sequence body => execAll program again body
  | .ret => throw .returned

def execAll (program : Block) (again : Stmt → Run Unit) : List Stmt → Run Unit
  | [] => return
  | s :: rest => do
    exec program again s
    execAll program again rest

end

/-- Runs a statement with fuel for so many rounds of loops and calls within each other. -/
def run (program : Block) : Nat → Stmt → Run Unit
  | 0 => exec program fun _ => throw .outOfFuel
  | fuel + 1 => exec program (run program fuel)

/-! ## Programs -/

inductive Outcome where
  | finished
  | failed (fault : Fault)
deriving DecidableEq

def start (program : Block) (supply : Supply) : State := ⟨[fresh program], supply, ""⟩

/-- How a program ends with the given fuel, and what it has written; nothing if it needs more. -/
def outcome? (program : Block) (fuel : Nat) (supply : Supply) : Option (Outcome × String) :=
  match run program fuel program.body (start program supply) with
  | .ok _ σ | .error .returned σ => some (.finished, σ.output)
  | .error (.failed fault) σ => some (.failed fault, σ.output)
  | .error .undefined _ | .error .outOfFuel _ => none

/-- The program ends in this way, after it has written the output. -/
def Ends (program : Block) (supply : Supply) (outcome : Outcome) (output : String) : Prop :=
  ∃ fuel, outcome? program fuel supply = some (outcome, output)

/-- The program runs forever: no fuel is enough for it. -/
def Diverges (program : Block) (supply : Supply) : Prop :=
  ∀ fuel, ∃ σ, run program fuel program.body (start program supply) = .error .outOfFuel σ

/-! ## Fuel -/

/-- Where the first part does not run out of fuel, the second one does the same. -/
def Refines {α : Type} (x y : Run α) : Prop := ∀ σ, (∃ τ, x σ = .error .outOfFuel τ) ∨ y σ = x σ

theorem Refines.refl {α : Type} (x : Run α) : Refines x x := fun _ => .inr rfl

theorem Refines.bind {α β : Type} {x y : Run α} {f g : α → Run β} (hx : Refines x y)
    (hf : ∀ a, Refines (f a) (g a)) : Refines (x >>= f) (y >>= g) := by
  intro σ
  rcases hx σ with ⟨τ, hτ⟩ | hy
  · exact .inl ⟨τ, Action.bind_of_error hτ⟩
  · cases h : x σ with
    | error e τ => exact .inr (by rw [Action.bind_of_error h, Action.bind_of_error (hy.trans h)])
    | ok a τ =>
        rw [Action.bind_of_ok h, Action.bind_of_ok (hy.trans h)]
        exact hf a τ

theorem Refines.within {level : Nat} {block : Block} {x y : Run Unit} (h : Refines x y) :
    Refines (within level block x) (within level block y) := by
  intro σ
  unfold Semantics.within
  rcases h { σ with env := σ.env.take (level + 1) ++ [fresh block] } with ⟨τ, hτ⟩ | hy
  · exact .inl ⟨τ, by rw [hτ]⟩
  · exact .inr (by rw [hy])

variable {program : Block}

theorem call_refines {f g : Stmt → Run Unit} (h : ∀ s, Refines (f s) (g s)) (x : Symbol) :
    Refines (call program f x) (call program g x) := by
  unfold call
  split
  · exact (h _).within
  · exact .refl _

mutual

theorem exec_refines {f g : Stmt → Run Unit} (h : ∀ s, Refines (f s) (g s)) (s : Stmt) :
    Refines (exec program f s) (exec program g s) := by
  cases s with
  | assign => exact .refl _
  | read => exact .refl _
  | write => exact .refl _
  | call callee => exact call_refines h callee
  | ifThen c body =>
      unfold exec
      refine (Refines.refl _).bind fun v => ?_
      split
      · exact exec_refines h body
      · exact .refl _
  | ifElse c body alternative =>
      unfold exec
      refine (Refines.refl _).bind fun v => ?_
      split
      · exact exec_refines h body
      · exact exec_refines h alternative
  | whileDo c body =>
      unfold exec
      refine (Refines.refl _).bind fun v => ?_
      split
      · exact (exec_refines h body).bind fun _ => h _
      · exact .refl _
  | sequence body => exact execAll_refines h body
  | ret => exact .refl _

theorem execAll_refines {f g : Stmt → Run Unit} (h : ∀ s, Refines (f s) (g s)) (ss : List Stmt) :
    Refines (execAll program f ss) (execAll program g ss) := by
  cases ss with
  | nil => exact .refl _
  | cons s rest =>
      unfold execAll
      exact (exec_refines h s).bind fun _ => execAll_refines h rest

end

/-- More fuel keeps an answer that is there. -/
theorem run_mono (fuel : Nat) (s : Stmt) : Refines (run program fuel s) (run program (fuel + 1) s) := by
  induction fuel generalizing s with
  | zero => exact exec_refines (fun _ σ => .inl ⟨σ, rfl⟩) s
  | succ fuel ih => exact exec_refines ih s

theorem outcome?_mono {supply : Supply} {fuel : Nat} {r : Outcome × String}
    (h : outcome? program fuel supply = some r) (more : Nat) :
    outcome? program (fuel + more) supply = some r := by
  induction more with
  | zero => exact h
  | succ more ih =>
      unfold outcome? at ih ⊢
      rcases run_mono (fuel + more) program.body (start program supply) with ⟨τ, hτ⟩ | hrun
      · rw [hτ] at ih
        cases ih
      · rw [← Nat.add_assoc, hrun]
        exact ih

theorem Ends.unique {supply : Supply} {o o' : Outcome} {out out' : String}
    (h : Ends program supply o out) (h' : Ends program supply o' out') : o = o' ∧ out = out' := by
  obtain ⟨n, hn⟩ := h
  obtain ⟨n', hn'⟩ := h'
  have heq := outcome?_mono hn n'
  rw [Nat.add_comm, outcome?_mono hn' n] at heq
  cases heq
  exact ⟨rfl, rfl⟩

end PLZero.Semantics
