import PLZero.Proofs.Compiled
import PLZero.Proofs.Representation
import PLZero.Proofs.Semantics.Primitives

/-!
# Code does what its program means

The machine follows the meaning of each part of a program through the code of that part: where the
meaning goes on, so does the machine, in frames that stand for the environment; where it fails, the
machine fails in the same way; and where it needs more fuel than it has, the machine takes at least as
many steps. Faults that are excused, such as those of limits, may end the machine at any step.
-/

namespace PLZero

open Semantics (State Stop Run Supply)
open Machine (Shows NoFault Nowhere)

/-! ## Runs of a program -/

/-- A program with its code, and what is given for a run of it. -/
structure Setting where
  program : Block
  code : Code
  limits : Limits
  excused : Fault → Prop
  /-- What has been written before the run. -/
  text : String
  flushFailure : Option String
  compiled : Compiled program code
  limit_excused : ∀ fault, fault.IsLimit → excused fault

namespace Setting

/-- The frames are linked as the blocks of the program are nested. -/
abbrev Linked (S : Setting) (m : Machine) : Prop := PLZero.Linked S.program m.stack.skeleton

abbrev Moves (S : Setting) := Machine.Moves S.limits S.code S.Linked S.excused

abbrev Leads (S : Setting) := Machine.Leads S.limits S.code S.Linked S.excused

abbrev Lasts (S : Setting) := Machine.Lasts S.limits S.code S.Linked S.excused

/-- The fault of a program that fails after it has written some output. -/
def FailsWith (S : Setting) (fault : Fault) (output : String) (fault' : Fault) (m : Machine) : Prop :=
  fault' = fault ∧ (fault = .divisionByZero ∨ ∃ e, fault = .input e) ∧ m.output.text = S.text ++ output

variable {α β : Type} (S : Setting)

/-- The machine goes where a part of the meaning goes: to `A` with its value, or to `R` if it returns. -/
def Follows (R : State → Machine → Prop) (n : Nat) (A : α → State → Machine → Prop) (m : Machine) :
    EStateM.Result Stop State α → Prop
  | .ok a σ => S.Leads (A a σ) NoFault m
  | .error .returned σ => S.Leads (R σ) NoFault m
  | .error (.failed fault) σ => S.Leads Nowhere (S.FailsWith fault σ.output) m
  | .error .undefined _ => S.Leads Nowhere NoFault m
  | .error .outOfFuel _ => S.Lasts n m

variable {S} {R : State → Machine → Prop} {n : Nat} {A : α → State → Machine → Prop}
  {B : β → State → Machine → Prop} {Q : Machine → Prop} {m : Machine}

namespace Follows

theorem of_leads {r : EStateM.Result Stop State α} (h : S.Leads Q NoFault m)
    (hQ : ∀ m', Q m' → S.Follows R n A m' r) : S.Follows R n A m r := by
  rcases r with ⟨a, σ⟩ | ⟨stop, σ⟩
  · exact h.bind hQ fun _ _ => False.elim
  · cases stop with
    | returned => exact h.bind hQ fun _ _ => False.elim
    | failed fault => exact h.bind hQ fun _ _ => False.elim
    | undefined => exact h.bind hQ fun _ _ => False.elim
    | outOfFuel => exact Machine.Lasts.of_leads h hQ

theorem trans {r : EStateM.Result Stop State α} {A' : α → State → Machine → Prop}
    {R' : State → Machine → Prop} (h : S.Follows R n A m r)
    (hA : ∀ a σ m', A a σ m' → S.Leads (A' a σ) NoFault m')
    (hR : ∀ σ m', R σ m' → S.Leads (R' σ) NoFault m') : S.Follows R' n A' m r := by
  rcases r with ⟨a, σ⟩ | ⟨stop, σ⟩
  · exact Machine.Leads.bind h (hA a σ) fun _ _ => False.elim
  · cases stop with
    | returned => exact Machine.Leads.bind h (hR σ) fun _ _ => False.elim
    | failed fault => exact h
    | undefined => exact h
    | outOfFuel => exact h

theorem imp {r : EStateM.Result Stop State α} {A' : α → State → Machine → Prop}
    (h : S.Follows R n A m r) (hA : ∀ a σ m', A a σ m' → A' a σ m') : S.Follows R n A' m r :=
  h.trans (fun a σ m' hm' => .here (hA a σ m' hm')) fun _ _ => .here

/-- A step can be taken for a unit of fuel. -/
theorem of_moves {r : EStateM.Result Stop State α} (h : S.Moves Q m)
    (hQ : ∀ m', Q m' → S.Follows R (n - 1) A m' r) : S.Follows R n A m r := by
  rcases r with ⟨a, σ⟩ | ⟨stop, σ⟩
  · exact Machine.Leads.of_moves h hQ
  · cases stop with
    | returned => exact Machine.Leads.of_moves h hQ
    | failed fault => exact Machine.Leads.of_moves h hQ
    | undefined => exact Machine.Leads.of_moves h hQ
    | outOfFuel => exact Machine.Lasts.of_moves h hQ

theorem bind {x : Run α} {f : α → Run β} {σ : State} (h : S.Follows R n A m (x σ))
    (hf : ∀ a τ m', A a τ m' → S.Follows R n B m' (f a τ)) : S.Follows R n B m ((x >>= f) σ) := by
  cases hx : x σ with
  | ok a τ =>
      rw [hx] at h
      rw [Action.bind_of_ok hx]
      exact .of_leads h (hf a τ)
  | error stop τ =>
      rw [hx] at h
      rw [Action.bind_of_error hx]
      cases stop <;> exact h

/-- A procedure that returns has ended, as one that comes to the end of its body. -/
theorem within {level : Nat} {block : Block} {body : Run Unit} {σ : State} {R' : State → Machine → Prop}
    {A : Unit → State → Machine → Prop}
    (h : S.Follows R' n (fun _ => R') m
      (body { σ with env := σ.env.take (level + 1) ++ [Semantics.fresh block] }))
    (hR : ∀ τ m', R' τ m' →
      A () { τ with env := τ.env.take (level + 1) ++ σ.env.drop (level + 1) } m') :
    S.Follows R n A m (Semantics.within level block body σ) := by
  unfold Semantics.within
  generalize body { σ with env := σ.env.take (level + 1) ++ [Semantics.fresh block] } = r at *
  have hback : ∀ τ, S.Leads (R' τ) NoFault m → S.Leads
      (A () { τ with env := τ.env.take (level + 1) ++ σ.env.drop (level + 1) }) NoFault m :=
    fun τ hτ => hτ.bind (fun m' hm' => .here (hR τ m' hm')) fun _ _ => False.elim
  rcases r with ⟨a, τ⟩ | ⟨stop, τ⟩
  · exact hback τ h
  · cases stop with
    | returned => exact hback τ h
    | failed fault => exact h
    | undefined => exact h
    | outOfFuel => exact h

end Follows

end Setting

/-! ## Machines in an activation -/

/-- An activation whose body runs: the frames when it starts, and the blocks around it with the frames
on its static chain, innermost first. -/
structure Scene where
  frames : Array Frame
  chain : List Placed
  links : List Nat

def Scene.level (c : Scene) : Nat := c.chain.length - 1

variable (S : Setting) (c : Scene)

/-- Frames and channels that stand for a state. -/
structure Ready (σ : State) (frames : Array Frame) (input : Input) (output : Output) : Prop where
  alters : Alters c.links c.frames frames
  represents : Represents S.program c.chain c.links frames σ.env
  supply : Supply.ofInput input = σ.supply
  written : output.text = S.text ++ σ.output
  sink : output.sink = .unlimited ∨ ∀ message, S.excused (.output message)
  flushFailure : output.flushFailure = S.flushFailure

/-- The machine is about to carry out the instruction at `pc`, in a state. -/
def At (pc : Nat) (σ : State) (m : Machine) : Prop :=
  ∃ frames input output, Ready S c σ frames input output ∧ Shows frames pc input output m

/-- The same with a value on the stack. -/
def Holding (pc : Nat) (v : Int64) (σ : State) (m : Machine) : Prop :=
  ∃ (below : Array Frame) (f : Frame) (input : Input) (output : Output),
    Ready S c σ (below.push f) input output ∧ Shows (below.push (f.push v)) pc input output m

/-- The activation has ended in a state, and the machine is back in the caller. -/
def Left (σ : State) (m : Machine) : Prop :=
  ∃ (below : Array Frame) (f : Frame) (input : Input) (output : Output),
    Ready S c σ (below.push f) input output ∧ Shows below f.returnAddress input output m

variable {S c} {R : State → Machine → Prop} {n pc : Nat} {σ : State} {m : Machine}

theorem At.cast {pc' : Nat} (h : At S c pc σ m) (hpc : pc = pc') : At S c pc' σ m := hpc ▸ h

/-! ## Expressions -/

/-- Names that the body of the activation may use. -/
abbrev Scene.Admits (c : Scene) (use : Usage) (x : Symbol) : Prop := use.Admits x ∧ Visible c.chain x

theorem Setting.chain_lt {chain : List Placed} (h : Nest S.program chain) :
    chain.length ≤ Decimal.int64Bound := by
  cases chain with
  | nil => simp
  | cons s outer =>
      have hentry := h.length_le_entry
      have hsize := (S.compiled.segment h).le_size
      have hbound := S.compiled.size_lt
      rw [Block.length_segment] at hsize
      rw [List.length_cons]
      omega

theorem Represents.variable {below : Array Frame} {f : Frame} {env : Semantics.Env} {x : Symbol}
    {level slot : Nat} (h : Represents S.program c.chain c.links (below.push f) env)
    (hx : x.binding = .var level slot) (hvisible : Visible c.chain x) :
    ∃ k j g, c.level - level = k ∧ level + k + 1 = c.chain.length ∧ k < Decimal.int64Bound ∧
      slot < Decimal.int64Bound ∧ c.links[k]? = some j ∧
      CallStack.follow ⟨below.push f⟩ k below.size = some j ∧ (below.push f)[j]? = some g ∧
      env[level]? = some g.locals ∧ slot < g.locals.size := by
  obtain ⟨inner, t, outer, hchain, rfl, hslot⟩ := hvisible.exists_slot hx
  have hnest := h.activation.nest
  have hbound := S.chain_lt hnest
  unfold Scene.level
  rw [hchain] at h hnest hbound ⊢
  obtain ⟨j, g, hj, hfollow, hg, hcells, hsize⟩ := h.access
  have hslots := S.compiled.slots_lt hnest.suffix
  simp only [List.length_append, List.length_cons] at hbound ⊢
  exact ⟨inner.length, j, g, by omega, by omega, by omega, by omega, hj, hfollow, hg, hcells, by omega⟩

theorem eval_follows {below : Array Frame} {f : Frame} {input : Input} {output : Output} (e : Expr)
    (hm : Shows (below.push f) pc input output m)
    (hrep : Represents S.program c.chain c.links (below.push f) σ.env)
    (hwritten : output.text = S.text ++ σ.output) (he : e.Uses c.Admits)
    (hcode : S.code.Holds pc (e.code c.level)) :
    S.Follows R n (fun v τ m' => τ = σ ∧
      Shows (below.push (f.push v)) (pc + (e.code c.level).length) input output m') m
      (Semantics.eval e σ) := by
  induction e generalizing pc f m with
  | binary op lhs rhs p ihl ihr =>
      obtain ⟨hop, hl, hr⟩ := he
      obtain ⟨operator, hop⟩ := Option.isSome_iff_exists.mp hop
      simp only [Expr.code, hop, Option.toList_some, List.map_cons, List.map_nil] at hcode ⊢
      unfold Semantics.eval
      refine (ihl hm hrep hl hcode.left.left).bind ?_
      rintro a τ m₁ ⟨rfl, hm₁⟩
      refine (ihr hm₁ (hrep.push a) hr hcode.left.right).bind ?_
      rintro b τ m₂ ⟨rfl, hm₂⟩
      rw [Semantics.apply_eq hop]
      have hi := hcode.right.head
      rw [List.length_append, ← Nat.add_assoc] at hi
      cases hv : operator.apply a b with
      | ok v =>
          refine Machine.Leads.of_moves
            (Machine.moves_binary S.limit_excused hm₂ hi hrep.linked hv) fun m₃ hm₃ => .here ⟨rfl, ?_⟩
          simpa [Nat.add_assoc] using hm₃
      | error fault =>
          have hfault := BinaryOp.eq_of_apply_error hv
          exact Machine.leads_binary_error S.limit_excused hm₂ hi hv
            fun m' hm' => ⟨rfl, .inl hfault, hm' ▸ hwritten⟩
  | unary op operand p ih =>
      obtain ⟨hop, hoperand⟩ := he
      obtain rfl : op = .keyword .odd := Operator.eq_odd_of_isSome hop
      have hoperator : Operator.ofPrefixToken? (.keyword .odd) = some .odd := rfl
      simp only [Expr.code, hoperator, Option.toList_some, List.map_cons, List.map_nil] at hcode ⊢
      unfold Semantics.eval
      refine (ih hm hrep hoperand hcode.left).bind ?_
      rintro a τ m₁ ⟨rfl, hm₁⟩
      refine Machine.Leads.of_moves
        (Machine.moves_odd S.limit_excused hm₁ hcode.right.head hrep.linked) fun m₂ hm₂ => .here ⟨rfl, ?_⟩
      rw [Semantics.ofInt_tmod_two, List.length_append, ← Nat.add_assoc]
      exact hm₂
  | literal v =>
      exact Machine.Leads.of_moves (Machine.moves_loadConst S.limit_excused hm hcode.head hrep.linked)
        fun m' hm' => .here ⟨rfl, hm'⟩
  | name x p =>
      obtain ⟨hvalue, hvisible⟩ := he
      simp only [Semantics.eval, Semantics.value]
      cases hx : x.binding with
      | var level slot =>
          obtain ⟨k, j, g, hk, -, hbound, hbound', -, hfollow, hg, hcells, hslot⟩ := hrep.variable hx hvisible
          simp only [Expr.code, Symbol.loadCode, hx, hk] at hcode ⊢
          have hv := Array.getElem?_eq_getElem hslot
          simp only [Semantics.cell?, hcells, hv]
          exact Machine.Leads.of_moves
            (Machine.moves_loadVar S.limit_excused hm hcode.head hrep.linked hbound hfollow hg hbound' hv)
            fun m' hm' => .here ⟨rfl, hm'⟩
      | const v =>
          simp only [Expr.code, Symbol.loadCode, hx] at hcode ⊢
          exact Machine.Leads.of_moves
            (Machine.moves_loadConst S.limit_excused hm hcode.head hrep.linked) fun m' hm' => .here ⟨rfl, hm'⟩
      | proc level id => simp [Usage.Admits, hx] at hvalue

theorem At.eval {e : Expr} (h : At S c pc σ m) (he : e.Uses c.Admits)
    (hcode : S.code.Holds pc (e.code c.level)) :
    S.Follows R n (Holding S c (pc + (e.code c.level).length)) m (Semantics.eval e σ) := by
  obtain ⟨frames, input, output, hready, hm⟩ := h
  obtain ⟨below, f, rfl⟩ := hready.represents.exists_push
  refine (eval_follows e hm hready.represents hready.written he hcode).imp ?_
  rintro v τ m' ⟨rfl, hm'⟩
  exact ⟨below, f, input, output, hready, hm'⟩

/-! ## Assignment, input and output -/

theorem Holding.store {v : Int64} {x : Symbol} (h : Holding S c pc v σ m) (hx : c.Admits .target x)
    (hcode : S.code.Holds pc (x.storeCode c.level)) :
    S.Follows R n (fun _ => At S c (pc + (x.storeCode c.level).length)) m (Semantics.assign x v σ) := by
  obtain ⟨below, f, input, output, hready, hm⟩ := h
  obtain ⟨htarget, hvisible⟩ := hx
  unfold Semantics.assign
  cases hbinding : x.binding with
  | var level slot =>
      have hrep := hready.represents
      obtain ⟨k, j, g, hk, hlevel, hbound, hbound', hj, hfollow, hg, hcells, hslot⟩ :=
        hrep.variable hbinding hvisible
      simp only [Symbol.storeCode, hbinding, hk] at hcode ⊢
      simp only [Semantics.cell?, hcells, Array.getElem?_eq_getElem hslot]
      refine Machine.Leads.of_moves (Machine.moves_storeVar S.limit_excused hm hcode.head hrep.linked
        hbound hfollow hg hbound' hslot) fun m' hm' => .here ⟨_, _, _, ?_, hm'⟩
      exact ⟨hready.alters.trans (.setLocal (List.mem_of_getElem? hj) slot v), hrep.setLocal hj hlevel slot v,
        hready.supply, hready.written, hready.sink, hready.flushFailure⟩
  | const _ => simp [Usage.Admits, hbinding] at htarget
  | proc _ _ => simp [Usage.Admits, hbinding] at htarget

theorem At.read (h : At S c pc σ m) (hi : S.code[pc]? = some (.operate .read)) :
    S.Follows R n (Holding S c (pc + 1)) m (Semantics.read σ) := by
  obtain ⟨frames, input, output, hready, hm⟩ := h
  obtain ⟨below, f, rfl⟩ := hready.represents.exists_push
  obtain ⟨hvalue, hrest⟩ := input.readInt_eq
  rw [hready.supply] at hvalue hrest
  unfold Semantics.read
  generalize σ.supply.next = next at *
  obtain ⟨result, supply⟩ := next
  cases result with
  | ok v =>
      exact Machine.Leads.of_moves (Machine.moves_read S.limit_excused hm hi hready.represents.linked
        (Prod.ext hvalue rfl)) fun m' hm' => .here ⟨below, f, _, output,
          ⟨hready.alters, hready.represents, hrest, hready.written, hready.sink, hready.flushFailure⟩, hm'⟩
  | error e =>
      exact Machine.leads_read_error S.limit_excused hm hi (Prod.ext hvalue rfl)
        fun m' hm' => ⟨rfl, .inr ⟨e, rfl⟩, hm' ▸ hready.written⟩

theorem Holding.write {v : Int64} (h : Holding S c pc v σ m) (hi : S.code[pc]? = some (.operate .write)) :
    S.Follows R n (fun _ => At S c (pc + 1)) m (Semantics.write v σ) := by
  obtain ⟨below, f, input, output, hready, hm⟩ := h
  refine Machine.Leads.of_moves
    (Machine.moves_write S.limit_excused hm hi hready.represents.linked hready.sink) ?_
  intro m' hm'
  have hwritten : output.text ++ (Decimal.ofInt64 v ++ "\n") =
      S.text ++ (σ.output ++ (Decimal.ofInt64 v ++ "\n")) := by
    rw [hready.written, String.append_assoc]
  have hready' : Ready S c { σ with output := σ.output ++ (Decimal.ofInt64 v ++ "\n") } (below.push f) input
      { output with text := output.text ++ (Decimal.ofInt64 v ++ "\n") } :=
    ⟨hready.alters, hready.represents, hready.supply, hwritten, hready.sink, hready.flushFailure⟩
  exact .here ⟨_, _, _, hready', hm'⟩

theorem readAll_follows {targets : List (Located Symbol)}
    (htargets : ∀ target ∈ targets, c.Admits .target target.value) (h : At S c pc σ m)
    (hcode : S.code.Holds pc (targets.flatMap fun target => .operate .read :: target.value.storeCode c.level)) :
    S.Follows R n (fun _ => At S c (pc + (targets.flatMap fun target =>
      .operate .read :: target.value.storeCode c.level).length)) m (Semantics.readAll targets σ) := by
  induction targets generalizing pc σ m with
  | nil => exact .here h
  | cons target rest ih =>
      obtain ⟨htarget, hrest⟩ := List.forall_mem_cons.mp htargets
      rw [List.flatMap_cons] at hcode ⊢
      unfold Semantics.readAll
      refine (h.read hcode.left.head).bind fun v τ m₁ h₁ => ?_
      refine (h₁.store htarget hcode.left.tail).bind fun _ τ₂ m₂ h₂ => ?_
      refine (ih hrest (h₂.cast ?_) hcode.right).imp fun _ _ _ h₃ => h₃.cast ?_
      · rw [List.length_cons, Nat.add_assoc, Nat.add_comm 1]
      · rw [List.length_append, Nat.add_assoc]

theorem writeAll_follows {values : List Expr} (hvalues : ∀ e ∈ values, e.Uses c.Admits)
    (h : At S c pc σ m)
    (hcode : S.code.Holds pc (values.flatMap fun e => e.code c.level ++ [.operate .write])) :
    S.Follows R n (fun _ => At S c (pc + (values.flatMap fun e =>
      e.code c.level ++ [.operate .write]).length)) m (Semantics.writeAll values σ) := by
  induction values generalizing pc σ m with
  | nil => exact .here h
  | cons e rest ih =>
      obtain ⟨he, hrest⟩ := List.forall_mem_cons.mp hvalues
      rw [List.flatMap_cons] at hcode ⊢
      unfold Semantics.writeAll
      refine (h.eval he hcode.left.left).bind fun v τ m₁ h₁ => ?_
      refine (h₁.write hcode.left.right.head).bind fun _ τ₂ m₂ h₂ => ?_
      refine (ih hrest (h₂.cast ?_) hcode.right).imp fun _ _ _ h₃ => h₃.cast ?_
      · rw [List.length_append, Nat.add_assoc, List.length_singleton]
      · simp only [List.length_append, Nat.add_assoc]

/-! ## Control -/

theorem Holding.branch {v level : Int64} {address : Nat} (h : Holding S c pc v σ m)
    (hi : S.code[pc]? = some ⟨.jumpIfFalse, level, .ofNat address⟩) (haddress : address ≤ S.code.size) :
    S.Moves (At S c (if v = 0 then address else pc + 1) σ) m := by
  obtain ⟨below, f, input, output, hready, hm⟩ := h
  have hbound := S.compiled.size_lt
  exact (Machine.moves_jumpIfFalse S.limit_excused hm hi hready.represents.linked (by omega) haddress).imp
    fun m' hm' => ⟨_, _, _, hready, hm'⟩

theorem At.jump {level : Int64} {address : Nat} (h : At S c pc σ m)
    (hi : S.code[pc]? = some ⟨.jump, level, .ofNat address⟩) (haddress : address ≤ S.code.size) :
    S.Moves (At S c address σ) m := by
  obtain ⟨frames, input, output, hready, hm⟩ := h
  have hbound := S.compiled.size_lt
  exact (Machine.moves_jump S.limit_excused hm hi hready.represents.linked (by omega) haddress).imp
    fun m' hm' => ⟨_, _, _, hready, hm'⟩

theorem At.ret (h : At S c pc σ m) (hi : S.code[pc]? = some (.operate .ret)) : S.Moves (Left S c σ) m := by
  obtain ⟨frames, input, output, hready, hm⟩ := h
  obtain ⟨below, f, rfl⟩ := hready.represents.exists_push
  have hlinked := hready.represents.linked
  rw [Array.map_push] at hlinked
  exact (Machine.moves_ret S.limit_excused hm hi hlinked.of_push).imp
    fun m' hm' => ⟨below, f, input, output, hready, hm'⟩

/-- A condition is evaluated, and the code after the jump or at its target goes on. -/
theorem At.test {condition : Expr} {level : Int64} {address : Nat} {A : Unit → State → Machine → Prop}
    {yes no : Run Unit} (h : At S c pc σ m) (hcondition : condition.Uses c.Admits)
    (hcode : S.code.Holds pc (condition.code c.level))
    (hi : S.code[pc + (condition.code c.level).length]? = some ⟨.jumpIfFalse, level, .ofNat address⟩)
    (haddress : address ≤ S.code.size)
    (hyes : ∀ τ m', At S c (pc + (condition.code c.level).length + 1) τ m' → S.Follows R n A m' (yes τ))
    (hno : ∀ τ m', At S c address τ m' → S.Follows R n A m' (no τ)) :
    S.Follows R n A m ((Semantics.eval condition >>= fun v => if v ≠ 0 then yes else no) σ) := by
  refine (h.eval hcondition hcode).bind fun v τ m₁ h₁ => ?_
  refine .of_leads (.of_moves (h₁.branch hi haddress) fun _ => .here) fun m₂ h₂ => ?_
  by_cases hv : v = 0
  · rw [if_neg (not_not_intro hv)]
    rw [if_pos hv] at h₂
    exact hno τ m₂ h₂
  · rw [if_pos hv]
    rw [if_neg hv] at h₂
    exact hyes τ m₂ h₂

/-! ## Calls -/

variable (S) in
/-- The machine follows statements through their code. -/
def Simulates (n : Nat) (body : Stmt → Run Unit) : Prop :=
  ∀ c s base σ m, s.Uses c.Admits → At S c base σ m →
    S.code.Holds base (s.code S.program.linkage c.level base) →
    S.Follows (Left S c) n (fun _ => At S c (base + s.size c.level)) m (body s σ)

/-- The machine follows the body of a block and returns. -/
theorem Simulates.body {body : Stmt → Run Unit} (hbody : Simulates S n body) {s : Placed}
    {outer : List Placed} (hchain : c.chain = s :: outer) (h : At S c (s.entry + 1) σ m) :
    S.Follows (Left S c) n (fun _ => Left S c) m (body s.block.body σ) := by
  obtain ⟨frames, chain, links⟩ := c
  obtain rfl : chain = s :: outer := hchain
  have hnest : Nest S.program (s :: outer) := by
    obtain ⟨_, _, _, hready, _⟩ := h
    exact hready.represents.activation.nest
  have hsegment := S.compiled.segment hnest
  have hcode := hsegment.left.tail
  have hret := hsegment.right.head
  rw [List.length_cons, Stmt.length_code, Nat.add_comm _ 1, ← Nat.add_assoc] at hret
  rw [S.compiled.level hnest] at hcode hret
  exact (hbody _ _ _ _ _ (S.compiled.uses hnest) h hcode).trans
    (fun _ τ m' h' => .of_moves (h'.ret hret) fun _ => .here) fun _ _ => .here

def Scene.callee (frames : Array Frame) (g : Frame) (chain : List Placed) (links : List Nat) (e : Nat) :
    Scene :=
  ⟨frames.push g, chain, frames.size :: links.drop e⟩

section

variable {frames₀ frames : Array Frame} {inner outer : List Placed} {t u : Placed} {links : List Nat}
  {g : Frame} {input : Input} {output : Output}

theorem Left.back {τ : State}
    (hready : Ready S ⟨frames₀, inner ++ t :: outer, links⟩ σ frames input output)
    (h : Left S (.callee frames g (u :: t :: outer) links inner.length) τ m) :
    At S ⟨frames₀, inner ++ t :: outer, links⟩ g.returnAddress
      { τ with env := τ.env.take (outer.length + 1) ++ σ.env.drop (outer.length + 1) } m := by
  obtain ⟨below, f, input', output', hready', hm⟩ := h
  obtain ⟨halters, hshell⟩ := hready'.alters.of_push
  have hreturn : f.returnAddress = g.returnAddress := by
    simpa using congrArg Frame.returnAddress hshell
  refine ⟨below, input', output', ⟨?_, ?_, hready'.supply, hready'.written, hready'.sink,
    hready'.flushFailure⟩, hreturn ▸ hm⟩
  · exact hready.alters.trans (halters.mono fun _ => List.mem_of_mem_drop)
  · exact hready.represents.leave hready'.alters hready'.represents

end

theorem Usage.Admits.exists_proc {x : Symbol} (h : Usage.Admits .callee x) :
    ∃ level id, x.binding = .proc level id := by
  unfold Usage.Admits at h
  cases hx : x.binding with
  | proc level id => exact ⟨level, id, rfl⟩
  | var _ _ => simp [hx] at h
  | const _ => simp [hx] at h

theorem At.call {again : Stmt → Run Unit} (hagain : Simulates S (n - 1) again) {x : Symbol}
    (hx : c.Admits .callee x) (h : At S c pc σ m)
    (hi : S.code[pc]? = some (S.program.linkage c.level x)) :
    S.Follows R n (fun _ => At S c (pc + 1)) m (Semantics.call S.program again x σ) := by
  obtain ⟨frames₀, chain, links⟩ := c
  obtain ⟨hcallee, hvisible⟩ := hx
  obtain ⟨declared, id, hbinding⟩ := hcallee.exists_proc
  obtain ⟨inner, t, outer, u, hchain, rfl, hu⟩ := hvisible.exists_place hbinding
  obtain rfl : chain = inner ++ t :: outer := hchain
  obtain ⟨frames, input, output, hready, hm⟩ := h
  obtain ⟨below, f, rfl⟩ := hready.represents.exists_push
  have hnest : Nest S.program (t :: outer) := hready.represents.activation.nest.suffix
  have hnest' : Nest S.program (u :: t :: outer) := .procedure hnest hu
  have hsegment := S.compiled.segment hnest'
  obtain ⟨j, -, hj, hfollow, -⟩ := hready.represents.access
  -- The call: one static link for each block between the caller and the declaration.
  have hlevel : Scene.level ⟨frames₀, inner ++ t :: outer, links⟩ = inner.length + outer.length := by
    simp [Scene.level]
  rw [S.compiled.linkage hnest hu hbinding, hlevel, Operand.ofNat_sub (Nat.le_add_left _ _),
    Nat.add_sub_cancel] at hi
  have hdistance : inner.length < Decimal.int64Bound := by
    have := S.chain_lt hready.represents.activation.nest
    simp only [List.length_append, List.length_cons] at this
    omega
  have hentry : u.entry < S.code.size := by
    have := hsegment.le_size
    rw [Block.length_segment] at this
    omega
  have hsize := S.compiled.size_lt
  let called := CallStack.called (pc + 1) u.entry below.size j
  let g := called.allocate u.block.variableCount
  have hg : g.locals = Semantics.fresh u.block := by
    simp [g, called, Frame.allocate, CallStack.called, Semantics.fresh]
  have hrep := hready.represents.enter (g := g) hu hj rfl hg
  have hlinked := hrep.linked
  have hcalled : Linked S.program (((below.push f).push called).map Frame.bone) := by
    rw [Array.map_push] at hlinked ⊢
    exact hlinked
  unfold Semantics.call
  simp only [hbinding, S.compiled.callee hnest hu]
  refine .of_moves (Machine.moves_call S.limit_excused hm hi hdistance hfollow (by omega) (by omega) hcalled)
    fun m₁ hm₁ => ?_
  -- The callee makes room for its variables and carries out its body.
  refine .of_leads (Machine.Leads.of_moves (Machine.moves_enter S.limit_excused hm₁ hsegment.left.head hcalled
    (S.compiled.slots_lt hnest')) fun _ => .here) fun m₂ hm₂ => ?_
  have hat : At S (.callee (below.push f) g (u :: t :: outer) links inner.length) (u.entry + 1)
      { σ with env := σ.env.take (outer.length + 1) ++ [Semantics.fresh u.block] } m₂ :=
    ⟨_, _, _, ⟨.refl _ _, hrep, hready.supply, hready.written, hready.sink, hready.flushFailure⟩, hm₂⟩
  exact .within (hagain.body rfl hat) fun τ m' h' => h'.back hready

/-! ## Statements -/

mutual

/-- The machine follows a statement, if it follows what is left of loops and the bodies of procedures. -/
theorem exec_follows {pc : Nat} {σ : State} {m : Machine} {again : Stmt → Run Unit}
    (hagain : Simulates S (n - 1) again) (s : Stmt) (hs : s.Uses c.Admits) (h : At S c pc σ m)
    (hcode : S.code.Holds pc (s.code S.program.linkage c.level pc)) :
    S.Follows (Left S c) n (fun _ => At S c (pc + s.size c.level)) m
      (Semantics.exec S.program again s σ) := by
  -- Every jump of the statement stays within the code, since the code of the statement does.
  have hsize := hcode.le_size
  rw [Stmt.length_code] at hsize
  cases s with
  | assign target value p =>
      refine (h.eval hs.1 hcode.left).bind fun v τ m₁ h₁ => ?_
      refine (h₁.store hs.2 hcode.right).imp fun _ _ _ h₂ => h₂.cast ?_
      simp [Stmt.size, Stmt.code, Nat.add_assoc]
  | read targets => exact readAll_follows hs h hcode
  | write values => exact writeAll_follows hs h hcode
  | call callee p => exact h.call hagain hs hcode.head
  | ifThen condition body =>
      rw [Stmt.code_ifThen] at hcode
      rw [Stmt.size_ifThen] at hsize ⊢
      unfold Semantics.exec
      refine h.test hs.1 hcode.left hcode.right.head (by omega) (fun τ m₁ h₁ => ?_) fun τ m₁ h₁ => ?_
      · exact (exec_follows hagain body hs.2 h₁ hcode.right.tail).imp fun _ _ _ h₂ => h₂.cast (by omega)
      · exact .here (h₁.cast (by omega))
  | ifElse condition body alternative =>
      rw [Stmt.code_ifElse] at hcode
      rw [Stmt.size_ifElse] at hsize ⊢
      unfold Semantics.exec
      have hend := hcode.right
      simp only [List.length_append, List.length_cons, Stmt.length_code] at hend
      refine h.test hs.1 hcode.left.left hcode.left.right.head (by omega) (fun τ m₁ h₁ => ?_) fun τ m₁ h₁ => ?_
      · refine (exec_follows hagain body hs.2.1 h₁ hcode.left.right.tail).trans (fun _ τ₂ m₂ h₂ => ?_)
          fun _ _ => .here
        have hjump := (h₂.cast (by omega)).jump hend.head (by omega)
        exact .of_moves hjump fun m₃ h₃ => .here (h₃.cast (by omega))
      · exact (exec_follows hagain alternative hs.2.2 h₁ (hend.tail.cast (by omega))).imp
          fun _ _ _ h₂ => h₂.cast (by omega)
  | whileDo condition body =>
      have hloop := hcode
      rw [Stmt.code_whileDo] at hcode
      rw [Stmt.size_whileDo] at hsize
      unfold Semantics.exec
      have hend := hcode.right
      simp only [List.length_append, List.length_cons, Stmt.length_code] at hend
      refine h.test hs.1 hcode.left.left hcode.left.right.head (by omega) (fun τ m₁ h₁ => ?_) fun τ m₁ h₁ => ?_
      · refine (exec_follows hagain body hs.2 h₁ hcode.left.right.tail).bind fun _ τ₂ m₂ h₂ => ?_
        -- The jump back takes a step, so that there is less fuel for the next round.
        have hjump := (h₂.cast (by omega)).jump hend.head (by omega)
        exact .of_moves hjump fun m₃ h₃ => hagain _ _ _ _ _ hs h₃ hloop
      · exact .here (h₁.cast (by rw [Stmt.size_whileDo]; omega))
  | sequence body => exact execAll_follows hagain body hs h hcode
  | ret => exact .of_moves (h.ret hcode.head) fun _ => .here

theorem execAll_follows {pc : Nat} {σ : State} {m : Machine} {again : Stmt → Run Unit}
    (hagain : Simulates S (n - 1) again) (ss : List Stmt) (hss : Stmt.AllUse c.Admits ss) (h : At S c pc σ m)
    (hcode : S.code.Holds pc (Stmt.codes S.program.linkage c.level pc ss)) :
    S.Follows (Left S c) n (fun _ => At S c (pc + Stmt.sizes c.level ss)) m
      (Semantics.execAll S.program again ss σ) := by
  cases ss with
  | nil => exact .here h
  | cons s rest =>
      rw [Stmt.codes_cons] at hcode
      rw [Stmt.sizes_cons]
      have hrest := hcode.right
      rw [Stmt.length_code] at hrest
      unfold Semantics.execAll
      refine (exec_follows hagain s hss.1 h hcode.left).bind fun _ τ m₁ h₁ => ?_
      refine (execAll_follows hagain rest hss.2 h₁ hrest).imp fun _ _ _ h₂ => h₂.cast ?_
      rw [Nat.add_assoc]

end

theorem run_simulates (n : Nat) : Simulates S n (Semantics.run S.program n) := by
  induction n with
  | zero =>
      have hnone : Simulates S 0 fun _ => throw .outOfFuel := fun _ _ _ _ _ _ _ _ => trivial
      exact fun c s _ _ _ => exec_follows hnone s
  | succ n ih => exact fun c s _ _ _ => exec_follows ih s

/-! ## Programs -/

variable (S) in
def Scene.program : Scene :=
  ⟨#[⟨S.code.size, 0, none, none, #[], Semantics.fresh S.program⟩], [⟨0, S.program⟩], [0]⟩

variable (S) in
/-- The machine has left the program in a state and halts. -/
structure Halted (σ : State) (m : Machine) : Prop where
  frames_eq : m.stack.frames = #[]
  pc_eq : m.pc = S.code.size
  written : m.output.text = S.text ++ σ.output
  flushFailure : m.output.flushFailure = S.flushFailure

theorem Left.halted (h : Left S (.program S) σ m) : Halted S σ m := by
  obtain ⟨below, f, input, output, hready, hframes, hpc, -, houtput⟩ := h
  have halters : Alters ((#[] : Array Frame).size :: []) (#[].push _) (below.push f) := hready.alters
  obtain ⟨hbelow, hshell⟩ := halters.of_push
  have hempty : below = #[] := by simpa using hbelow.shells
  have hreturn : f.returnAddress = S.code.size := by
    simpa using congrArg Frame.returnAddress hshell
  exact ⟨hframes.trans hempty, hpc.trans hreturn, houtput ▸ hready.written, houtput ▸ hready.flushFailure⟩

theorem program_follows (n : Nat) (input : Input) (output : Output) (htext : output.text = S.text)
    (hsink : output.sink = .unlimited ∨ ∀ message, S.excused (.output message))
    (hflush : output.flushFailure = S.flushFailure) :
    S.Follows (Halted S) n (fun _ => Halted S) (Machine.boot S.code input output)
      (Semantics.run S.program n S.program.body (Semantics.start S.program (Supply.ofInput input))) := by
  have hnest : Nest S.program [⟨0, S.program⟩] := .program
  have hboot : Shows (#[].push ⟨S.code.size, 0, none, none, #[], #[]⟩) 0 input output
      (Machine.boot S.code input output) := ⟨rfl, rfl, rfl, rfl⟩
  refine .of_leads (.of_moves (Machine.moves_enter S.limit_excused hboot (S.compiled.segment hnest).left.head
    (linked_boot S.program S.code.size) (S.compiled.slots_lt hnest)) fun _ => .here) fun m₁ hm₁ => ?_
  have hat : At S (.program S) 1 (Semantics.start S.program (Supply.ofInput input)) m₁ := by
    have hframes : #[].push (Frame.allocate ⟨S.code.size, 0, none, none, #[], #[]⟩ S.program.variableCount)
        = (Scene.program S).frames := by
      simp [Scene.program, Frame.allocate, Semantics.fresh]
    rw [hframes] at hm₁
    exact ⟨_, input, output, ⟨.refl _ _, .boot S.program S.code.size, rfl, by simp [Semantics.start, htext],
      hsink, hflush⟩, hm₁⟩
  exact ((run_simulates n).body rfl hat).trans (fun _ _ _ h => .here h.halted) fun _ _ h => .here h.halted

end PLZero
