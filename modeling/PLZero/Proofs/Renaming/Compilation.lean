import PLZero.Proofs.Action
import PLZero.Proofs.Renaming
import PLZero.Compiler

/-!
# Code without names

The compiler's work on alike trees goes hand in hand: what is written, recorded and left to patch is the
same, and so is the kind of error where the work ends in one.
-/

namespace PLZero

open List (Forall₂)

section

variable (R : String → String → Prop)

inductive Inconsistency.Alike : Inconsistency → Inconsistency → Prop where
  | notAProcedure {m n} : R m n → Alike (.notAProcedure m) (.notAProcedure n)
  | noEntry {m n} : R m n → Alike (.noEntry m) (.noEntry n)
  | unreachable {m n caller declared} : R m n →
      Alike (.unreachable m caller declared) (.unreachable n caller declared)
  | invisible {m n declared used} : R m n →
      Alike (.invisible m declared used) (.invisible n declared used)
  | unresolved {patches} : Alike (.unresolved patches) (.unresolved patches)

/-- The same error, up to places and related names. -/
inductive CompileError.Alike : CompileError → CompileError → Prop where
  | notAssignable {x y p p'} : x.Alike R y → Alike (.notAssignable x p) (.notAssignable y p')
  | notCallable {x y p p'} : x.Alike R y → Alike (.notCallable x p) (.notCallable y p')
  | notAValue {x y p p'} : x.Alike R y → Alike (.notAValue x p) (.notAValue y p')
  | invalidOperator {op p p'} : Alike (.invalidOperator op p) (.invalidOperator op p')
  | internal {cause cause'} : cause.Alike R cause' → Alike (.internal cause) (.internal cause')

structure PendingCall.Alike (call call' : PendingCall) : Prop where
  patch : call.patch = call'.patch
  callee : call.callee = call'.callee
  calleeLevel : call.calleeLevel = call'.calleeLevel
  name : R call.name call'.name

namespace Compiler

/-- The same work, up to related names and what has been reported. -/
structure Alike (c c' : Compiler) : Prop where
  assembly : c.assembly = c'.assembly
  entries : c.entries = c'.entries
  pending : Forall₂ (PendingCall.Alike R) c.pending.toList c'.pending.toList
  level : c.level = c'.level

/-- Two results: the same value and alike work, or alike errors. -/
inductive Agree {α : Type} :
    EStateM.Result CompileError Compiler α → EStateM.Result CompileError Compiler α → Prop where
  | ok {a c c'} : Alike R c c' → Agree (.ok a c) (.ok a c')
  | error {e e' c c'} : e.Alike R e' → Agree (.error e c) (.error e' c')

/-- Actions that agree from alike work on. -/
def InStep {α : Type} (x y : Compile α) : Prop := ∀ ⦃c c'⦄, Alike R c c' → Agree R (x c) (y c')

end Compiler

end

namespace Compiler

variable {R : String → String → Prop} {α β : Type}

namespace InStep

theorem bind {x y : Compile α} {f g : α → Compile β} (hx : InStep R x y) (hf : ∀ a, InStep R (f a) (g a)) :
    InStep R (x >>= f) (y >>= g) := by
  intro c c' hc
  have hfirst := hx hc
  cases hxc : x c with
  | ok a d =>
      rw [hxc] at hfirst
      generalize hyc : y c' = r at hfirst
      cases hfirst with
      | ok hd =>
          rw [Action.bind_of_ok hxc, Action.bind_of_ok hyc]
          exact hf a hd
  | error e d =>
      rw [hxc] at hfirst
      generalize hyc : y c' = r at hfirst
      cases hfirst with
      | error he =>
          rw [Action.bind_of_error hxc, Action.bind_of_error hyc]
          exact .error he

theorem pure (a : α) : InStep R (Pure.pure a) (Pure.pure a) := fun _ _ hc => .ok hc

theorem throw {e e' : CompileError} (h : e.Alike R e') :
    InStep R (MonadExcept.throw e : Compile α) (MonadExcept.throw e') := fun _ _ _ => .error h

theorem report (l l' : Log.Level) (text text' : String) : InStep R (report l text) (report l' text') :=
  fun _ _ hc => .ok ⟨hc.assembly, hc.entries, hc.pending, hc.level⟩

theorem assemble (f : Assembly → Assembly) : InStep R (assemble f) (assemble f) :=
  fun _ _ hc => .ok ⟨congrArg f hc.assembly, hc.entries, hc.pending, hc.level⟩

theorem assembleOpen (f : Assembly → Patch × Assembly) : InStep R (assembleOpen f) (assembleOpen f) := by
  intro c c' hc
  have hpatch : (f c.assembly).1 = (f c'.assembly).1 := by rw [hc.assembly]
  show Agree R (.ok (f c.assembly).1 _) (.ok (f c'.assembly).1 _)
  rw [hpatch]
  exact .ok ⟨congrArg (fun a => (f a).2) hc.assembly, hc.entries, hc.pending, hc.level⟩

theorem read {f g : Compiler → Compile α} (h : ∀ c c', Alike R c c' → InStep R (f c) (g c')) :
    InStep R (get >>= f) (get >>= g) := by
  intro c c' hc
  rw [Action.bind_of_ok (Action.get_apply c), Action.bind_of_ok (Action.get_apply c')]
  exact h c c' hc hc

theorem here : InStep R here here := by
  refine .read fun c c' hc => ?_
  rw [hc.assembly]
  exact .pure _

theorem currentLevel : InStep R currentLevel currentLevel := by
  refine .read fun c c' hc => ?_
  rw [hc.level]
  exact .pure _

theorem atLevel {x y : Compile Unit} (h : InStep R x y) (level : Nat) :
    InStep R (atLevel level x) (atLevel level y) := by
  have hset : ∀ l, InStep R (modify fun c => { c with level := l }) (modify fun c => { c with level := l }) :=
    fun _ _ _ hc => .ok ⟨hc.assembly, hc.entries, hc.pending, rfl⟩
  exact currentLevel.bind fun enclosing => (hset level).bind fun _ => h.bind fun _ => hset enclosing

end InStep

/-! ## Expressions and statements -/

theorem distance_inStep {x y : Symbol} (h : x.Alike R y) (declared : Nat) :
    InStep R (distance declared x) (distance declared y) := by
  refine InStep.currentLevel.bind fun level => ?_
  split
  · exact .pure _
  · exact .throw (.internal (.invisible h.name))

theorem load_inStep {x y : Symbol} (h : x.Alike R y) (p p' : Position) :
    InStep R (load x p) (load y p') := by
  unfold load
  rw [← h.binding]
  cases x.binding with
  | var declared slot => exact (distance_inStep h declared).bind fun _ => .assemble _
  | const value => exact .assemble _
  | proc declared id => exact .throw (.notAValue h)

theorem store_inStep {x y : Symbol} (h : x.Alike R y) (p p' : Position) :
    InStep R (store x p) (store y p') := by
  unfold store
  rw [← h.binding]
  cases x.binding with
  | var declared slot => exact (distance_inStep h declared).bind fun _ => .assemble _
  | const value => exact .throw (.notAssignable h)
  | proc declared id => exact .throw (.notAssignable h)

theorem emitCall_inStep {x y : Symbol} (h : x.Alike R y) (level : Nat) (p p' : Position) :
    InStep R (emitCall x level p) (emitCall y level p') := by
  unfold emitCall
  rw [← h.binding]
  cases x.binding with
  | proc declared id =>
      refine (InStep.assembleOpen _).bind fun patch => (InStep.report ..).bind fun _ c c' hc => ?_
      refine .ok ⟨hc.assembly, hc.entries, ?_, hc.level⟩
      simp only [Array.toList_push]
      exact List.rel_append hc.pending (.cons ⟨rfl, rfl, rfl, h.name⟩ .nil)
  | var declared slot => exact .throw (.notCallable h)
  | const value => exact .throw (.notCallable h)

theorem emitExpr_inStep {e e' : Expr} (h : e.Alike R e') : InStep R (emitExpr e) (emitExpr e') := by
  induction h with
  | @binary op lhs lhs' rhs rhs' p p' _ _ ihl ihr =>
      unfold emitExpr
      cases BinaryOp.ofToken? op with
      | none => exact .throw .invalidOperator
      | some operator => exact ihl.bind fun _ => ihr.bind fun _ => .assemble _
  | @unary op operand operand' p p' _ ih =>
      unfold emitExpr
      cases Operator.ofPrefixToken? op with
      | none => exact .throw .invalidOperator
      | some operator => exact ih.bind fun _ => .assemble _
  | literal => exact .assemble _
  | name h => exact load_inStep h _ _

theorem emitReads_inStep {targets targets' : List (Located Symbol)}
    (h : Forall₂ (fun t t' => t.value.Alike R t'.value) targets targets') :
    InStep R (emitReads targets) (emitReads targets') := by
  induction h with
  | nil => exact .pure ()
  | cons ht _ ih =>
      exact (InStep.assemble _).bind fun _ => (store_inStep ht _ _).bind fun _ => ih

theorem emitWrites_inStep {values values' : List Expr} (h : Forall₂ (Expr.Alike R) values values') :
    InStep R (emitWrites values) (emitWrites values') := by
  induction h with
  | nil => exact .pure ()
  | cons he _ ih =>
      exact (emitExpr_inStep he).bind fun _ => (InStep.assemble _).bind fun _ => ih

mutual

theorem emitStmt_inStep {s s' : Stmt} : s.Alike R s' → InStep R (emitStmt s) (emitStmt s')
  | .assign hx he => (emitExpr_inStep he).bind fun _ => store_inStep hx _ _
  | .read h => emitReads_inStep h
  | .write h => emitWrites_inStep h
  | .call hx => InStep.currentLevel.bind fun level => emitCall_inStep hx level _ _
  | .ifThen hc hs => by
      unfold emitStmt
      refine (emitExpr_inStep hc).bind fun _ => (InStep.assembleOpen _).bind fun skip => ?_
      exact (emitStmt_inStep hs).bind fun _ => .assemble _
  | .ifElse hc hs ht => by
      unfold emitStmt
      refine (emitExpr_inStep hc).bind fun _ => (InStep.assembleOpen _).bind fun skip => ?_
      refine (emitStmt_inStep hs).bind fun _ => (InStep.assembleOpen _).bind fun leave => ?_
      refine (InStep.assemble _).bind fun _ => ?_
      exact (emitStmt_inStep ht).bind fun _ => .assemble _
  | .whileDo hc hs => by
      unfold emitStmt
      refine InStep.here.bind fun start => ?_
      refine (emitExpr_inStep hc).bind fun _ => (InStep.assembleOpen _).bind fun leave => ?_
      refine (emitStmt_inStep hs).bind fun _ => ?_
      exact (InStep.assemble _).bind fun _ => .assemble _
  | .sequence h => emitStmts_inStep h
  | .ret => .assemble _

theorem emitStmts_inStep {ss ss' : List Stmt} :
    Stmt.AllAlike R ss ss' → InStep R (emitStmts ss) (emitStmts ss')
  | .nil => .pure ()
  | .cons hs hss => (emitStmt_inStep hs).bind fun _ => emitStmts_inStep hss

end

/-! ## Blocks and calls -/

theorem recordEntry_inStep {x y : Symbol} (h : x.Alike R y) : InStep R (recordEntry x) (recordEntry y) := by
  unfold recordEntry
  rw [← h.binding]
  cases x.binding with
  | proc declared id =>
      refine InStep.here.bind fun entry => (InStep.report ..).bind fun _ c c' hc => ?_
      exact .ok ⟨hc.assembly, congrArg (List.cons (id, entry)) hc.entries, hc.pending, hc.level⟩
  | var declared slot => exact .throw (.internal (.notAProcedure h.name))
  | const value => exact .throw (.internal (.notAProcedure h.name))

mutual

theorem emitBlock_inStep {b b' : Block} : b.Alike R b' → InStep R (emitBlock b) (emitBlock b')
  | .mk _ _ hps hbody => by
      unfold emitBlock
      refine .atLevel ?_ _
      refine InStep.here.bind fun start => (InStep.report ..).bind fun _ => ?_
      refine (InStep.assemble _).bind fun _ => (emitStmt_inStep hbody).bind fun _ => ?_
      exact (InStep.assemble _).bind fun _ => emitProcedures_inStep hps

theorem emitProcedures_inStep {ps ps' : List (Procedure Block)} :
    Block.AllAlike R ps ps' → InStep R (emitProcedures ps) (emitProcedures ps')
  | .nil => .pure ()
  | .cons hx hb hps => by
      unfold emitProcedures
      refine (recordEntry_inStep hx).bind fun _ => ?_
      exact (emitBlock_inStep hb).bind fun _ => emitProcedures_inStep hps

end

theorem resolveCall_inStep {call call' : PendingCall} (h : call.Alike R call') :
    InStep R (resolveCall call) (resolveCall call') := by
  unfold resolveCall
  refine .read fun c c' hc => ?_
  unfold entryOf
  rw [← hc.entries, ← h.callee]
  cases c.entries.lookup call.callee with
  | none => exact .throw (.internal (.noEntry h.name))
  | some entry =>
      refine .read fun d d' hd => ?_
      simp only [← hd.assembly, ← h.patch, ← h.calleeLevel]
      split
      · exact .throw (.internal (.unreachable h.name))
      · exact (InStep.report ..).bind fun _ => .assemble _

theorem resolveCalls_inStep {calls calls' : List PendingCall}
    (h : Forall₂ (PendingCall.Alike R) calls calls') : InStep R (resolveCalls calls) (resolveCalls calls') := by
  induction h with
  | nil => exact .pure ()
  | cons hcall _ ih => exact (resolveCall_inStep hcall).bind fun _ => ih

theorem finalize_inStep : InStep R finalize finalize := by
  refine .read fun c c' hc => ?_
  refine InStep.bind ?_ fun _ => resolveCalls_inStep hc.pending
  exact fun _ _ hd => .ok ⟨hd.assembly, hd.entries, .nil, hd.level⟩

theorem compileProgram_inStep {b b' : Block} (h : b.Alike R b') :
    InStep R (compileProgram b) (compileProgram b') := by
  refine (emitBlock_inStep h).bind fun _ => finalize_inStep.bind fun _ => .read fun c c' hc => ?_
  simp only [← hc.assembly]
  split
  · exact (InStep.report ..).bind fun _ => .pure _
  · exact .throw (.internal .unresolved)

end Compiler

/-- Alike trees are compiled to the same code, or fail alike. -/
theorem Block.compile_alike {R : String → String → Prop} {b b' : Block} (h : b.Alike R b') :
    (∃ code, b.compile = .ok code ∧ b'.compile = .ok code) ∨
      ∃ e e', b.compile = .error e ∧ b'.compile = .error e' ∧ e.Alike R e' := by
  unfold Block.compile
  have hagree := Compiler.compileProgram_inStep h (⟨rfl, rfl, .nil, rfl⟩ : Compiler.Alike R .empty .empty)
  generalize Compiler.compileProgram b .empty = r, Compiler.compileProgram b' .empty = r' at hagree
  cases hagree with
  | ok _ => exact .inl ⟨_, rfl, rfl⟩
  | error he => exact .inr ⟨_, _, rfl, rfl, he⟩

end PLZero
