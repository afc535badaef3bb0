import PLZero.Proofs.Patching.Compilation

/-!
# No open placeholder is handed out

A compiler takes blocks, calls and finalizations in any order. Each step may fail and leaves what it has
done. Whatever came before, a program is handed out only when every jump and call has been patched, and
never after a step that has lost a placeholder.
-/

namespace PLZero

open Assembly (Op Proper Sealed replay resolutions unresolved)
open PLZero.Action (Yields leaves)

namespace Assembly

/-- The books of an assembly agree with its code at the end of a history. -/
structure Balanced (history : List Op) : Prop where
  outstanding_eq : (replay history).outstanding = (unresolved history).length
  nodup_resolutions : (resolutions history).Nodup
  /-- What is resolved is open, so that the count of open placeholders is not zero. -/
  open_of_resolves : ∀ op past p, history = op :: past → op.resolves = some p →
    p ∈ unresolved past ∧ 0 < (replay past).outstanding
  address_eq_zero_iff : (replay history).code.size < Decimal.int64Bound → ∀ k i,
    (replay history).code[k]? = some i → i.opcode.isBranch → (i.address = 0 ↔ ⟨k⟩ ∈ unresolved history)

theorem Proper.balanced {history : List Op} (h : Proper history) : Balanced history where
  outstanding_eq := h.outstanding_eq
  nodup_resolutions := h.nodup_resolutions
  open_of_resolves := by
    rintro op past p rfl hp
    have hmem := h.mem_unresolved hp
    refine ⟨hmem, ?_⟩
    rw [h.of_cons.outstanding_eq]
    exact List.length_pos_of_mem hmem
  address_eq_zero_iff := fun hsize _ _ hi hbranch => (h.mem_unresolved_iff hsize hi hbranch).symm

end Assembly

/-- Code that a history has completed: every branch has been resolved or was written with its target, no
target is missing, and calls go to starts of blocks. -/
structure Code.Completed (code : Code) (history : List Op) : Prop where
  none_open : unresolved history = []
  resolved : ∀ k i, code[k]? = some i → i.opcode.isBranch → ⟨k⟩ ∈ resolutions history ∨ i.JumpsBack k
  dangling_eq : code.size < Decimal.int64Bound → code.dangling = []
  calls : ∀ i ∈ code.toList, i.opcode = .call → ¬ i.level < 0 ∧
    ∃ entry, code.Counts i.address entry ∧ code.opcodeAt entry = some .enter

theorem Assembly.Proper.completed {history : List Op} (h : Proper history) (hsealed : Sealed history)
    (hnone : unresolved history = []) : (replay history).code.Completed history := by
  have hlands : ∀ i ∈ (replay history).code.toList, i.opcode.isBranch →
      ∃ target, target < (replay history).code.size ∧ i.Lands (replay history).code target := by
    intro i hi hbranch
    obtain ⟨k, hk⟩ := List.getElem?_of_mem hi
    rw [Array.getElem?_toList] at hk
    exact h.exists_lands_lt hsealed hk hbranch (by simp [hnone])
  refine ⟨hnone, ?_, ?_, ?_⟩
  · intro k i hi hbranch
    cases h.standing hi hbranch with
    | waits hmem _ => simp [hnone] at hmem
    | resolved hmem _ => exact .inl hmem
    | back _ hjump => exact .inr hjump
  · intro hsize
    rw [Code.dangling_eq_nil]
    intro i hi hbranch
    obtain ⟨target, hlt, hlands⟩ := hlands i hi hbranch
    have htarget : target < Decimal.int64Bound := Nat.lt_trans hlt hsize
    rw [hlands.address_eq, Operand.toInt_ofNat htarget]
    exact ⟨Operand.not_ofNat_lt_zero htarget, Int.ofNat_lt.mpr hlt⟩
  · intro i hi hcall
    obtain ⟨target, hlt, hlands⟩ := hlands i hi (by rw [hcall]; rfl)
    obtain ⟨hlevel, henter⟩ := hlands.call hcall
    refine ⟨hlevel, target, ?_, henter⟩
    rw [hlands.address_eq]
    exact Code.counts_ofNat (Nat.le_of_lt hlt)

namespace Compiler

variable {history later : List Op} {held : List Patch} {c c' : Compiler}

/-! ## Steps -/

inductive Step where
  | emitBlock (block : Block)
  | emitCall (callee : Symbol) (callerLevel : Nat) (position : Position)
  | finalize

def Step.action : Step → Compile Unit
  | .emitBlock block => Compiler.emitBlock block
  | .emitCall callee callerLevel position => Compiler.emitCall callee callerLevel position
  | .finalize => Compiler.finalize

/-- The compiler after some steps, whether they have succeeded or failed. -/
def after (steps : List Step) (c : Compiler) : Compiler :=
  steps.foldl (fun c step => leaves step.action c) c

theorem Settled.step (h : Settled history held c) (step : Step) :
    ∃ later lost, history <:+ later ∧ Settled later (lost ++ held) (leaves step.action c) := by
  refine Yields.leaves (P := fun c' => ∃ later lost, history <:+ later ∧ Settled later (lost ++ held) c') ?_
  cases step with
  | emitBlock block =>
      refine Yields.imp (emitBlock_extends block h.toTracked h.expects) ?_ ?_
      · rintro _ c' ⟨later, hlater, h', -⟩
        exact ⟨later, [], hlater, h'.toSettled⟩
      · rintro _ c' ⟨later, lost, hlater, h'⟩
        exact ⟨later, lost, hlater, h'.toSettled⟩
  | emitCall callee callerLevel position =>
      refine Yields.imp (emitCall_yields h callee callerLevel position) ?_ ?_
      · rintro _ c' ⟨later, hlater, h'⟩
        exact ⟨later, [], hlater, h'.toSettled⟩
      · rintro _ c' rfl
        exact ⟨history, [], List.suffix_rfl, h⟩
  | finalize =>
      refine Yields.imp (finalize_yields h) ?_ ?_
      · rintro _ c' ⟨later, hlater, h', -⟩
        exact ⟨later, [], hlater, h'⟩
      · rintro _ c' ⟨later, lost, hlater, -, h'⟩
        exact ⟨later, lost, hlater, h'⟩

theorem Settled.after (h : Settled history held c) (steps : List Step) :
    ∃ later lost, history <:+ later ∧ Settled later (lost ++ held) (after steps c) := by
  induction steps generalizing history held c with
  | nil => exact ⟨history, [], List.suffix_rfl, h⟩
  | cons step steps ih =>
      obtain ⟨later, lost, hlater, h'⟩ := h.step step
      obtain ⟨later', lost', hlater', h''⟩ := ih h'
      refine ⟨later', lost' ++ lost, hlater.trans hlater', ?_⟩
      rwa [List.append_assoc]

/-! ## Steps that lose a placeholder -/

/-- A statement fails inside a branch or inside the body of a loop. -/
inductive BreaksOff : Stmt → Compiler → Prop where
  | ifThen {condition body skip e c c₁ c₂ c₃} : emitExpr condition c = .ok () c₁ →
      assembleOpen (·.jumpIfFalse) c₁ = .ok skip c₂ → emitStmt body c₂ = .error e c₃ →
      BreaksOff (.ifThen condition body) c
  | ifElse {condition body alternative skip e c c₁ c₂ c₃} : emitExpr condition c = .ok () c₁ →
      assembleOpen (·.jumpIfFalse) c₁ = .ok skip c₂ → emitStmt body c₂ = .error e c₃ →
      BreaksOff (.ifElse condition body alternative) c
  | alternative {condition body alternative skip leave e c c₁ c₂ c₃ c₄ c₅ c₆} :
      emitExpr condition c = .ok () c₁ → assembleOpen (·.jumpIfFalse) c₁ = .ok skip c₂ →
      emitStmt body c₂ = .ok () c₃ → assembleOpen (·.jump) c₃ = .ok leave c₄ →
      assemble (·.patchHere skip) c₄ = .ok () c₅ → emitStmt alternative c₅ = .error e c₆ →
      BreaksOff (.ifElse condition body alternative) c
  | whileDo {condition body leave e c c₁ c₂ c₃} : emitExpr condition c = .ok () c₁ →
      assembleOpen (·.jumpIfFalse) c₁ = .ok leave c₂ → emitStmt body c₂ = .error e c₃ →
      BreaksOff (.whileDo condition body) c
  | sequence {before s rest c c₁} : emitStmts before c = .ok () c₁ → BreaksOff s c₁ →
      BreaksOff (.sequence (before ++ s :: rest)) c

/-- The body of a block or of a procedure in it fails so. -/
inductive BlockBreaksOff : Block → Compiler → Prop where
  | body {b c c₁} : startBlock b.level b.variableCount { c with level := b.level } = .ok () c₁ →
      BreaksOff b.body c₁ → BlockBreaksOff b c
  | procedure {b before procedure rest c c₁ c₂ c₃ c₄ c₅} :
      startBlock b.level b.variableCount { c with level := b.level } = .ok () c₁ →
      emitStmt b.body c₁ = .ok () c₂ → assemble (·.operate .ret) c₂ = .ok () c₃ →
      b.procedures = before ++ procedure :: rest →
      emitProcedures before c₃ = .ok () c₄ → recordEntry procedure.symbol c₄ = .ok () c₅ →
      BlockBreaksOff procedure.block c₅ → BlockBreaksOff b c

inductive Step.Abandons : Step → Compiler → Prop where
  | emitBlock {block c} : BlockBreaksOff block c → Step.Abandons (.emitBlock block) c
  | finalize {e c c'} : Compiler.finalize c = .error e c' → Step.Abandons .finalize c

/-- Work that fails and leaves a placeholder open that nothing can close any more. -/
def Loses (x : Compile Unit) (history : List Op) (held : List Patch) (c : Compiler) : Prop :=
  ∃ e c' later lost, x c = .error e c' ∧ history <:+ later ∧ lost ≠ [] ∧ Settled later (lost ++ held) c'

namespace Loses

variable {x : Compile Unit} {f : Unit → Compile Unit}

theorem of_held {Q : Unit → List Op → Compiler → Prop} {p : Patch} (h : Extends (p :: held) x history c Q)
    {e : CompileError} (hx : x c = .error e c') : Loses x history held c := by
  obtain ⟨later, lost, hlater, h'⟩ := Yields.error h hx
  refine ⟨e, c', later, lost ++ [p], hx, hlater, by simp, ?_⟩
  rw [List.append_assoc]
  exact h'.toSettled

theorem bind (h : Loses x history held c) : Loses (x >>= f) history held c := by
  obtain ⟨e, c', later, lost, hx, h⟩ := h
  exact ⟨e, c', later, lost, Action.bind_of_error hx, h⟩

theorem bind_ok {α : Type} {x : Compile α} {f : α → Compile Unit} {a : α} (hx : x c = .ok a c')
    (hlater : history <:+ later) (h : Loses (f a) later held c') : Loses (x >>= f) history held c := by
  obtain ⟨e, c'', later', lost, hf, hlater', h⟩ := h
  exact ⟨e, c'', later', lost, by rw [Action.bind_of_ok hx, hf], hlater.trans hlater', h⟩

theorem atLevel {work : Compile Unit} {level : Nat} (h : Loses work history held { c with level := level }) :
    Loses (Compiler.atLevel level work) history held c :=
  .bind_ok rfl List.suffix_rfl (.bind_ok rfl List.suffix_rfl h.bind)

end Loses

theorem open_ok (h : Underway history held c) {opcode : Opcode} (hopcode : opcode.isBranch) {level : Int64}
    {p : Patch} (hopen : assembleOpen (·.emitOpen opcode level) c = .ok p c') :
    ∃ later, history <:+ later ∧ Underway later (p :: held) c' ∧
      c'.assembly.code.opcodeAt p.position = some opcode :=
  Yields.ok (@open_extends history held c held h opcode hopcode level) hopen

theorem emitStmts_loses {s : Stmt} {before rest : List Stmt} (h : Underway history held c)
    (hbefore : emitStmts before c = .ok () c')
    (hs : ∀ later, Underway later held c' → Loses (emitStmt s) later held c') :
    Loses (emitStmts (before ++ s :: rest)) history held c := by
  induction before generalizing history c with
  | nil =>
      cases hbefore
      unfold emitStmts
      exact (hs history h).bind
  | cons first before ih =>
      unfold emitStmts at hbefore
      obtain ⟨_, c₁, hfirst, hbefore⟩ := Action.bind_eq_ok.mp hbefore
      obtain ⟨later, hlater, h₁⟩ := Yields.ok (emitStmt_keeps first h) hfirst
      exact .bind_ok hfirst hlater (ih h₁ hbefore)

/-- What follows a condition fails while the jump past it is held. -/
theorem guarded_loses {condition : Expr} {body : Stmt} {f : Patch → Compile Unit} {skip : Patch}
    {e : CompileError} {c₁ c₂ c₃ : Compiler} (h : Underway history held c)
    (htest : emitExpr condition c = .ok () c₁) (hopen : assembleOpen (·.jumpIfFalse) c₁ = .ok skip c₂)
    (hbody : emitStmt body c₂ = .error e c₃) :
    Loses (do
      emitExpr condition
      let skip ← assembleOpen (·.jumpIfFalse)
      emitStmt body
      f skip) history held c := by
  obtain ⟨later, hlater, h₁⟩ := Yields.ok (emitExpr_keeps condition h) htest
  obtain ⟨later', hlater', h₂, -⟩ := open_ok h₁ rfl hopen
  refine .bind_ok htest hlater (.bind_ok hopen hlater' ?_)
  exact (Loses.of_held (emitStmt_keeps body h₂) hbody).bind

theorem BreaksOff.loses {s : Stmt} (hs : BreaksOff s c)
    (h : Underway history held c) : Loses (emitStmt s) history held c := by
  induction hs generalizing history with
  | ifThen htest hopen hbody =>
      unfold emitStmt
      exact guarded_loses h htest hopen hbody
  | ifElse htest hopen hbody =>
      unfold emitStmt
      exact guarded_loses h htest hopen hbody
  | alternative htest hskip hbody hleave hpatch halternative =>
      obtain ⟨later₁, hlater₁, h₁⟩ := Yields.ok (emitExpr_keeps _ h) htest
      obtain ⟨later₂, hlater₂, h₂, hopcode⟩ := open_ok h₁ rfl hskip
      obtain ⟨later₃, hlater₃, h₃⟩ := Yields.ok (emitStmt_keeps _ h₂) hbody
      obtain ⟨later₄, hlater₄, h₄, -⟩ := open_ok h₃ rfl hleave
      have hopcode := h₂.opcodeAt h₄.toTracked (hlater₃.trans hlater₄) hopcode
      cases hpatch
      have h₅ := h₄.patchHere (.swap ..) (by rw [hopcode]; decide)
      unfold emitStmt
      refine .bind_ok htest hlater₁ (.bind_ok hskip hlater₂ (.bind_ok hbody hlater₃ ?_))
      have hlost := Loses.of_held (emitStmt_keeps _ h₅) halternative
      exact .bind_ok hleave hlater₄ (.bind_ok rfl (List.suffix_cons ..) hlost.bind)
  | whileDo htest hopen hbody =>
      unfold emitStmt
      exact .bind_ok rfl List.suffix_rfl (guarded_loses h htest hopen hbody)
  | sequence hbefore _ ih =>
      unfold emitStmt
      exact emitStmts_loses h hbefore fun later h' => ih h'

theorem emitProcedures_loses {procedure : Procedure Block} {before rest : List (Procedure Block)}
    {c₁ : Compiler} (h : Underway history held c) (hbefore : emitProcedures before c = .ok () c₁)
    (hrecord : recordEntry procedure.symbol c₁ = .ok () c')
    (hblock : ∀ later, Tracked later held c' → Expects c' → Loses (emitBlock procedure.block) later held c') :
    Loses (emitProcedures (before ++ procedure :: rest)) history held c := by
  induction before generalizing history c with
  | nil =>
      cases hbefore
      obtain ⟨later, hlater, h', hc'⟩ := Yields.ok (recordEntry_extends h procedure.symbol) hrecord
      unfold emitProcedures
      exact .bind_ok hrecord hlater (hblock later h' hc').bind
  | cons first before ih =>
      unfold emitProcedures at hbefore
      obtain ⟨_, c₂, hfirst, hbefore⟩ := Action.bind_eq_ok.mp hbefore
      obtain ⟨_, c₃, hemit, hbefore⟩ := Action.bind_eq_ok.mp hbefore
      obtain ⟨later, hlater, h₂, hc₂⟩ := Yields.ok (recordEntry_extends h first.symbol) hfirst
      obtain ⟨later', hlater', h₃, -⟩ := Yields.ok (emitBlock_extends first.block h₂ hc₂) hemit
      exact .bind_ok hfirst hlater (.bind_ok hemit hlater' (ih h₃ hbefore))

theorem BlockBreaksOff.loses {b : Block} (hb : BlockBreaksOff b c) (h : Tracked history held c)
    (hc : Expects c) : Loses (emitBlock b) history held c := by
  induction hb generalizing history with
  | @body b c c₁ hstart hbody =>
      obtain ⟨later, hlater, h₁⟩ :=
        Yields.ok (@startBlock_extends history held _ held (h.level b.level) hc b.level b.variableCount) hstart
      rw [emitBlock_eq]
      exact .atLevel (.bind_ok hstart hlater (hbody.loses h₁).bind)
  | @procedure b before procedure rest c c₁ c₂ c₃ c₄ c₅ hstart hbody hret hprocedures hbefore hrecord _ ih =>
      obtain ⟨later, hlater, h₁⟩ :=
        Yields.ok (@startBlock_extends history held _ held (h.level b.level) hc b.level b.variableCount) hstart
      obtain ⟨later', hlater', h₂⟩ := Yields.ok (emitStmt_keeps b.body h₁) hbody
      cases hret
      have hlost := @emitProcedures_loses _ _ _ _ _ _ rest _ h₂.writeRet hbefore hrecord
        fun _ h' hc' => ih h' hc'
      rw [emitBlock_eq, hprocedures]
      refine .atLevel (.bind_ok hstart hlater (.bind_ok hbody hlater' ?_))
      exact .bind_ok rfl (List.suffix_cons ..) hlost

theorem Step.Abandons.loses {step : Step} (hs : step.Abandons c) (h : Settled history held c) :
    Loses step.action history held c := by
  cases hs with
  | emitBlock hb => exact hb.loses h.toTracked h.expects
  | @finalize e c c' hfail =>
      obtain ⟨later, lost, hlater, hlost, h'⟩ := Yields.error (finalize_yields h) hfail
      exact ⟨e, c', later, lost, hfail, hlater, hlost, h'⟩

/-! ## What is handed out -/

theorem after_append (steps steps' : List Step) (c : Compiler) :
    after (steps ++ steps') c = after steps' (after steps c) :=
  List.foldl_append ..

/-- A placeholder that has been lost stays open. -/
theorem Step.Abandons.exists_held {before rest : List Step} {step : Step}
    (hs : step.Abandons (after before .empty)) :
    ∃ history held, held ≠ [] ∧ Settled history held (after (before ++ step :: rest) .empty) := by
  obtain ⟨_, _, -, h⟩ := settled_empty.after before
  obtain ⟨e, c', _, lost, hfail, -, hlost, h'⟩ := hs.loses h
  rw [← Action.leaves_of_error hfail] at h'
  obtain ⟨later, lost', -, h''⟩ := h'.after rest
  rw [after_append]
  exact ⟨later, _, by simp [hlost], h''⟩

theorem compileProgram_ne_ok (program : Block) (h : Settled history held c) (hheld : held ≠ []) (code : Code) :
    compileProgram program c ≠ .ok code c' := by
  intro hok
  obtain ⟨later, -, h', hnone, -⟩ := (compileProgram_yields program h).ok hok
  have hperm := h'.open_perm
  rw [hnone] at hperm
  exact hheld (List.append_eq_nil_iff.mp hperm.nil_eq.symm).1

/-- Whatever steps came before, code is handed out only when it is complete, and not at all once a
placeholder has been lost; all the while the open placeholders are counted, and each is resolved once at
most. -/
theorem compileProgram_patched (steps : List Step) (program : Block) :
    ∃ history later, history <:+ later ∧ Proper later ∧
      replay history = (after steps .empty).assembly ∧
      replay later = (leaves (compileProgram program) (after steps .empty)).assembly ∧
      (∀ past, past <:+ later → Assembly.Balanced past) ∧
      (∀ code c, compileProgram program (after steps .empty) = .ok code c →
        code = c.assembly.code ∧ code.Completed later) ∧
      ∀ before step rest, steps = before ++ step :: rest → step.Abandons (after before .empty) →
        ∀ code c, compileProgram program (after steps .empty) ≠ .ok code c := by
  obtain ⟨history, _, -, h⟩ := settled_empty.after steps
  have hyields := compileProgram_yields program h
  have habandoned : ∀ before step rest, steps = before ++ step :: rest →
      step.Abandons (after before .empty) →
      ∀ code c, compileProgram program (after steps .empty) ≠ .ok code c := by
    rintro before step rest rfl hs code c
    obtain ⟨_, _, hheld, h'⟩ := hs.exists_held
    exact compileProgram_ne_ok program h' hheld code
  cases hresult : compileProgram program (after steps .empty) with
  | ok code c =>
      obtain ⟨later, hlater, h', hnone, hsealed, rfl⟩ := hyields.ok hresult
      refine ⟨history, later, hlater, h'.proper, h.replay_eq, ?_, ?_, ?_, hresult ▸ habandoned⟩
      · rw [leaves, hresult]
        exact h'.replay_eq
      · exact fun past hpast => (h'.proper.of_suffix hpast).balanced
      · rintro _ _ ⟨⟩
        rw [← h'.replay_eq]
        exact ⟨rfl, h'.proper.completed hsealed hnone⟩
  | error e c =>
      obtain ⟨later, lost, hlater, h'⟩ := hyields.error hresult
      refine ⟨history, later, hlater, h'.proper, h.replay_eq, ?_, ?_, ?_, hresult ▸ habandoned⟩
      · rw [leaves, hresult]
        exact h'.replay_eq
      · exact fun past hpast => (h'.proper.of_suffix hpast).balanced
      · rintro _ _ ⟨⟩

/-! A procedure that calls itself from a branch, and a block that fails in one. -/

namespace BranchCall

def procedure : Symbol := ⟨"p", .proc 0 0⟩

def program : Block :=
  ⟨0, 0, [], [], [⟨procedure, ⟨1, 0, [], [], [], .ifThen (.literal 1) (.call procedure ⟨1, 1⟩)⟩, ⟨1, 1⟩⟩],
    .call procedure ⟨1, 1⟩⟩

def code : Code := #[
  ⟨.enter, 0, 3⟩, ⟨.call, 0, 3⟩, .operate .ret,
  ⟨.enter, 0, 3⟩, ⟨.loadConst, 0, 1⟩, ⟨.jumpIfFalse, 0, 7⟩, ⟨.call, 1, 3⟩, .operate .ret]

def broken : Block :=
  ⟨0, 0, [], [], [], .whileDo (.literal 1) (.call ⟨"c", .const 2⟩ ⟨1, 1⟩)⟩

end BranchCall

theorem compileProgram_patched_branchCall :
    (∃ c history, compileProgram BranchCall.program (after [.finalize] .empty) = .ok BranchCall.code c ∧
      BranchCall.code.Completed history) ∧
    (Step.emitBlock BranchCall.broken).Abandons .empty ∧
    ∀ code c, compileProgram BranchCall.program (after [.emitBlock BranchCall.broken] .empty) ≠ .ok code c := by
  have hok : ∃ c, compileProgram BranchCall.program (after [.finalize] .empty) = .ok BranchCall.code c :=
    ⟨_, rfl⟩
  have hbroken : (Step.emitBlock BranchCall.broken).Abandons .empty :=
    .emitBlock (.body rfl (.whileDo rfl rfl rfl))
  obtain ⟨c, hok⟩ := hok
  obtain ⟨_, later, -, -, -, -, -, hcompleted, -⟩ := compileProgram_patched [.finalize] BranchCall.program
  obtain ⟨_, _, -, -, -, -, -, -, hnever⟩ :=
    compileProgram_patched [.emitBlock BranchCall.broken] BranchCall.program
  exact ⟨⟨c, later, hok, (hcompleted _ c hok).2⟩, hbroken, hnever [] _ [] rfl hbroken⟩

end Compiler

end PLZero
