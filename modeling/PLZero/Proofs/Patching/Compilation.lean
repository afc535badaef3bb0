import PLZero.Compiler
import PLZero.Proofs.Action
import PLZero.Proofs.Patching

/-!
# Open placeholders of the compiler

The compiler's work on its assembly is a proper history, also where it fails midway. A placeholder that is
open waits for the entry of a procedure, or it is held by a statement that is being written; a statement
that is given up never lets go of it. Code is handed out only when no placeholder is open.
-/

namespace PLZero.Compiler

open Assembly (Op Proper Sealed perform_grows replay replay_grows resolutions unresolved)
open PLZero.Action (Yields leaves)

variable {α β : Type} {past history later : List Op} {held rest : List Patch} {c c' : Compiler}

/-! ## The books -/

/-- The history that has led to the compiler's assembly. The open placeholders are those of pending calls
and those that are held. -/
structure Tracked (history : List Op) (held : List Patch) (c : Compiler) : Prop where
  replay_eq : replay history = c.assembly
  proper : Proper history
  open_perm : (unresolved history).Perm (held ++ c.pending.toList.map PendingCall.patch)
  pending : ∀ call ∈ c.pending.toList, c.assembly.code.opcodeAt call.patch.position = some .call

/-- Besides, every entry that is recorded is the start of a block. -/
structure Settled (history : List Op) (held : List Patch) (c : Compiler) : Prop
    extends Tracked history held c where
  entries : ∀ e ∈ c.entries, 0 < e.2 ∧ c.assembly.code.opcodeAt e.2 = some .enter

/-- Besides, some code has been written. -/
structure Underway (history : List Op) (held : List Patch) (c : Compiler) : Prop
    extends Settled history held c where
  begun : 0 < c.assembly.next

theorem settled_empty : Settled [] [] .empty where
  replay_eq := rfl
  proper := .nil
  open_perm := .nil
  pending := by simp [empty]
  entries := by simp [empty]

theorem Tracked.opcodeAt (h : Tracked past held c) {held' : List Patch} (h' : Tracked later held' c')
    (hlater : past <:+ later) {k : Nat} {o : Opcode} (hk : c.assembly.code.opcodeAt k = some o) :
    c'.assembly.code.opcodeAt k = some o := by
  rw [← h.replay_eq] at hk
  rw [← h'.replay_eq]
  exact replay_grows hlater _ _ hk

theorem Tracked.next_le (h : Tracked past held c) {held' : List Patch} (h' : Tracked later held' c')
    (hlater : past <:+ later) : c.assembly.next ≤ c'.assembly.next := by
  rw [← h.replay_eq, ← h'.replay_eq]
  exact (replay_grows hlater).size_le

theorem Tracked.mem_unresolved (h : Tracked history held c) {p : Patch} (hp : held.Perm (p :: rest)) :
    p ∈ unresolved history :=
  h.open_perm.mem_iff.mpr (List.mem_append_left _ (hp.mem_iff.mpr (List.mem_cons_self ..)))

theorem Tracked.erase_perm (h : Tracked history held c) {p : Patch} (hp : held.Perm (p :: rest)) :
    ((unresolved history).erase p).Perm (rest ++ c.pending.toList.map PendingCall.patch) := by
  have hperm := (h.open_perm.trans (hp.append_right _)).erase p
  rwa [List.cons_append, List.erase_cons_head] at hperm

theorem Settled.log (h : Settled history held c) (log : Array Log.Entry) :
    Settled history held { c with log := log } :=
  ⟨⟨h.replay_eq, h.proper, h.open_perm, h.pending⟩, h.entries⟩

theorem Underway.log (h : Underway history held c) (log : Array Log.Entry) :
    Underway history held { c with log := log } :=
  ⟨h.toSettled.log log, h.begun⟩

theorem Tracked.level (h : Tracked history held c) (level : Nat) :
    Tracked history held { c with level := level } :=
  ⟨h.replay_eq, h.proper, h.open_perm, h.pending⟩

theorem Underway.level (h : Underway history held c) (level : Nat) :
    Underway history held { c with level := level } :=
  ⟨⟨h.toTracked.level level, h.entries⟩, h.begun⟩

theorem Tracked.perform (h : Tracked history held c) {op : Op} (hop : Proper (op :: history))
    (hopen : (unresolved (op :: history)).Perm (rest ++ c.pending.toList.map PendingCall.patch)) :
    Tracked (op :: history) rest { c with assembly := c.assembly.perform op } where
  replay_eq := by rw [replay, h.replay_eq]
  proper := hop
  open_perm := hopen
  pending := fun call hcall => perform_grows _ _ _ _ (h.pending call hcall)

theorem Settled.perform (h : Settled history held c) {op : Op} (hop : Proper (op :: history))
    (hopen : (unresolved (op :: history)).Perm (rest ++ c.pending.toList.map PendingCall.patch)) :
    Settled (op :: history) rest { c with assembly := c.assembly.perform op } where
  toTracked := h.toTracked.perform hop hopen
  entries := fun e he => ⟨(h.entries e he).1, perform_grows _ _ _ _ (h.entries e he).2⟩

theorem Settled.write (h : Settled history held c) {i : Instr}
    (hi : i.opcode.isBranch → i.JumpsBack c.assembly.next) :
    Underway (.write i :: history) held { c with assembly := c.assembly.emit i } where
  toSettled := h.perform (.write h.proper (by rwa [h.replay_eq])) h.open_perm
  begun := by simp [Assembly.next, Assembly.emit]

theorem Settled.writeRet (h : Settled history held c) :
    Underway (.write (.operate .ret) :: history) held { c with assembly := c.assembly.operate .ret } :=
  h.write fun hbranch => by cases hbranch

theorem Settled.reserve (h : Settled history held c) {opcode : Opcode} (hopcode : opcode.isBranch)
    (level : Int64) :
    Underway (.reserve opcode level :: history) (⟨c.assembly.next⟩ :: held)
      { c with assembly := (c.assembly.emitOpen opcode level).2 } where
  toSettled := h.perform (.reserve h.proper hopcode) (by
    rw [unresolved, h.replay_eq]
    exact h.open_perm.cons _)
  begun := by simp [Assembly.next, Assembly.emitOpen, Assembly.emit]

theorem Underway.patchHere (h : Underway history held c) {p : Patch} (hp : held.Perm (p :: rest))
    (hopcode : c.assembly.code.opcodeAt p.position ≠ some .call) :
    Underway (.patch p c.assembly.next :: history) rest
      { c with assembly := c.assembly.patchHere p } where
  toSettled := by
    refine h.toSettled.perform ?_ (h.erase_perm hp)
    rw [← h.replay_eq] at hopcode ⊢
    exact .patch h.proper (h.mem_unresolved hp) hopcode
  begun := by
    have hbegun := h.begun
    simpa only [Assembly.next, Assembly.patchHere, Assembly.patchAddress, Array.size_modify] using hbegun

theorem Settled.link (h : Settled history held c) {p : Patch} (hp : held.Perm (p :: rest))
    (hopcode : c.assembly.code.opcodeAt p.position = some .call) {distance entry : Nat}
    (hdistance : ¬ Int64.ofNat distance < 0) (hpos : 0 < entry)
    (hentry : c.assembly.code.opcodeAt entry = some .enter) :
    Settled (.link p distance entry :: history) rest
      { c with assembly := c.assembly.patchCall p distance entry } := by
  refine h.perform ?_ (h.erase_perm hp)
  rw [← h.replay_eq] at hopcode hentry
  exact .link h.proper (h.mem_unresolved hp) hopcode hdistance hpos hentry

/-- A call that waits for an entry is no longer held. -/
theorem Underway.pend {call : PendingCall} (h : Underway history (call.patch :: held) c)
    (hcall : c.assembly.code.opcodeAt call.patch.position = some .call) :
    Underway history held { c with pending := c.pending.push call } := by
  refine ⟨⟨⟨h.replay_eq, h.proper, h.open_perm.trans ?_, ?_⟩, h.entries⟩, h.begun⟩
  · have hperm := List.perm_append_singleton call.patch (held ++ c.pending.toList.map PendingCall.patch)
    simpa using hperm.symm
  · simp only [Array.toList_push, List.mem_append, List.mem_singleton]
    rintro call' (hmem | rfl)
    · exact h.pending call' hmem
    · exact hcall

/-! ## Work that may fail -/

/-- Work from the end of `history` that comes to a longer history with `Q`, or fails and leaves the
placeholders of `base` held. -/
def Extends (base : List Patch) (x : Compile α) (history : List Op) (c : Compiler)
    (Q : α → List Op → Compiler → Prop) : Prop :=
  Yields x c (fun a c' => ∃ later, history <:+ later ∧ Q a later c')
    fun _ c' => ∃ later lost, history <:+ later ∧ Underway later (lost ++ base) c'

namespace Extends

variable {base : List Patch} {x : Compile α} {f : α → Compile β}
  {Q Q' : α → List Op → Compiler → Prop} {R : β → List Op → Compiler → Prop}

theorem of_ok {a : α} (hx : x c = .ok a c') (hlater : history <:+ later) (hQ : Q a later c') :
    Extends base x history c Q :=
  Yields.of_ok hx ⟨later, hlater, hQ⟩

theorem fail {e : CompileError} (hx : x c = .error e c) (h : Underway history base c) :
    Extends base x history c Q :=
  Yields.of_error hx ⟨history, [], List.suffix_rfl, h⟩

theorem imp (h : Extends base x history c Q)
    (hQ : ∀ a later c', history <:+ later → Q a later c' → Q' a later c') :
    Extends base x history c Q' := by
  refine Yields.imp h ?_ fun _ _ h => h
  rintro a c' ⟨later, hlater, h⟩
  exact ⟨later, hlater, hQ a later c' hlater h⟩

theorem bind (h : Extends base x history c fun a later c' => Extends base (f a) later c' R) :
    Extends base (x >>= f) history c R := by
  refine Yields.bind (Yields.imp h ?_ fun _ _ h => h)
  rintro a c' ⟨later, hlater, hf⟩
  refine Yields.imp hf ?_ ?_
  · rintro b c'' ⟨later', hlater', hR⟩
    exact ⟨later', hlater.trans hlater', hR⟩
  · rintro e c'' ⟨later', lost, hlater', h⟩
    exact ⟨later', lost, hlater.trans hlater', h⟩

/-- A placeholder that is held all the while is lost in a failure. -/
theorem lose {p : Patch} (h : Extends (p :: base) x history c Q) : Extends base x history c Q := by
  refine Yields.imp h (fun _ _ h => h) ?_
  rintro e c' ⟨later, lost, hlater, h⟩
  refine ⟨later, lost ++ [p], hlater, ?_⟩
  rwa [List.append_assoc]

end Extends

/-- Work that lets go of every placeholder that it writes. -/
def Keeps (x : Compile α) : Prop :=
  ∀ ⦃history held c⦄, Underway history held c →
    Extends held x history c fun _ later c' => Underway later held c'

theorem Keeps.bind {x : Compile α} {f : α → Compile β} (hx : Keeps x) (hf : ∀ a, Keeps (f a)) :
    Keeps (x >>= f) :=
  fun _ _ _ h => .bind ((hx h).imp fun a _ _ _ h' => hf a h')

theorem keeps_pure (a : α) : Keeps (pure a : Compile α) :=
  fun _ _ _ h => .of_ok rfl List.suffix_rfl h

theorem keeps_currentLevel : Keeps currentLevel :=
  fun _ _ _ h => .of_ok rfl List.suffix_rfl h

theorem keeps_throw (e : CompileError) : Keeps (throw e : Compile α) :=
  fun _ _ _ h => .fail rfl h

theorem keeps_assemble {f : Assembly → Assembly} {i : Instr} (hf : ∀ a, f a = a.emit i)
    (hi : i.opcode.isBranch = false) : Keeps (assemble f) := by
  obtain rfl : f = (·.emit i) := funext hf
  exact fun _ _ _ h => .of_ok rfl (List.suffix_cons ..) (h.write fun hbranch => by simp [hi] at hbranch)

/-! ## Expressions and statements -/

theorem distance_keeps (declared : Nat) (x : Symbol) : Keeps (distance declared x) := by
  refine keeps_currentLevel.bind fun level => ?_
  split
  · exact keeps_pure _
  · exact keeps_throw _

theorem load_keeps (x : Symbol) (position : Position) : Keeps (load x position) := by
  unfold load
  cases x.binding with
  | var declared slot =>
      refine Keeps.bind (distance_keeps declared x) fun links => ?_
      exact keeps_assemble (fun _ => rfl) rfl
  | const value => exact keeps_assemble (fun _ => rfl) rfl
  | proc declared id => exact keeps_throw _

theorem store_keeps (x : Symbol) (position : Position) : Keeps (store x position) := by
  unfold store
  cases x.binding with
  | var declared slot =>
      refine Keeps.bind (distance_keeps declared x) fun links => ?_
      exact keeps_assemble (fun _ => rfl) rfl
  | const value => exact keeps_throw _
  | proc declared id => exact keeps_throw _

theorem emitExpr_keeps (e : Expr) : Keeps (emitExpr e) := by
  induction e with
  | binary op lhs rhs position ihl ihr =>
      unfold emitExpr
      cases BinaryOp.ofToken? op with
      | none => exact keeps_throw _
      | some operator =>
          exact ihl.bind fun _ => ihr.bind fun _ => keeps_assemble (fun _ => rfl) rfl
  | unary op operand position ih =>
      unfold emitExpr
      cases Operator.ofPrefixToken? op with
      | none => exact keeps_throw _
      | some operator => exact ih.bind fun _ => keeps_assemble (fun _ => rfl) rfl
  | literal value => exact keeps_assemble (fun _ => rfl) rfl
  | name x position => exact load_keeps x position

theorem emitReads_keeps (targets : List (Located Symbol)) :
    Keeps (emitReads targets) := by
  induction targets with
  | nil => exact keeps_pure ()
  | cons target rest ih =>
      unfold emitReads
      refine Keeps.bind (keeps_assemble (fun _ => rfl) rfl) fun _ => ?_
      exact (store_keeps target.value target.position).bind fun _ => ih

theorem emitWrites_keeps (values : List Expr) : Keeps (emitWrites values) := by
  induction values with
  | nil => exact keeps_pure ()
  | cons value rest ih =>
      unfold emitWrites
      refine (emitExpr_keeps value).bind fun _ => ?_
      exact Keeps.bind (keeps_assemble (fun _ => rfl) rfl) fun _ => ih

/-- A call is written and waits, or nothing happens. -/
theorem emitCall_yields (h : Settled history held c) (callee : Symbol) (level : Nat) (position : Position) :
    Yields (emitCall callee level position) c
      (fun _ c' => ∃ later, history <:+ later ∧ Underway later held c') fun _ c' => c' = c := by
  unfold emitCall
  cases callee.binding with
  | proc declared id =>
      have hopen := @Settled.reserve _ _ _ h .call rfl (.ofNat level)
      refine Yields.of_ok rfl ⟨.reserve .call (.ofNat level) :: history, List.suffix_cons .., ?_⟩
      refine Underway.pend (hopen.log _) ?_
      simp [Code.opcodeAt, Assembly.call, Assembly.emitOpen, Assembly.emit, Assembly.next]
  | var declared slot => exact Yields.of_error rfl rfl
  | const value => exact Yields.of_error rfl rfl

theorem emitCall_keeps (callee : Symbol) (level : Nat) (position : Position) :
    Keeps (emitCall callee level position) := by
  intro history held c h
  refine Yields.imp (emitCall_yields h.toSettled callee level position) (fun _ _ h => h) ?_
  rintro e c' rfl
  exact ⟨history, [], List.suffix_rfl, h⟩

/-- A branch that is written open is held. -/
theorem open_extends {base : List Patch} (h : Underway history held c) {opcode : Opcode}
    (hopcode : opcode.isBranch) (level : Int64) :
    Extends base (assembleOpen (·.emitOpen opcode level)) history c fun p later c' =>
      Underway later (p :: held) c' ∧ c'.assembly.code.opcodeAt p.position = some opcode := by
  refine .of_ok rfl (List.suffix_cons ..) ⟨h.reserve hopcode level, ?_⟩
  simp [Code.opcodeAt, Assembly.emitOpen, Assembly.emit, Assembly.next]

theorem patchHere_extends {base : List Patch} (h : Underway history held c) {p : Patch}
    (hp : held.Perm (p :: rest)) {opcode : Opcode}
    (hopcode : c.assembly.code.opcodeAt p.position = some opcode) (hcall : opcode ≠ .call) :
    Extends base (assemble (·.patchHere p)) history c fun _ later c' => Underway later rest c' := by
  refine .of_ok rfl (List.suffix_cons ..) (h.patchHere hp ?_)
  rw [hopcode]
  exact fun heq => hcall (Option.some.inj heq)

/-- The jump that closes a loop leads back to its start. -/
theorem jumpTo_extends {base : List Patch} (h : Underway history held c) {start : Nat} (hpos : 0 < start)
    (hle : start ≤ c.assembly.next) :
    Extends base (assemble (·.jumpTo start)) history c fun _ later c' => Underway later held c' :=
  .of_ok rfl (List.suffix_cons ..) (h.write fun _ => ⟨rfl, start, hpos, hle, rfl⟩)

mutual

theorem emitStmt_keeps (s : Stmt) : Keeps (emitStmt s) := by
  cases s with
  | assign target value position =>
      unfold emitStmt
      exact (emitExpr_keeps value).bind fun _ => store_keeps target position
  | read targets => exact emitReads_keeps targets
  | write values => exact emitWrites_keeps values
  | call callee position => exact keeps_currentLevel.bind fun level => emitCall_keeps callee level position
  | ifThen condition body =>
      intro history held c h
      unfold emitStmt
      refine .bind ((emitExpr_keeps condition h).imp fun _ _ c₁ _ h₁ => ?_)
      refine .bind ((open_extends h₁ rfl 0).imp fun skip _ c₂ _ h₂ => ?_)
      refine .bind ((emitStmt_keeps body h₂.1).lose.imp fun _ _ c₃ hlater h₃ => ?_)
      have hskip := h₂.1.opcodeAt h₃.toTracked hlater h₂.2
      exact patchHere_extends h₃ (.refl _) hskip (by decide)
  | ifElse condition body alternative =>
      intro history held c h
      unfold emitStmt
      refine .bind ((emitExpr_keeps condition h).imp fun _ _ c₁ _ h₁ => ?_)
      refine .bind ((open_extends h₁ rfl 0).imp fun skip _ c₂ _ h₂ => ?_)
      refine .bind ((emitStmt_keeps body h₂.1).lose.imp fun _ _ c₃ hlater h₃ => ?_)
      have hskip := h₂.1.opcodeAt h₃.toTracked hlater h₂.2
      refine .bind ((open_extends h₃ rfl 0).imp fun leave _ c₄ hlater' h₄ => ?_)
      have hskip := h₃.opcodeAt h₄.1.toTracked hlater' hskip
      -- The branch that is passed over lets go of the first jump while it holds the second.
      refine .bind ((patchHere_extends h₄.1 (.swap ..) hskip (by decide)).imp fun _ _ c₅ hlater h₅ => ?_)
      have hleave := h₄.1.opcodeAt h₅.toTracked hlater h₄.2
      refine .bind ((emitStmt_keeps alternative h₅).lose.imp fun _ _ c₆ hlater' h₆ => ?_)
      have hleave := h₅.opcodeAt h₆.toTracked hlater' hleave
      exact patchHere_extends h₆ (.refl _) hleave (by decide)
  | whileDo condition body =>
      intro history held c h
      unfold emitStmt
      refine .bind (.of_ok rfl List.suffix_rfl ?_)
      refine .bind ((emitExpr_keeps condition h).imp fun _ _ c₁ hlater₁ h₁ => ?_)
      refine .bind ((open_extends h₁ rfl 0).imp fun leave _ c₂ hlater₂ h₂ => ?_)
      refine .bind ((emitStmt_keeps body h₂.1).lose.imp fun _ _ c₃ hlater₃ h₃ => ?_)
      have hleave := h₂.1.opcodeAt h₃.toTracked hlater₃ h₂.2
      have hstart := h.next_le h₃.toTracked ((hlater₁.trans hlater₂).trans hlater₃)
      refine .bind ((jumpTo_extends h₃ h.begun hstart).imp fun _ _ c₄ hlater₄ h₄ => ?_)
      have hleave := h₃.opcodeAt h₄.toTracked hlater₄ hleave
      exact patchHere_extends h₄ (.refl _) hleave (by decide)
  | sequence body => exact emitStmts_keeps body
  | ret => exact keeps_assemble (fun _ => rfl) rfl

theorem emitStmts_keeps (ss : List Stmt) : Keeps (emitStmts ss) := by
  cases ss with
  | nil => exact keeps_pure ()
  | cons s rest =>
      unfold emitStmts
      exact (emitStmt_keeps s).bind fun _ => emitStmts_keeps rest

end

/-! ## Blocks -/

/-- What is done before the body of a block. -/
def startBlock (level variableCount : Nat) : Compile Unit := do
  let start ← here
  report .debug s!"emitting block at level {level} with {variableCount} variables at {start}"
  assemble (·.enter variableCount)

theorem emitBlock_eq (b : Block) : emitBlock b = atLevel b.level (do
    startBlock b.level b.variableCount
    emitStmt b.body
    assemble (·.operate .ret)
    emitProcedures b.procedures) := by
  cases b
  unfold emitBlock
  rfl

/-- Every entry that is recorded is the start of a block or is to become one. -/
def Expects (c : Compiler) : Prop :=
  ∀ e ∈ c.entries, 0 < e.2 ∧ (c.assembly.code.opcodeAt e.2 = some .enter ∨ e.2 = c.assembly.next)

theorem Settled.expects (h : Settled history held c) : Expects c :=
  fun e he => ⟨(h.entries e he).1, .inl (h.entries e he).2⟩

theorem Tracked.enter (h : Tracked history held c) (hc : Expects c) (count : Nat) :
    Underway (.write ⟨.enter, 0, .ofNat (count + reservedSlots)⟩ :: history) held
      { c with assembly := c.assembly.enter count } := by
  refine ⟨⟨h.perform (.write h.proper fun hbranch => by cases hbranch) h.open_perm, ?_⟩, ?_⟩
  · intro e he
    obtain ⟨hpos, hold | hnext⟩ := hc e he
    · exact ⟨hpos, Code.grows_push _ _ _ _ hold⟩
    · refine ⟨hpos, ?_⟩
      simp [hnext, Code.opcodeAt, Assembly.enter, Assembly.emit, Assembly.next]
  · simp [Assembly.next, Assembly.enter, Assembly.emit]

theorem startBlock_extends {base : List Patch} (h : Tracked history held c) (hc : Expects c)
    (level count : Nat) :
    Extends base (startBlock level count) history c fun _ later c' => Underway later held c' :=
  .of_ok rfl (List.suffix_cons ..) ((h.enter hc count).log _)

/-- The level of a block is set before its code is written, and that of the block around it again after. -/
theorem atLevel_extends {base : List Patch} {work : Compile Unit} {level : Nat}
    (h : Extends base work history { c with level := level } fun _ later c' =>
      Underway later held c' ∧ Sealed later) :
    Extends base (atLevel level work) history c fun _ later c' => Underway later held c' ∧ Sealed later := by
  refine .bind (.of_ok rfl List.suffix_rfl (.bind (.of_ok rfl List.suffix_rfl (.bind (h.imp ?_)))))
  rintro _ later c' - ⟨h', hsealed⟩
  exact .of_ok rfl List.suffix_rfl ⟨h'.level _, hsealed⟩

theorem recordEntry_extends (h : Underway history held c) (x : Symbol) :
    Extends held (recordEntry x) history c fun _ later c' => Tracked later held c' ∧ Expects c' := by
  unfold recordEntry
  cases x.binding with
  | proc declared id =>
      refine .of_ok rfl List.suffix_rfl
        ⟨⟨h.replay_eq, h.proper, h.open_perm, h.pending⟩, List.forall_mem_cons.mpr ⟨?_, h.expects⟩⟩
      exact ⟨h.begun, .inr rfl⟩
  | var declared slot => exact .fail rfl h
  | const value => exact .fail rfl h

mutual

/-- What a block writes last is a return. -/
theorem emitBlock_extends (b : Block) {history : List Op} {held : List Patch} {c : Compiler}
    (h : Tracked history held c) (hc : Expects c) :
    Extends held (emitBlock b) history c fun _ later c' => Underway later held c' ∧ Sealed later := by
  obtain ⟨level, count, consts, vars, procedures, body⟩ := b
  rw [emitBlock_eq]
  refine atLevel_extends ?_
  refine .bind ((startBlock_extends (h.level level) hc level count).imp fun _ _ c₁ _ h₁ => ?_)
  refine .bind ((emitStmt_keeps body h₁).imp fun _ _ c₂ _ h₂ => ?_)
  refine .bind (.of_ok rfl (List.suffix_cons (.write (.operate .ret)) _) ?_)
  exact emitProcedures_extends procedures h₂.writeRet (by simp [Sealed, Instr.operate, Opcode.isBranch])

theorem emitProcedures_extends (procedures : List (Procedure Block)) {history : List Op}
    {held : List Patch} {c : Compiler} (h : Underway history held c) (hsealed : Sealed history) :
    Extends held (emitProcedures procedures) history c fun _ later c' =>
      Underway later held c' ∧ Sealed later := by
  cases procedures with
  | nil => exact .of_ok rfl List.suffix_rfl ⟨h, hsealed⟩
  | cons procedure rest =>
      unfold emitProcedures
      refine .bind ((recordEntry_extends h procedure.symbol).imp fun _ _ c₁ _ h₁ => ?_)
      refine .bind ((emitBlock_extends procedure.block h₁.1 h₁.2).imp fun _ _ c₂ _ h₂ => ?_)
      exact emitProcedures_extends rest h₂.1 h₂.2

end

/-! ## Calls -/

theorem resolveCall_yields {call : PendingCall} (h : Settled history (call.patch :: held) c)
    (hcall : c.assembly.code.opcodeAt call.patch.position = some .call) :
    Yields (resolveCall call) c
      (fun _ c' => ∃ later, history <:+ later ∧ Settled later held c' ∧ (Sealed history → Sealed later))
      fun _ c' => c' = c := by
  unfold resolveCall
  refine Yields.bind (Yields.of_ok rfl ?_)
  cases hentry : c.entryOf call.callee with
  | none => exact Yields.of_error rfl rfl
  | some entry =>
      refine Yields.bind (Yields.of_ok rfl ?_)
      dsimp only
      split
      · exact Yields.of_error rfl rfl
      · rename_i hdistance
        obtain ⟨front, back, hentries, -⟩ := List.lookup_eq_some_iff.mp hentry
        have hmem : (call.callee, entry) ∈ c.entries := by simp [hentries]
        obtain ⟨hpos, henter⟩ := h.entries _ hmem
        have hlinked := h.link (.refl _) hcall (by rwa [Operand.ofNat_toNat hdistance]) hpos henter
        exact Yields.of_ok rfl ⟨_ :: history, List.suffix_cons .., hlinked.log _, id⟩

/-- A call that cannot be linked stays open for good, and so do those after it. -/
theorem resolveCalls_yields {calls : List PendingCall}
    (h : Settled history (calls.map PendingCall.patch ++ held) c)
    (hcalls : ∀ call ∈ calls, c.assembly.code.opcodeAt call.patch.position = some .call) :
    Yields (resolveCalls calls) c
      (fun _ c' => ∃ later, history <:+ later ∧ Settled later held c' ∧ (Sealed history → Sealed later))
      fun _ c' => ∃ later lost, history <:+ later ∧ lost ≠ [] ∧ Settled later (lost ++ held) c' := by
  induction calls generalizing history c with
  | nil => exact Yields.of_ok rfl ⟨history, List.suffix_rfl, h, id⟩
  | cons call calls ih =>
      unfold resolveCalls
      refine Yields.bind (Yields.imp (resolveCall_yields h (hcalls call (List.mem_cons_self ..))) ?_ ?_)
      · rintro _ c₁ ⟨later, hlater, h₁, hsealed⟩
        have hcalls₁ := fun call' hmem =>
          h.opcodeAt h₁.toTracked hlater (hcalls call' (List.mem_cons_of_mem _ hmem))
        refine Yields.imp (ih h₁ hcalls₁) ?_ ?_
        · rintro _ c₂ ⟨later₂, hlater₂, h₂, hsealed₂⟩
          exact ⟨later₂, hlater.trans hlater₂, h₂, hsealed₂ ∘ hsealed⟩
        · rintro _ c₂ ⟨later₂, lost, hlater₂, hlost, h₂⟩
          exact ⟨later₂, lost, hlater.trans hlater₂, hlost, h₂⟩
      · rintro _ c₁ rfl
        exact ⟨history, (call :: calls).map PendingCall.patch, List.suffix_rfl, by simp, h⟩

theorem finalize_yields (h : Settled history held c) :
    Yields finalize c
      (fun _ c' => ∃ later, history <:+ later ∧ Settled later held c' ∧ (Sealed history → Sealed later))
      fun _ c' => ∃ later lost, history <:+ later ∧ lost ≠ [] ∧ Settled later (lost ++ held) c' := by
  unfold finalize
  refine Yields.bind (Yields.of_ok rfl (Yields.bind (Yields.of_ok rfl ?_)))
  refine resolveCalls_yields ⟨⟨h.replay_eq, h.proper, ?_, by simp⟩, h.entries⟩ h.pending
  simpa using h.open_perm.trans List.perm_append_comm

theorem compileProgram_yields (program : Block) (h : Settled history held c) :
    Yields (compileProgram program) c
      (fun code c' => ∃ later, history <:+ later ∧ Settled later held c' ∧ unresolved later = [] ∧
        Sealed later ∧ code = c'.assembly.code)
      fun _ c' => ∃ later lost, history <:+ later ∧ Settled later (lost ++ held) c' := by
  unfold compileProgram
  refine Yields.bind (Yields.imp (emitBlock_extends program h.toTracked h.expects) ?_ ?_)
  · rintro _ c₁ ⟨later₁, hlater₁, h₁, hsealed₁⟩
    refine Yields.bind (Yields.imp (finalize_yields h₁.toSettled) ?_ ?_)
    · rintro _ c₂ ⟨later₂, hlater₂, h₂, hsealed₂⟩
      refine Yields.bind (Yields.of_ok rfl ?_)
      dsimp only
      split
      · rename_i hnone
        refine Yields.of_ok rfl
          ⟨later₂, hlater₁.trans hlater₂, h₂.log _, ?_, hsealed₂ hsealed₁, rfl⟩
        rw [← h₂.replay_eq, h₂.proper.outstanding_eq] at hnone
        exact List.eq_nil_of_length_eq_zero hnone
      · exact Yields.of_error rfl ⟨later₂, [], hlater₁.trans hlater₂, h₂⟩
    · rintro _ c₂ ⟨later₂, lost, hlater₂, -, h₂⟩
      exact ⟨later₂, lost, hlater₁.trans hlater₂, h₂⟩
  · rintro _ c₁ ⟨later₁, lost, hlater₁, h₁⟩
    exact ⟨later₁, lost, hlater₁, h₁.toSettled⟩

end PLZero.Compiler
