import PLZero.Proofs.Patching.Steps

/-!
# Code that may stand anywhere

A block is written after other code as it is written from the start, only further on: its jumps lead as
many places further as there is code before it, and so do the entries and the calls that it records. What
has been done before has no say in it, be it finished or given up: the level that a block leaves behind when
it is given up is not read any more. The block fails where it would fail from the start.

The two runs are followed side by side. The one from the start has a history, which tells the jumps that
have their target from those that still wait for it.
-/

namespace PLZero

open Assembly (Op Proper perform_grows replay unresolved)
open PLZero.Action (answer leaves)

/-- The opcodes whose address is an index in the code of the same statement. -/
def Opcode.isJump : Opcode → Bool
  | .jump | .jumpIfFalse => true
  | _ => false

/-- An instruction that has its operands, moved by `b` places: a jump leads as much further. -/
def Instr.relocate (b : Nat) (i : Instr) : Instr :=
  if i.opcode.isJump then { i with address := i.address + .ofNat b } else i

def PendingCall.relocate (b : Nat) (call : PendingCall) : PendingCall :=
  { call with patch := ⟨call.patch.position + b⟩ }

theorem Instr.relocate_of_not_isBranch {i : Instr} (h : i.opcode.isBranch = false) (b : Nat) :
    i.relocate b = i := by
  unfold relocate
  split
  · next hjump => cases ho : i.opcode <;> simp [ho, Opcode.isBranch, Opcode.isJump] at h hjump
  · rfl

/-! ## Code with placeholders -/

namespace Code

/-- Code moved by `b` places. The placeholders that wait for their operands stay as they are. -/
def relocate (b : Nat) (waiting : List Patch) (code : Code) : Code :=
  code.mapIdx fun k i => if ⟨k⟩ ∈ waiting then i else i.relocate b

variable {code : Code} {waiting : List Patch} {b : Nat}

@[simp] theorem size_relocate : (code.relocate b waiting).size = code.size := Array.size_mapIdx

theorem getElem?_relocate (k : Nat) :
    (code.relocate b waiting)[k]? = code[k]?.map fun i => if ⟨k⟩ ∈ waiting then i else i.relocate b :=
  Array.getElem?_mapIdx ..

theorem relocate_push (h : ⟨code.size⟩ ∉ waiting) (i : Instr) :
    relocate b waiting (code.push i) = (code.relocate b waiting).push (i.relocate b) := by
  simp [relocate, Array.mapIdx_push, h]

theorem relocate_push_open (i : Instr) :
    relocate b (⟨code.size⟩ :: waiting) (code.push i) = (code.relocate b waiting).push i := by
  refine Array.ext_getElem? fun k => ?_
  simp only [getElem?_relocate, Array.getElem?_push, size_relocate, List.mem_cons, Patch.mk.injEq]
  by_cases hk : k = code.size <;> simp [hk]

/-- A jump that gets its target, moved, is the moved placeholder that gets a target as much further. -/
theorem relocate_patch (hnodup : waiting.Nodup) {p : Patch} (hp : p ∈ waiting) {o : Opcode}
    (hopcode : code.opcodeAt p.position = some o) (hjump : o.isJump) (target : Nat) :
    relocate b (waiting.erase p) (code.modify p.position fun i => { i with address := .ofNat target }) =
      (code.relocate b waiting).modify p.position fun i => { i with address := .ofNat (target + b) } := by
  refine Array.ext_getElem? fun k => ?_
  simp only [getElem?_relocate, Array.getElem?_modify, hnodup.mem_erase_iff]
  by_cases hk : p.position = k
  · subst hk
    obtain ⟨i, hi, rfl⟩ := Option.map_eq_some_iff.mp hopcode
    simp [hi, hp, Instr.relocate, hjump, Int64.ofNat_add]
  · have hne : (⟨k⟩ : Patch) ≠ p := fun h => hk (by rw [← h])
    simp [hk, hne]

theorem append_modify (front back : Code) (k : Nat) (f : Instr → Instr) :
    front ++ back.modify k f = (front ++ back).modify (k + front.size) f := by
  refine Array.ext_getElem? fun j => ?_
  simp only [Array.getElem?_append, Array.getElem?_modify]
  by_cases hj : j < front.size
  · have hne : k + front.size ≠ j := by omega
    simp [hj, hne]
  · have hiff : k = j - front.size ↔ k + front.size = j := by omega
    simp [hj, hiff]

end Code

namespace Compiler

variable {α β : Type} {base fresh c : Compiler} {history : List Op} {held rest : List Patch}

/-! ## Two runs -/

/-- The second compiler has done after `base` what `history` has made of the first. -/
structure Follows (base : Compiler) (history : List Op) (fresh c : Compiler) : Prop where
  code_eq : c.assembly.code =
    base.assembly.code ++ fresh.assembly.code.relocate base.assembly.next (unresolved history)
  outstanding_eq : c.assembly.outstanding = base.assembly.outstanding + fresh.assembly.outstanding
  entries_eq : c.entries = fresh.entries.map (fun e => (e.1, e.2 + base.assembly.next)) ++ base.entries
  pending_eq : c.pending = base.pending ++ fresh.pending.map (PendingCall.relocate base.assembly.next)

theorem Follows.next_eq (h : Follows base history fresh c) :
    c.assembly.next = fresh.assembly.next + base.assembly.next := by
  simp [Assembly.next, h.code_eq, Nat.add_comm]

theorem follows_empty (base : Compiler) : Follows base [] .empty base :=
  ⟨by simp [empty, Assembly.empty, Code.relocate], rfl, rfl, by simp [empty]⟩

theorem Follows.log (h : Follows base history fresh c) (l l' : Array Log.Entry) :
    Follows base history { fresh with log := l } { c with log := l' } :=
  ⟨h.code_eq, h.outstanding_eq, h.entries_eq, h.pending_eq⟩

theorem Follows.write (h : Follows base history fresh c) (hfresh : Tracked history held fresh) (i : Instr) :
    Follows base (.write i :: history) { fresh with assembly := fresh.assembly.emit i }
      { c with assembly := c.assembly.emit (i.relocate base.assembly.next) } := by
  have hnew : ⟨fresh.assembly.code.size⟩ ∉ unresolved history := by
    intro hmem
    have hlt := hfresh.proper.position_lt (List.mem_append_left _ hmem)
    rw [hfresh.replay_eq] at hlt
    exact Nat.lt_irrefl _ hlt
  refine ⟨?_, h.outstanding_eq, h.entries_eq, h.pending_eq⟩
  simp only [Assembly.emit, unresolved, Code.relocate_push hnew, h.code_eq, Array.append_push]

/-- An open placeholder is the same in both runs. -/
theorem Follows.reserve (h : Follows base history fresh c) (hfresh : Tracked history held fresh)
    (opcode : Opcode) (level : Int64) :
    Follows base (.reserve opcode level :: history)
      { fresh with assembly := (fresh.assembly.emitOpen opcode level).2 }
      { c with assembly := (c.assembly.emitOpen opcode level).2 } := by
  refine ⟨?_, ?_, h.entries_eq, h.pending_eq⟩
  · simp only [Assembly.emitOpen, Assembly.emit, unresolved, hfresh.replay_eq, Assembly.next,
      Code.relocate_push_open, h.code_eq, Array.append_push]
  · simp only [Assembly.emitOpen, h.outstanding_eq, Nat.add_assoc]

theorem Follows.patchHere (h : Follows base history fresh c) (hfresh : Tracked history held fresh) {p : Patch}
    (hp : held.Perm (p :: rest)) {o : Opcode} (ho : fresh.assembly.code.opcodeAt p.position = some o)
    (hjump : o.isJump) :
    Follows base (.patch p fresh.assembly.next :: history)
      { fresh with assembly := fresh.assembly.patchHere p }
      { c with assembly := c.assembly.patchHere ⟨p.position + base.assembly.next⟩ } := by
  have hmem := hfresh.mem_unresolved hp
  refine ⟨?_, ?_, h.entries_eq, h.pending_eq⟩
  · have hnodup := (List.nodup_append.mp hfresh.proper.nodup).1
    simp only [Assembly.patchHere, Assembly.patchAddress, unresolved, h.next_eq,
      Code.relocate_patch hnodup hmem ho hjump, Code.append_modify]
    rw [h.code_eq]
    rfl
  · -- The first run has an open placeholder, so what is taken off the sum is taken off its count.
    have hpos := List.length_pos_of_mem hmem
    rw [← hfresh.proper.outstanding_eq, hfresh.replay_eq] at hpos
    simp only [Assembly.patchHere, Assembly.patchAddress, h.outstanding_eq]
    omega

theorem Follows.level (h : Follows base history fresh c) (l l' : Nat) :
    Follows base history { fresh with level := l } { c with level := l' } :=
  ⟨h.code_eq, h.outstanding_eq, h.entries_eq, h.pending_eq⟩

/-- The two runs are side by side, at the same level, and what the first one holds are jumps. -/
structure Abreast (base : Compiler) (history : List Op) (held : List Patch) (fresh c : Compiler) : Prop where
  underway : Underway history held fresh
  follows : Follows base history fresh c
  level_eq : fresh.level = c.level
  jumps : ∀ p ∈ held, ∃ o, fresh.assembly.code.opcodeAt p.position = some o ∧ o.isJump

namespace Abreast

theorem jumps_perform (h : Abreast base history held fresh c) (op : Op) :
    ∀ p ∈ held, ∃ o, (fresh.assembly.perform op).code.opcodeAt p.position = some o ∧ o.isJump := by
  intro p hp
  obtain ⟨o, ho, hjump⟩ := h.jumps p hp
  exact ⟨o, perform_grows _ _ _ _ ho, hjump⟩

theorem write (h : Abreast base history held fresh c) {i : Instr}
    (hi : i.opcode.isBranch → i.JumpsBack fresh.assembly.next) :
    Abreast base (.write i :: history) held { fresh with assembly := fresh.assembly.emit i }
      { c with assembly := c.assembly.emit (i.relocate base.assembly.next) } :=
  ⟨h.underway.write hi, h.follows.write h.underway.toTracked i, h.level_eq, h.jumps_perform (.write i)⟩

theorem reserve (h : Abreast base history held fresh c) {opcode : Opcode} (hopcode : opcode.isJump)
    (level : Int64) :
    Abreast base (.reserve opcode level :: history) (⟨fresh.assembly.next⟩ :: held)
      { fresh with assembly := (fresh.assembly.emitOpen opcode level).2 }
      { c with assembly := (c.assembly.emitOpen opcode level).2 } := by
  have hbranch : opcode.isBranch := by cases opcode <;> first | rfl | cases hopcode
  refine ⟨h.underway.reserve hbranch level, h.follows.reserve h.underway.toTracked opcode level, h.level_eq, ?_⟩
  refine List.forall_mem_cons.mpr ⟨⟨opcode, ?_, hopcode⟩, h.jumps_perform (.reserve opcode level)⟩
  simp [Code.opcodeAt, Assembly.emitOpen, Assembly.emit, Assembly.next]

theorem patchHere (h : Abreast base history held fresh c) {p : Patch} (hp : held.Perm (p :: rest)) :
    Abreast base (.patch p fresh.assembly.next :: history) rest
      { fresh with assembly := fresh.assembly.patchHere p }
      { c with assembly := c.assembly.patchHere ⟨p.position + base.assembly.next⟩ } := by
  obtain ⟨o, ho, hjump⟩ := h.jumps p (hp.mem_iff.mpr List.mem_cons_self)
  have hcall : fresh.assembly.code.opcodeAt p.position ≠ some .call := by
    rw [ho]
    rintro ⟨⟩
    cases hjump
  refine ⟨h.underway.patchHere hp hcall, h.follows.patchHere h.underway.toTracked hp ho hjump, h.level_eq, ?_⟩
  intro q hq
  exact h.jumps_perform (.patch p fresh.assembly.next) q (hp.mem_iff.mpr (List.mem_cons_of_mem _ hq))

end Abreast

/-! ## Work in both runs -/

/-- Two results of work from the end of `history`: values and states in `Q` after a longer history, or the
same error, and the runs are still side by side. -/
inductive Alongside (base : Compiler) (history : List Op) (Q : α → α → List Op → Compiler → Compiler → Prop) :
    EStateM.Result CompileError Compiler α → EStateM.Result CompileError Compiler α → Prop where
  | ok {a a' later fresh c} : history <:+ later → Q a a' later fresh c →
      Alongside base history Q (.ok a fresh) (.ok a' c)
  | error {e later held fresh c} : Abreast base later held fresh c →
      Alongside base history Q (.error e fresh) (.error e c)

namespace Alongside

variable {Q Q' : α → α → List Op → Compiler → Compiler → Prop} {R : β → β → List Op → Compiler → Compiler → Prop}

theorem imp {r r' : EStateM.Result CompileError Compiler α} (h : Alongside base history Q r r')
    (hQ : ∀ a a' later fresh c, history <:+ later → Q a a' later fresh c → Q' a a' later fresh c) :
    Alongside base history Q' r r' := by
  cases h with
  | ok hlater h => exact .ok hlater (hQ _ _ _ _ _ hlater h)
  | error h => exact .error h

theorem later {past : List Op} {r r' : EStateM.Result CompileError Compiler α} (hpast : past <:+ history)
    (h : Alongside base history Q r r') : Alongside base past Q r r' := by
  cases h with
  | ok hlater h => exact .ok (hpast.trans hlater) h
  | error h => exact .error h

theorem bind {x y : Compile α} {f g : α → Compile β}
    (h : Alongside base history (fun a a' later fresh' c' => Alongside base later R (f a fresh') (g a' c'))
      (x fresh) (y c)) :
    Alongside base history R ((x >>= f) fresh) ((y >>= g) c) := by
  generalize hx : x fresh = r, hy : y c = r' at h
  cases h with
  | ok hlater h =>
      rw [Action.bind_of_ok hx, Action.bind_of_ok hy]
      exact h.later hlater
  | error h =>
      rw [Action.bind_of_error hx, Action.bind_of_error hy]
      exact .error h

end Alongside

/-- Work that goes the same way in both runs and lets go of every placeholder that it writes. -/
def Relocatable (x : Compile α) : Prop :=
  ∀ ⦃base history held fresh c⦄, Abreast base history held fresh c →
    Alongside base history (fun a a' later fresh' c' => a = a' ∧ Abreast base later held fresh' c') (x fresh) (x c)

theorem Relocatable.bind {x : Compile α} {f : α → Compile β} (hx : Relocatable x)
    (hf : ∀ a, Relocatable (f a)) : Relocatable (x >>= f) := by
  intro base history held fresh c h
  refine .bind ((hx h).imp ?_)
  rintro a _ later fresh' c' - ⟨rfl, h'⟩
  exact hf a h'

theorem relocatable_pure (a : α) : Relocatable (pure a : Compile α) :=
  fun _ _ _ _ _ h => .ok List.suffix_rfl ⟨rfl, h⟩

theorem relocatable_currentLevel : Relocatable currentLevel :=
  fun _ _ _ _ _ h => .ok List.suffix_rfl ⟨h.level_eq, h⟩

theorem relocatable_throw (e : CompileError) : Relocatable (throw e : Compile α) :=
  fun _ _ _ _ _ h => .error h

theorem relocatable_assemble {f : Assembly → Assembly} {i : Instr} (hf : ∀ a, f a = a.emit i)
    (hi : i.opcode.isBranch = false) : Relocatable (assemble f) := by
  obtain rfl : f = (·.emit i) := funext hf
  intro base history held fresh c h
  have hwritten := @Abreast.write _ _ _ _ _ h i fun hbranch => by simp [hi] at hbranch
  rw [Instr.relocate_of_not_isBranch hi] at hwritten
  exact .ok (List.suffix_cons ..) ⟨rfl, hwritten⟩

/-! ## Expressions and statements -/

theorem distance_relocatable (declared : Nat) (x : Symbol) : Relocatable (distance declared x) := by
  refine relocatable_currentLevel.bind fun level => ?_
  split
  · exact relocatable_pure _
  · exact relocatable_throw _

theorem load_relocatable (x : Symbol) (position : Position) :
    Relocatable (load x position) := by
  unfold load
  cases x.binding with
  | var declared slot =>
      refine (distance_relocatable declared x).bind fun links => ?_
      exact relocatable_assemble (fun _ => rfl) rfl
  | const value => exact relocatable_assemble (fun _ => rfl) rfl
  | proc declared id => exact relocatable_throw _

theorem store_relocatable (x : Symbol) (position : Position) :
    Relocatable (store x position) := by
  unfold store
  cases x.binding with
  | var declared slot =>
      refine (distance_relocatable declared x).bind fun links => ?_
      exact relocatable_assemble (fun _ => rfl) rfl
  | const value => exact relocatable_throw _
  | proc declared id => exact relocatable_throw _

theorem emitExpr_relocatable (e : Expr) : Relocatable (emitExpr e) := by
  induction e with
  | binary op lhs rhs position ihl ihr =>
      unfold emitExpr
      cases BinaryOp.ofToken? op with
      | none => exact relocatable_throw _
      | some operator =>
          exact ihl.bind fun _ => ihr.bind fun _ => relocatable_assemble (fun _ => rfl) rfl
  | unary op operand position ih =>
      unfold emitExpr
      cases Operator.ofPrefixToken? op with
      | none => exact relocatable_throw _
      | some operator => exact ih.bind fun _ => relocatable_assemble (fun _ => rfl) rfl
  | literal value => exact relocatable_assemble (fun _ => rfl) rfl
  | name x position => exact load_relocatable x position

theorem emitReads_relocatable (targets : List (Located Symbol)) :
    Relocatable (emitReads targets) := by
  induction targets with
  | nil => exact relocatable_pure ()
  | cons target rest ih =>
      unfold emitReads
      refine Relocatable.bind (relocatable_assemble (fun _ => rfl) rfl) fun _ => ?_
      exact (store_relocatable target.value target.position).bind fun _ => ih

theorem emitWrites_relocatable (values : List Expr) : Relocatable (emitWrites values) := by
  induction values with
  | nil => exact relocatable_pure ()
  | cons value rest ih =>
      unfold emitWrites
      refine (emitExpr_relocatable value).bind fun _ => ?_
      exact Relocatable.bind (relocatable_assemble (fun _ => rfl) rfl) fun _ => ih

/-- A call waits for the same entry in both runs. -/
theorem emitCall_relocatable (callee : Symbol) (level : Nat) (position : Position) :
    Relocatable (emitCall callee level position) := by
  unfold emitCall
  cases callee.binding with
  | proc declared id =>
      intro base history held fresh c h
      have hfollows := h.follows.reserve h.underway.toTracked .call (.ofNat level)
      have hcall : (fresh.assembly.call level).2.code.opcodeAt fresh.assembly.next = some .call := by
        simp [Code.opcodeAt, Assembly.call, Assembly.emitOpen, Assembly.emit, Assembly.next]
      have hreserved := @Settled.reserve _ _ _ h.underway.toSettled .call rfl (.ofNat level)
      refine .ok (List.suffix_cons ..) ⟨rfl, (hreserved.log _).pend hcall,
        ⟨hfollows.code_eq, hfollows.outstanding_eq, hfollows.entries_eq, ?_⟩, h.level_eq,
        h.jumps_perform (.reserve .call (.ofNat level))⟩
      have hnext := h.follows.next_eq
      simp [h.follows.pending_eq, Assembly.call, Assembly.emitOpen, hnext, PendingCall.relocate]
  | var declared slot => exact relocatable_throw _
  | const value => exact relocatable_throw _

theorem open_alongside (h : Abreast base history held fresh c) {opcode : Opcode} (hopcode : opcode.isJump)
    (level : Int64) :
    Alongside base history (fun p p' later fresh' c' => p' = ⟨p.position + base.assembly.next⟩ ∧
        Abreast base later (p :: held) fresh' c')
      (assembleOpen (·.emitOpen opcode level) fresh) (assembleOpen (·.emitOpen opcode level) c) :=
  .ok (List.suffix_cons ..) ⟨congrArg Patch.mk h.follows.next_eq, h.reserve hopcode level⟩

theorem patchHere_alongside (h : Abreast base history held fresh c) {p : Patch} (hp : held.Perm (p :: rest)) :
    Alongside base history (fun a a' later fresh' c' => a = a' ∧ Abreast base later rest fresh' c')
      (assemble (·.patchHere p) fresh) (assemble (·.patchHere ⟨p.position + base.assembly.next⟩) c) :=
  .ok (List.suffix_cons ..) ⟨rfl, h.patchHere hp⟩

/-- The jump that closes a loop leads back to its start, which is further on in the second run. -/
theorem jumpTo_alongside (h : Abreast base history held fresh c) {start : Nat} (hpos : 0 < start)
    (hle : start ≤ fresh.assembly.next) :
    Alongside base history (fun a a' later fresh' c' => a = a' ∧ Abreast base later held fresh' c')
      (assemble (·.jumpTo start) fresh) (assemble (·.jumpTo (start + base.assembly.next)) c) := by
  have hwritten := @Abreast.write _ _ _ _ _ h ⟨.jump, 0, .ofNat start⟩ fun _ => ⟨rfl, start, hpos, hle, rfl⟩
  rw [Instr.relocate, if_pos (by rfl), ← Int64.ofNat_add] at hwritten
  exact .ok (List.suffix_cons ..) ⟨rfl, hwritten⟩

mutual

theorem emitStmt_relocatable (s : Stmt) : Relocatable (emitStmt s) := by
  cases s with
  | assign target value position =>
      unfold emitStmt
      exact (emitExpr_relocatable value).bind fun _ => store_relocatable target position
  | read targets => exact emitReads_relocatable targets
  | write values => exact emitWrites_relocatable values
  | call callee position =>
      exact relocatable_currentLevel.bind fun level => emitCall_relocatable callee level position
  | ifThen condition body =>
      intro base history held fresh c h
      unfold emitStmt
      refine .bind ((emitExpr_relocatable condition h).imp fun _ _ _ _ _ _ h₁ => ?_)
      refine .bind ((open_alongside h₁.2 rfl 0).imp fun skip _ _ _ _ _ h₂ => ?_)
      refine .bind ((emitStmt_relocatable body h₂.2).imp fun _ _ _ _ _ _ h₃ => ?_)
      rw [h₂.1]
      exact patchHere_alongside h₃.2 (.refl _)
  | ifElse condition body alternative =>
      intro base history held fresh c h
      unfold emitStmt
      refine .bind ((emitExpr_relocatable condition h).imp fun _ _ _ _ _ _ h₁ => ?_)
      refine .bind ((open_alongside h₁.2 rfl 0).imp fun skip _ _ _ _ _ h₂ => ?_)
      refine .bind ((emitStmt_relocatable body h₂.2).imp fun _ _ _ _ _ _ h₃ => ?_)
      refine .bind ((open_alongside h₃.2 rfl 0).imp fun leave _ _ _ _ _ h₄ => ?_)
      rw [h₂.1, h₄.1]
      refine .bind ((patchHere_alongside h₄.2 (.swap ..)).imp fun _ _ _ _ _ _ h₅ => ?_)
      refine .bind ((emitStmt_relocatable alternative h₅.2).imp fun _ _ _ _ _ _ h₆ => ?_)
      exact patchHere_alongside h₆.2 (.refl _)
  | whileDo condition body =>
      intro base history held fresh c h
      unfold emitStmt
      refine .bind (.ok List.suffix_rfl ?_)
      refine .bind ((emitExpr_relocatable condition h).imp fun _ _ _ _ _ hlater₁ h₁ => ?_)
      refine .bind ((open_alongside h₁.2 rfl 0).imp fun leave _ _ _ _ hlater₂ h₂ => ?_)
      refine .bind ((emitStmt_relocatable body h₂.2).imp fun _ _ _ _ _ hlater₃ h₃ => ?_)
      have hstart := h.underway.next_le h₃.2.underway.toTracked ((hlater₁.trans hlater₂).trans hlater₃)
      rw [h₂.1, h.follows.next_eq]
      refine .bind ((jumpTo_alongside h₃.2 h.underway.begun hstart).imp fun _ _ _ _ _ _ h₄ => ?_)
      exact patchHere_alongside h₄.2 (.refl _)
  | sequence body => exact emitStmts_relocatable body
  | ret => exact relocatable_assemble (fun _ => rfl) rfl

theorem emitStmts_relocatable (ss : List Stmt) : Relocatable (emitStmts ss) := by
  cases ss with
  | nil => exact relocatable_pure ()
  | cons s rest =>
      unfold emitStmts
      exact (emitStmt_relocatable s).bind fun _ => emitStmts_relocatable rest

end

/-! ## Blocks -/

theorem startBlock_alongside (h : Follows base history fresh c) (hfresh : Tracked history [] fresh)
    (hexpects : Expects fresh) (hlevel : fresh.level = c.level) (level count : Nat) :
    Alongside base history (fun a a' later fresh' c' => a = a' ∧ Abreast base later [] fresh' c')
      (startBlock level count fresh) (startBlock level count c) := by
  have hwritten := h.write hfresh ⟨.enter, 0, .ofNat (count + reservedSlots)⟩
  rw [Instr.relocate_of_not_isBranch rfl] at hwritten
  exact .ok (List.suffix_cons ..) ⟨rfl, (hfresh.enter hexpects count).log _, hwritten.log _ _, hlevel, by simp⟩

/-- Work at a level of its own. Whatever the levels of the two runs are, they have no say in it, and each
run gets its own one back. -/
theorem atLevel_alongside {work : Compile Unit} {level : Nat}
    (h : Alongside base history (fun a a' later fresh' c' => a = a' ∧ Abreast base later [] fresh' c')
      (work { fresh with level := level }) (work { c with level := level })) :
    Alongside base history
      (fun a a' later fresh' c' => a = a' ∧ Underway later [] fresh' ∧ Follows base later fresh' c' ∧
        fresh'.level = fresh.level ∧ c'.level = c.level)
      (atLevel level work fresh) (atLevel level work c) := by
  refine .bind (.ok List.suffix_rfl (.bind (.ok List.suffix_rfl (.bind (h.imp ?_)))))
  rintro _ _ later fresh' c' - ⟨-, h'⟩
  exact .ok List.suffix_rfl ⟨rfl, h'.underway.level _, h'.follows.level _ _, rfl, rfl⟩

theorem recordEntry_alongside (h : Abreast base history [] fresh c) (x : Symbol) :
    Alongside base history
      (fun _ _ later fresh' c' => Follows base later fresh' c' ∧ Tracked later [] fresh' ∧ Expects fresh' ∧
        fresh'.level = c'.level)
      (recordEntry x fresh) (recordEntry x c) := by
  unfold recordEntry
  cases x.binding with
  | proc declared id =>
      have htracked := h.underway.toTracked
      refine .ok List.suffix_rfl ⟨⟨h.follows.code_eq, h.follows.outstanding_eq, ?_, h.follows.pending_eq⟩,
        ⟨htracked.replay_eq, htracked.proper, htracked.open_perm, htracked.pending⟩,
        List.forall_mem_cons.mpr ⟨⟨h.underway.begun, .inr rfl⟩, h.underway.expects⟩, h.level_eq⟩
      simp [h.follows.entries_eq, h.follows.next_eq]
  | var declared slot => exact .error h
  | const value => exact .error h

mutual

theorem emitBlock_alongside (b : Block) {base fresh c : Compiler} {history : List Op}
    (h : Follows base history fresh c) (hfresh : Tracked history [] fresh) (hexpects : Expects fresh) :
    Alongside base history
      (fun a a' later fresh' c' => a = a' ∧ Underway later [] fresh' ∧ Follows base later fresh' c' ∧
        fresh'.level = fresh.level ∧ c'.level = c.level)
      (emitBlock b fresh) (emitBlock b c) := by
  obtain ⟨level, count, consts, vars, procedures, body⟩ := b
  rw [emitBlock_eq]
  refine atLevel_alongside ?_
  have hstart := startBlock_alongside (h.level level level) (hfresh.level level) hexpects rfl level count
  refine .bind (hstart.imp fun _ _ _ _ _ _ h₁ => ?_)
  refine .bind ((emitStmt_relocatable body h₁.2).imp fun _ _ _ _ _ _ h₂ => ?_)
  have hret : Relocatable (assemble (·.operate .ret)) := relocatable_assemble (fun _ => rfl) rfl
  refine .bind ((hret h₂.2).imp fun _ _ _ _ _ _ h₃ => ?_)
  exact emitProcedures_alongside procedures h₃.2

theorem emitProcedures_alongside (procedures : List (Procedure Block)) {base fresh c : Compiler}
    {history : List Op} (h : Abreast base history [] fresh c) :
    Alongside base history (fun a a' later fresh' c' => a = a' ∧ Abreast base later [] fresh' c')
      (emitProcedures procedures fresh) (emitProcedures procedures c) := by
  cases procedures with
  | nil => exact .ok List.suffix_rfl ⟨rfl, h⟩
  | cons procedure rest =>
      unfold emitProcedures
      refine .bind ((recordEntry_alongside h procedure.symbol).imp fun _ _ _ _ _ _ h₁ => ?_)
      obtain ⟨hfollows, htracked, hexpects, hlevel⟩ := h₁
      refine .bind ((emitBlock_alongside procedure.block hfollows htracked hexpects).imp fun _ _ _ _ _ _ h₂ => ?_)
      obtain ⟨-, hunderway, hfollows', hfresh, hc⟩ := h₂
      have hlevel' := hfresh.trans (hlevel.trans hc.symm)
      exact emitProcedures_alongside rest ⟨hunderway, hfollows', hlevel', by simp⟩

end

theorem lookup_map_add (entries : List (Nat × Nat)) (b id : Nat) :
    (entries.map fun e => (e.1, e.2 + b)).lookup id = (entries.lookup id).map (· + b) := by
  induction entries with
  | nil => rfl
  | cons e entries ih =>
      obtain ⟨k, entry⟩ := e
      simp only [List.map_cons, List.lookup_cons, ih]
      cases id == k <;> rfl

/-- The newest entry of a procedure is that of the block, if the block has the procedure. -/
theorem Follows.entryOf_eq (h : Follows base history fresh c) (id : Nat) :
    c.entryOf id = ((fresh.entryOf id).map (· + base.assembly.next)).or (base.entryOf id) := by
  rw [entryOf, h.entries_eq, List.lookup_append, lookup_map_add]
  rfl

/-- Of a block that has been written whole only calls are open. -/
theorem Tracked.opcodeAt_of_unresolved (h : Tracked history [] c) {p : Patch} (hp : p ∈ unresolved history) :
    c.assembly.code.opcodeAt p.position = some .call := by
  obtain ⟨call, hcall, rfl⟩ := List.mem_map.mp (h.open_perm.mem_iff.mp hp)
  exact h.pending call hcall

/-- Whatever steps came before and however they ended, a block fails as it does from the start or succeeds
with it. The code from before stays, and after it stands the code that is written from the start, with every
jump that has its target moved and every open placeholder as it is. The entries and the places of the calls
that wait are moved as well. -/
theorem emitBlock_relocated (steps : List Step) (tree : Block) :
    let base := after steps .empty
    let fresh := leaves (emitBlock tree) .empty
    let c := leaves (emitBlock tree) base
    answer (emitBlock tree) base = answer (emitBlock tree) .empty ∧
    (∀ id, c.entryOf id = ((fresh.entryOf id).map (· + base.assembly.next)).or (base.entryOf id)) ∧
    ∃ history, replay history = fresh.assembly ∧ Proper history ∧ Assembly.Balanced history ∧
      Follows base history fresh c ∧
      (answer (emitBlock tree) .empty = .ok () →
        ∀ p ∈ unresolved history, fresh.assembly.code.opcodeAt p.position = some .call) := by
  intro base fresh c
  have halong := emitBlock_alongside tree (follows_empty base) settled_empty.toTracked settled_empty.expects
  simp only [fresh, c, answer, leaves]
  generalize emitBlock tree .empty = r, emitBlock tree base = r' at halong
  cases halong with
  | @ok _ _ history _ _ _ h =>
      obtain ⟨rfl, hunderway, hfollows, -, -⟩ := h
      exact ⟨rfl, hfollows.entryOf_eq, history, hunderway.replay_eq, hunderway.proper,
        hunderway.proper.balanced, hfollows, fun _ _ => hunderway.toTracked.opcodeAt_of_unresolved⟩
  | @error e history _ _ _ h =>
      refine ⟨rfl, h.follows.entryOf_eq, history, h.underway.replay_eq, h.underway.proper,
        h.underway.proper.balanced, h.follows, ?_⟩
      rintro ⟨⟩

-- The first block calls what is no procedure: its jump stays open, and its level is left behind. The loop
-- after it is moved by three and finds its variable at a distance of zero.
example : (after [.emitBlock ⟨1, 0, [], [], [], .ifThen (.literal 1) (.call ⟨"c", .const 1⟩ .start)⟩,
      .emitBlock ⟨0, 1, [], [], [], .whileDo (.literal 1) (.read [⟨⟨"x", .var 0 0⟩, .start⟩])⟩]
        .empty).assembly.code =
    #[⟨.enter, 0, 3⟩, ⟨.loadConst, 0, 1⟩, ⟨.jumpIfFalse, 0, 0⟩,
      ⟨.enter, 0, 4⟩, ⟨.loadConst, 0, 1⟩, ⟨.jumpIfFalse, 0, 9⟩, .operate .read, ⟨.storeVar, 0, 0⟩,
      ⟨.jump, 0, 4⟩, .operate .ret] := by
  decide

end Compiler

end PLZero
