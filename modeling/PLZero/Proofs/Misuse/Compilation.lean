import PLZero.Proofs.Layout.Emission
import PLZero.Proofs.Misuse
import PLZero.Proofs.Patching.Compilation
import PLZero.Proofs.Resolution.Trees

/-!
# What the compiler refuses

A parsed tree is refused at its first misuse and for no other reason: its operators are operators, what
its names denote is in reach, and every call that waits is linked in the end.
-/

namespace PLZero

open PLZero.Action (Yields)

/-! ## Levels in code -/

namespace Code

def levelAt (code : Code) (k : Nat) : Option Int64 := code[k]?.map Instr.level

theorem levelAt_push {code : Code} {k : Nat} {l : Int64} (h : code.levelAt k = some l) (i : Instr) :
    levelAt (code.push i) k = some l := by
  obtain ⟨j, hj, -⟩ := Option.map_eq_some_iff.mp h
  have hk := (Array.getElem?_eq_some_iff.mp hj).1
  rwa [levelAt, Array.getElem?_push, if_neg (Nat.ne_of_lt hk)]

theorem levelAt_modify (code : Code) (j k : Nat) {f : Instr → Instr} (hf : ∀ i, (f i).level = i.level) :
    levelAt (code.modify j f) k = code.levelAt k := by
  rw [levelAt, Array.getElem?_modify]
  split
  · simp [levelAt, Function.comp_def, hf]
  · rfl

theorem levelAt_modify_of_ne (code : Code) {j k : Nat} (h : j ≠ k) (f : Instr → Instr) :
    levelAt (code.modify j f) k = code.levelAt k := by
  rw [levelAt, Array.getElem?_modify, if_neg h, levelAt]

end Code

/-- The procedure of a call that waits has one of the ids, and its declaration is in reach of the caller. -/
def PendingCall.Linkable (ids : List Nat) (code : Code) (call : PendingCall) : Prop :=
  call.callee ∈ ids ∧ ∃ level, code.levelAt call.patch.position = some (.ofNat level) ∧
    call.calleeLevel ≤ level ∧ level < Decimal.int64Bound

/-- What a name denotes is in reach of a block at `level`. -/
def Symbol.InReach (ids : List Nat) (level : Nat) (x : Symbol) : Prop :=
  match x.binding with
  | .var declared _ => declared ≤ level
  | .const _ => True
  | .proc declared id => declared ≤ level ∧ id ∈ ids

namespace Compiler

variable {α β : Type} {ids : List Nat} {level : Nat} {us vs : List Occurrence} {c c' : Compiler}

def Linkable (ids : List Nat) (c : Compiler) : Prop :=
  ∀ call ∈ c.pending.toList, call.Linkable ids c.assembly.code

/-- The compiler is at a block of the level, and the calls that wait can be linked. -/
structure LinkableAt (ids : List Nat) (level : Nat) (c : Compiler) : Prop where
  linkable : Linkable ids c
  level_eq : c.level = level

/-- The error is that of the first misuse. -/
def ReportsFirst (us : List Occurrence) (e : CompileError) : Prop :=
  ∃ first rest, us.filter Occurrence.isMisuse = first :: rest ∧ e = first.error

/-- Work at a level that fails at the first misuse among `us`, and succeeds if there is none. -/
def Checks (ids : List Nat) (level : Nat) (us : List Occurrence) (x : Compile α) : Prop :=
  ∀ ⦃c⦄, LinkableAt ids level c →
    Yields x c (fun _ c' => us.filter Occurrence.isMisuse = [] ∧ LinkableAt ids level c')
      fun e _ => ReportsFirst us e

namespace Checks

theorem bind {x : Compile α} {f : α → Compile β} (hx : Checks ids level us x) (hf : ∀ a, Checks ids level vs (f a)) :
    Checks ids level (us ++ vs) (x >>= f) := by
  intro c hc
  refine .bind ((hx hc).imp ?_ ?_)
  · rintro a c' ⟨hnone, hc'⟩
    refine (hf a hc').imp ?_ ?_
    · rintro b c'' ⟨hnone', hc''⟩
      exact ⟨by rw [List.filter_append, hnone, hnone', List.append_nil], hc''⟩
    · rintro e c'' ⟨first, rest, hfirst, he⟩
      exact ⟨first, rest, by rw [List.filter_append, hnone, hfirst, List.nil_append], he⟩
  · rintro e c' ⟨first, rest, hfirst, he⟩
    exact ⟨first, rest ++ vs.filter Occurrence.isMisuse, by rw [List.filter_append, hfirst, List.cons_append], he⟩

/-- Work without uses of names, before other work. -/
theorem after {x : Compile α} {f : α → Compile β} (hx : Checks ids level [] x)
    (hf : ∀ a, Checks ids level vs (f a)) : Checks ids level vs (x >>= f) := hx.bind hf

/-- Work without uses of names, after other work. -/
theorem before {x : Compile α} {f : α → Compile β} (hx : Checks ids level us x)
    (hf : ∀ a, Checks ids level [] (f a)) : Checks ids level us (x >>= f) := by
  have h := hx.bind hf
  rwa [List.append_nil] at h

theorem pure (a : α) : Checks ids level [] (Pure.pure a : Compile α) := fun _ hc => ⟨rfl, hc⟩

theorem throw {o : Occurrence} (ho : o.isMisuse = true) :
    Checks ids level [o] (MonadExcept.throw o.error : Compile α) := by
  intro c _
  exact .of_error rfl ⟨o, [], by simp [ho], rfl⟩

/-- A use that is none of those that are refused. -/
theorem proper {o : Occurrence} {x : Compile α} (ho : o.isMisuse = false) (hx : Checks ids level [] x) :
    Checks ids level [o] x := by
  intro c hc
  have hnone : [o].filter Occurrence.isMisuse = [] := by simp [ho]
  refine (hx hc).imp (fun _ _ h => ⟨hnone, h.2⟩) ?_
  rintro e c' ⟨first, rest, hfirst, -⟩
  cases hfirst

theorem get : Checks ids level [] (MonadState.get : Compile Compiler) := fun _ hc => ⟨rfl, hc⟩

theorem report (l : Log.Level) (text : String) : Checks ids level [] (report l text) :=
  fun _ hc => ⟨rfl, hc.linkable, hc.level_eq⟩

theorem assemble {f : Assembly → Assembly}
    (hf : ∀ a k l, a.code.levelAt k = some l → (f a).code.levelAt k = some l) :
    Checks ids level [] (assemble f) := by
  intro c hc
  refine ⟨rfl, fun call hcall => ?_, hc.level_eq⟩
  obtain ⟨hid, l, hl, hle⟩ := hc.linkable call hcall
  exact ⟨hid, l, hf _ _ _ hl, hle⟩

theorem emit {f : Assembly → Assembly} {i : Instr} (hf : ∀ a, f a = a.emit i) :
    Checks ids level [] (Compiler.assemble f) := by
  refine assemble fun a k l h => ?_
  rw [hf]
  exact Code.levelAt_push h i

theorem patchHere (patch : Patch) : Checks ids level [] (Compiler.assemble (·.patchHere patch)) := by
  refine assemble fun a k l h => ?_
  rw [Assembly.patchHere, Assembly.patchAddress, Code.levelAt_modify]
  · exact h
  · exact fun _ => rfl

theorem emitOpen (opcode : Opcode) (l : Int64) : Checks ids level [] (assembleOpen (·.emitOpen opcode l)) := by
  intro c hc
  refine ⟨rfl, fun call hcall => ?_, hc.level_eq⟩
  obtain ⟨hid, l', hl, hle⟩ := hc.linkable call hcall
  exact ⟨hid, l', Code.levelAt_push hl _, hle⟩

theorem currentLevel {f : Nat → Compile α} (hf : Checks ids level us (f level)) :
    Checks ids level us (Compiler.currentLevel >>= f) := by
  intro c hc
  refine .bind (.of_ok rfl ?_)
  rw [hc.level_eq]
  exact hf hc

/-- The level is there only for the time of the work. -/
theorem atLevel {inner : Nat} {x : Compile Unit} (hx : Checks ids inner us x) :
    Checks ids level us (Compiler.atLevel inner x) := by
  intro c hc
  have hinner : LinkableAt ids inner { c with level := inner } := ⟨hc.linkable, rfl⟩
  refine .bind (.of_ok rfl (.bind (.of_ok rfl (.bind ((hx hinner).imp ?_ fun _ _ he => he)))))
  rintro _ c' ⟨hnone, hc'⟩
  exact .of_ok rfl ⟨hnone, hc'.linkable, hc.level_eq⟩

end Checks

/-! ## Expressions and statements -/

theorem distance_checks {declared : Nat} (h : declared ≤ level) (x : Symbol) :
    Checks ids level [] (distance declared x) := by
  refine .currentLevel ?_
  rw [if_pos h]
  exact .pure _

theorem load_checks {x : Symbol} (hx : x.InReach ids level) (position : Position) :
    Checks ids level [⟨.value, x, position⟩] (load x position) := by
  unfold load
  unfold Symbol.InReach at hx
  cases hb : x.binding with
  | var declared slot =>
      rw [hb] at hx
      exact .proper (by simp [Occurrence.isMisuse, hb])
        ((distance_checks hx x).after fun _ => .emit fun _ => rfl)
  | const value => exact .proper (by simp [Occurrence.isMisuse, hb]) (.emit fun _ => rfl)
  | proc declared id => exact .throw (by simp [Occurrence.isMisuse, hb])

theorem store_checks {x : Symbol} (hx : x.InReach ids level) (position : Position) :
    Checks ids level [⟨.target, x, position⟩] (store x position) := by
  unfold store
  unfold Symbol.InReach at hx
  cases hb : x.binding with
  | var declared slot =>
      rw [hb] at hx
      exact .proper (by simp [Occurrence.isMisuse, hb])
        ((distance_checks hx x).after fun _ => .emit fun _ => rfl)
  | const value => exact .throw (by simp [Occurrence.isMisuse, hb])
  | proc declared id => exact .throw (by simp [Occurrence.isMisuse, hb])

/-- A call that is written waits with the level of its caller. -/
theorem emitCall_checks {x : Symbol} (hx : x.InReach ids level) (hlevel : level < Decimal.int64Bound)
    (position : Position) : Checks ids level [⟨.callee, x, position⟩] (emitCall x level position) := by
  unfold emitCall
  unfold Symbol.InReach at hx
  cases hb : x.binding with
  | proc declared id =>
      rw [hb] at hx
      refine .proper (by simp [Occurrence.isMisuse, hb]) fun c hc => ?_
      refine .of_ok rfl ⟨rfl, fun call hcall => ?_, hc.level_eq⟩
      simp only [Array.toList_push, List.mem_append, List.mem_singleton] at hcall
      rcases hcall with hcall | rfl
      · obtain ⟨hid, l, hl, hle⟩ := hc.linkable call hcall
        exact ⟨hid, l, Code.levelAt_push hl _, hle⟩
      · refine ⟨hx.2, level, ?_, hx.1, hlevel⟩
        simp [Code.levelAt, Assembly.call, Assembly.emitOpen, Assembly.emit, Assembly.next]
  | var declared slot => exact .throw (by simp [Occurrence.isMisuse, hb])
  | const value => exact .throw (by simp [Occurrence.isMisuse, hb])

section

variable {V : Usage → Symbol → Prop} (hV : ∀ use x, V use x → x.InReach ids level)

include hV

theorem emitExpr_checks {e : Expr} (he : e.Uses V) : Checks ids level e.occurrences (emitExpr e) := by
  induction e with
  | binary op lhs rhs position ihl ihr =>
      obtain ⟨hop, hl, hr⟩ := he
      obtain ⟨operator, hop⟩ := Option.isSome_iff_exists.mp hop
      unfold emitExpr
      rw [hop]
      exact (ihl hl).bind fun _ => (ihr hr).before fun _ => .emit fun _ => rfl
  | unary op operand position ih =>
      obtain ⟨hop, he⟩ := he
      obtain ⟨operator, hop⟩ := Option.isSome_iff_exists.mp hop
      unfold emitExpr
      rw [hop]
      exact (ih he).before fun _ => .emit fun _ => rfl
  | literal value => exact .emit fun _ => rfl
  | name x position => exact load_checks (hV _ _ he) position

theorem emitReads_checks {targets : List (Located Symbol)} (h : ∀ target ∈ targets, V .target target.value) :
    Checks ids level (Stmt.read targets).occurrences (emitReads targets) := by
  rw [Stmt.occurrences]
  induction targets with
  | nil => exact .pure ()
  | cons target rest ih =>
      obtain ⟨htarget, hrest⟩ := List.forall_mem_cons.mp h
      refine .after (.emit fun _ => rfl) fun _ => ?_
      exact (store_checks (hV _ _ htarget) target.position).bind fun _ => ih hrest

theorem emitWrites_checks {values : List Expr} (h : ∀ value ∈ values, value.Uses V) :
    Checks ids level (Stmt.write values).occurrences (emitWrites values) := by
  rw [Stmt.occurrences]
  induction values with
  | nil => exact .pure ()
  | cons value rest ih =>
      obtain ⟨hvalue, hrest⟩ := List.forall_mem_cons.mp h
      exact (emitExpr_checks hV hvalue).bind fun _ => .after (.emit fun _ => rfl) fun _ => ih hrest

end

mutual

theorem emitStmt_checks {V : Usage → Symbol → Prop} (hV : ∀ use x, V use x → x.InReach ids level)
    (hlevel : level < Decimal.int64Bound) {s : Stmt} (hs : s.Uses V) :
    Checks ids level s.occurrences (emitStmt s) := by
  cases s with
  | assign target value position =>
      exact (emitExpr_checks hV hs.1).bind fun _ => store_checks (hV _ _ hs.2) position
  | read targets => exact emitReads_checks hV hs
  | write values => exact emitWrites_checks hV hs
  | call callee position => exact .currentLevel (emitCall_checks (hV _ _ hs) hlevel position)
  | ifThen condition body =>
      refine (emitExpr_checks hV hs.1).bind fun _ => .after (.emitOpen .jumpIfFalse 0) fun skip => ?_
      exact (emitStmt_checks hV hlevel hs.2).before fun _ => .patchHere skip
  | ifElse condition body alternative =>
      refine (emitExpr_checks hV hs.1).bind fun _ => .after (.emitOpen .jumpIfFalse 0) fun skip => ?_
      refine (emitStmt_checks hV hlevel hs.2.1).bind fun _ => .after (.emitOpen .jump 0) fun leave => ?_
      refine .after (.patchHere skip) fun _ => ?_
      exact (emitStmt_checks hV hlevel hs.2.2).before fun _ => .patchHere leave
  | whileDo condition body =>
      refine .after .get fun c => ?_
      refine (emitExpr_checks hV hs.1).bind fun _ => .after (.emitOpen .jumpIfFalse 0) fun leave => ?_
      refine (emitStmt_checks hV hlevel hs.2).before fun _ => ?_
      exact .after (.emit fun _ => rfl) fun _ => .patchHere leave
  | sequence body => exact emitStmts_checks hV hlevel hs
  | ret => exact .emit fun _ => rfl

theorem emitStmts_checks {V : Usage → Symbol → Prop} (hV : ∀ use x, V use x → x.InReach ids level)
    (hlevel : level < Decimal.int64Bound) {ss : List Stmt} (hs : Stmt.AllUse V ss) :
    Checks ids level (Stmt.occurrencesIn ss) (emitStmts ss) := by
  cases ss with
  | nil => exact .pure ()
  | cons s rest => exact (emitStmt_checks hV hlevel hs.1).bind fun _ => emitStmts_checks hV hlevel hs.2

end

/-! ## Blocks -/

theorem recordEntry_checks {x : Symbol} {declared id : Nat} (hx : x.binding = .proc declared id) :
    Checks ids level [] (recordEntry x) := by
  unfold recordEntry
  rw [hx]
  exact fun c hc => ⟨rfl, hc.linkable, hc.level_eq⟩

theorem emitProcedures_checks {ps : List (Procedure Block)}
    (hps : ∀ p ∈ ps, (∃ declared id, p.symbol.binding = .proc declared id) ∧
      Checks ids level p.block.occurrences (emitBlock p.block)) :
    Checks ids level (ps.flatMap fun p => p.block.occurrences) (emitProcedures ps) := by
  induction ps with
  | nil => exact .pure ()
  | cons p rest ih =>
      obtain ⟨⟨⟨declared, id, hx⟩, hblock⟩, hrest⟩ := List.forall_mem_cons.mp hps
      exact (recordEntry_checks hx).after fun _ => hblock.bind fun _ => ih hrest

/-- A block whose level fits a word and whose procedures are among those of the program. -/
structure Fits (ids : List Nat) (b : Block) : Prop where
  level_lt : b.level < Decimal.int64Bound
  ids_mem : ∀ p ∈ b.procedures, p.symbol.procedureId ∈ ids

theorem inReach_of_declares {t : Block} {x : Symbol} (hx : t.Declares x) (ht : Fits ids t)
    (hle : t.level ≤ level) : x.InReach ids level := by
  obtain ⟨-, hx⟩ := hx
  unfold Symbol.InReach
  cases hb : x.binding with
  | var declared slot =>
      simp only [hb] at hx
      exact hx.1 ▸ hle
  | const value => trivial
  | proc declared id =>
      simp only [hb] at hx
      obtain ⟨rfl, p, hp, rfl⟩ := hx
      have hid := ht.ids_mem p hp
      simp only [Symbol.procedureId, hb] at hid
      exact ⟨hle, hid⟩

theorem emitBlock_checks {outer : List Block} {b : Block} (h : b.WellResolved outer)
    (houter : ∀ t ∈ outer, Fits ids t) (hblocks : ∀ t ∈ b.blocks, Fits ids t) (level : Nat) :
    Checks ids level b.occurrences (emitBlock b) := by
  induction h generalizing level with
  | @mk outer b hb _ ih =>
      have hown : Fits ids b := hblocks b (by simp [Block.blocks])
      have hchain : ∀ t ∈ b :: outer, Fits ids t := List.forall_mem_cons.mpr ⟨hown, houter⟩
      rw [emitBlock_eq, Block.occurrences_eq]
      refine .atLevel ?_
      refine .after (.after .get fun c => .after (.report ..) fun _ => .emit fun _ => rfl) fun _ => ?_
      refine .bind (emitStmt_checks (fun _ x hx => ?_) hown.level_lt hb.uses) fun _ => ?_
      · obtain ⟨t, ht, hle, hx⟩ := hx
        exact inReach_of_declares hx (hchain t ht) hle
      · refine .after (.emit fun _ => rfl) fun _ => emitProcedures_checks fun p hp => ⟨?_, ?_⟩
        · exact ⟨b.level, hb.proc_eq p hp⟩
        · exact ih p hp hchain (fun t ht => hblocks t (Block.blocks_subset hp ht)) b.level

/-! ## Calls -/

theorem resolveCall_ok {call : PendingCall} (hcall : call.Linkable ids c.assembly.code)
    (hids : ∀ id ∈ ids, (c.entries.lookup id).isSome) :
    ∃ distance entry log, resolveCall call c =
      .ok () { c with assembly := c.assembly.patchCall call.patch distance entry, log := log } := by
  obtain ⟨hid, level, hlevel, hle, hlt⟩ := hcall
  obtain ⟨entry, hentry⟩ := Option.isSome_iff_exists.mp (hids _ hid)
  obtain ⟨i, hi, hil⟩ := Option.map_eq_some_iff.mp hlevel
  have hcaller : c.assembly.levelAt call.patch = .ofNat level := by simp only [Assembly.levelAt, hi, hil]
  have hdistance : ¬ (Int64.ofNat level - .ofNat call.calleeLevel < 0) := by
    rw [Operand.ofNat_sub hle]
    exact Operand.not_ofNat_lt_zero (Nat.lt_of_le_of_lt (Nat.sub_le ..) hlt)
  unfold resolveCall
  rw [Action.bind_of_ok (Action.get_apply c)]
  simp only [entryOf, hentry]
  rw [Action.bind_of_ok (Action.get_apply c), hcaller, if_neg hdistance]
  exact ⟨_, entry, _, rfl⟩

/-- Linking a call leaves the levels of all others. -/
theorem PendingCall.Linkable.patchCall {call other : PendingCall} {a : Assembly}
    (h : other.Linkable ids a.code) (hne : call.patch ≠ other.patch) (distance entry : Nat) :
    other.Linkable ids (a.patchCall call.patch distance entry).code := by
  have hposition : call.patch.position ≠ other.patch.position := fun heq => hne (congrArg Patch.mk heq)
  obtain ⟨hid, level, hlevel, hle⟩ := h
  refine ⟨hid, level, ?_, hle⟩
  rw [Assembly.patchCall, Assembly.patchAddress, Code.levelAt_modify_of_ne _ hposition,
    Code.levelAt_modify_of_ne _ hposition, hlevel]

theorem resolveCalls_ok {calls : List PendingCall} (hnodup : (calls.map PendingCall.patch).Nodup)
    (hcalls : ∀ call ∈ calls, call.Linkable ids c.assembly.code)
    (hids : ∀ id ∈ ids, (c.entries.lookup id).isSome) :
    ∃ c', resolveCalls calls c = .ok () c' ∧ c'.pending = c.pending := by
  induction calls generalizing c with
  | nil => exact ⟨c, rfl, rfl⟩
  | cons call rest ih =>
      obtain ⟨hcall, hrest⟩ := List.forall_mem_cons.mp hcalls
      obtain ⟨hnew, hnodup⟩ := List.nodup_cons.mp hnodup
      obtain ⟨distance, entry, log, hok⟩ := resolveCall_ok hcall hids
      have hkept : ∀ other ∈ rest, other.Linkable ids (c.assembly.patchCall call.patch distance entry).code := by
        intro other hother
        refine PendingCall.Linkable.patchCall (hrest other hother) (fun heq => hnew ?_) distance entry
        exact heq ▸ List.mem_map_of_mem hother
      obtain ⟨c', hc', hpending⟩ :=
        @ih { c with assembly := c.assembly.patchCall call.patch distance entry, log := log } hnodup hkept hids
      exact ⟨c', (Action.bind_of_ok hok).trans hc', hpending⟩

theorem finalize_ok (hnodup : (c.pending.toList.map PendingCall.patch).Nodup) (hc : Linkable ids c)
    (hids : ∀ id ∈ ids, (c.entries.lookup id).isSome) :
    ∃ c', finalize c = .ok () c' ∧ c'.pending = #[] :=
  @resolveCalls_ok ids { c with pending := #[] } c.pending.toList hnodup hc hids

end Compiler

/-! ## Programs -/

namespace Semantics

theorem mem_proceduresIn {ps : List (Procedure Block)} {p : Procedure Block} (hp : p ∈ ps) :
    (p.symbol, p.block) ∈ proceduresIn ps ∧ procedures p.block ⊆ proceduresIn ps := by
  induction ps with
  | nil => simp at hp
  | cons q rest ih =>
      obtain ⟨x, block, position⟩ := q
      rw [proceduresIn]
      rcases List.mem_cons.mp hp with rfl | hp
      · exact ⟨List.mem_cons_self, fun _ h => List.mem_cons_of_mem _ (List.mem_append_left _ h)⟩
      · obtain ⟨hmem, hsubset⟩ := ih hp
        exact ⟨List.mem_cons_of_mem _ (List.mem_append_right _ hmem),
          fun _ h => List.mem_cons_of_mem _ (List.mem_append_right _ (hsubset h))⟩

end Semantics

namespace Block

/-- The ids of the procedures of a program. -/
def ids (program : Block) : List Nat := (Semantics.procedures program).map fun p => p.1.procedureId

theorem ids_subset {b : Block} {p : Procedure Block} (hp : p ∈ b.procedures) : p.block.ids ⊆ b.ids := by
  cases b with
  | mk => exact List.map_subset _ (Semantics.mem_proceduresIn hp).2

theorem mem_ids {b : Block} {p : Procedure Block} (hp : p ∈ b.procedures) : p.symbol.procedureId ∈ b.ids := by
  cases b with
  | mk =>
      have hmem := (Semantics.mem_proceduresIn hp).1
      exact List.mem_map_of_mem (f := fun p : Symbol × Block => p.1.procedureId) hmem

theorem WellResolved.fits {outer : List Block} {b : Block} (h : b.WellResolved outer)
    (hlevel : ∀ t ∈ b.blocks, t.level < Decimal.int64Bound) : ∀ t ∈ b.blocks, Compiler.Fits b.ids t := by
  induction h with
  | @mk outer b hb _ ih =>
      intro t ht
      refine ⟨hlevel t ht, ?_⟩
      rw [blocks_eq] at ht
      rcases List.mem_cons.mp ht with rfl | ht
      · exact fun p => mem_ids
      · obtain ⟨q, hq, ht⟩ := List.mem_flatMap.mp ht
        have hfits := ih q hq (fun u hu => hlevel u (blocks_subset hq hu)) t ht
        exact fun p hp => ids_subset hq (hfits.ids_mem p hp)

theorem isSome_lookup_entries {program : Block}
    (hnodup : ((program.places 0).map fun p => p.1.procedureId).Nodup) :
    ∀ id ∈ program.ids, (program.entries.lookup id).isSome := by
  intro id hid
  rw [ids, ← map_places 0 program, List.map_map] at hid
  obtain ⟨⟨x, t⟩, hmem, rfl⟩ := List.mem_map.mp hid
  exact Option.isSome_iff_exists.mpr ⟨t.entry, lookup_entries hnodup hmem⟩

end Block

namespace Compiler

/-- When a tree has been written, its calls are linked and no patch is left open. -/
theorem finalize_of_emitBlock {program : Block} {c : Compiler} {u : Unit}
    (hnodup : ((program.places 0).map fun p => p.1.procedureId).Nodup)
    (h : emitBlock program .empty = .ok u c) (hc : Linkable program.ids c) :
    ∃ c', finalize c = .ok () c' ∧ c'.assembly.outstanding = 0 := by
  obtain ⟨-, -, hlays⟩ := emitBlock_lays program.linkage h
  have hentries : c.entries = program.entries := by
    rw [hlays.entries_eq]
    exact List.append_nil _
  obtain ⟨later, -, hunderway, -⟩ := (emitBlock_extends program settled_empty.toTracked settled_empty.expects).ok h
  have hpatches : (c.pending.toList.map PendingCall.patch).Nodup := by
    have hopen := (List.nodup_append.mp hunderway.proper.nodup).1
    exact (hunderway.open_perm.nodup_iff.mp hopen)
  obtain ⟨c', hc', hpending⟩ := finalize_ok hpatches hc (hentries ▸ Block.isSome_lookup_entries hnodup)
  obtain ⟨later', -, hsettled, -⟩ := (finalize_yields hunderway.toSettled).ok hc'
  refine ⟨c', hc', ?_⟩
  have hopen := hsettled.open_perm
  rw [hpending] at hopen
  rw [← hsettled.replay_eq, hsettled.proper.outstanding_eq]
  simpa using hopen.length_eq

theorem compileProgram_checks {program : Block} (hresolved : program.WellResolved [])
    (hnodup : ((program.places 0).map fun p => p.1.procedureId).Nodup)
    (hlevel : ∀ t ∈ program.blocks, t.level < Decimal.int64Bound) :
    Yields (compileProgram program) .empty (fun _ _ => program.misuses = [])
      fun e _ => ReportsFirst program.occurrences e := by
  have hempty : LinkableAt program.ids 0 .empty := ⟨by simp [Linkable, empty], rfl⟩
  have hchecks := emitBlock_checks hresolved (by simp) (hresolved.fits hlevel) 0 hempty
  unfold compileProgram
  cases hblock : emitBlock program .empty with
  | error e c => exact .of_error (Action.bind_of_error hblock) (hchecks.error hblock)
  | ok u c =>
      obtain ⟨hnone, hc⟩ := hchecks.ok hblock
      obtain ⟨c', hfinal, houtstanding⟩ := finalize_of_emitBlock hnodup hblock hc.linkable
      refine .bind (.of_ok hblock (.bind (.of_ok hfinal (.bind (.of_ok (Action.get_apply c') ?_)))))
      rw [if_pos houtstanding]
      exact hnone

end Compiler

theorem Block.compile_checks {w : Grammar.Word} {n : Nat} {program : Block} (hw : Grammar.BlockAt [] 0 w program n)
    (hlength : w.length < Decimal.int64Bound) :
    (∃ code, program.compile = .ok code ∧ program.misuses = []) ∨
      ∃ e, program.compile = .error e ∧ Compiler.ReportsFirst program.occurrences e := by
  have hlevel : ∀ t ∈ program.blocks, t.level < Decimal.int64Bound := by
    intro t ht
    have hle := hw.level_le t ht
    rw [List.length_nil, Nat.zero_add] at hle
    exact Nat.lt_of_le_of_lt hle hlength
  have hchecks := Compiler.compileProgram_checks (hw.wellResolved .nil) hw.nodup_ids hlevel
  unfold Block.compile
  cases hrun : Compiler.compileProgram program .empty with
  | ok code c => exact .inl ⟨code, rfl, hchecks.ok hrun⟩
  | error e c => exact .inr ⟨e, rfl, hchecks.error hrun⟩

theorem Occurrence.error_cases (o : Occurrence) :
    (∀ cause, o.error ≠ .internal cause) ∧ ∀ op position, o.error ≠ .invalidOperator op position := by
  unfold Occurrence.error
  cases o.usage <;> simp

/-- A program that is parsed compiles exactly if it misuses no name, and otherwise its first misuse is
the error, with the name and the place of a token. -/
theorem Block.compile_misuses {tokens : Grammar.Word} {program : Block}
    (hparse : Block.parse tokens = .ok program) (htokens : tokens.length < Decimal.int64Bound) :
    ((∃ code, program.compile = .ok code) ↔ program.misuses = []) ∧
      ∀ e, program.compile = .error e →
        (∃ first rest, program.misuses = first :: rest ∧ e = first.error ∧
          ⟨.ident first.symbol.name, first.position⟩ ∈ tokens) ∧
        (∀ cause, e ≠ .internal cause) ∧ ∀ op position, e ≠ .invalidOperator op position := by
  obtain ⟨w, n, hw, hsub, hlength⟩ := Block.exists_subset_of_parse hparse
  rcases Block.compile_checks hw (Nat.lt_trans hlength htokens) with
    ⟨code, hcode, hnone⟩ | ⟨e, he, first, rest, hfirst, rfl⟩
  · refine ⟨⟨fun _ => hnone, fun _ => ⟨code, hcode⟩⟩, fun e he => ?_⟩
    rw [hcode] at he
    cases he
  · have hfirst : program.misuses = first :: rest := hfirst
    refine ⟨⟨fun ⟨code, hcode⟩ => ?_, fun hnone => ?_⟩, fun e' he' => ?_⟩
    · rw [he] at hcode
      cases hcode
    · rw [hfirst] at hnone
      cases hnone
    · rw [he] at he'
      cases he'
      have hmem : first ∈ program.occurrences := by
        have hmisuse : first ∈ program.misuses := by simp [hfirst]
        exact (List.mem_filter.mp hmisuse).1
      exact ⟨⟨first, rest, hfirst, rfl, hsub _ (hw.standsIn first hmem)⟩, first.error_cases⟩

/-- `const k = 1; procedure p; k := 1; k := p.` -/
def Misuses.tokens : Grammar.Word :=
  [⟨.keyword .const, ⟨1, 1⟩⟩, ⟨.ident "k", ⟨1, 7⟩⟩, ⟨.mark .eq, ⟨1, 9⟩⟩, ⟨.number 1, ⟨1, 11⟩⟩,
    ⟨.mark .semicolon, ⟨1, 12⟩⟩, ⟨.keyword .procedure, ⟨1, 14⟩⟩, ⟨.ident "p", ⟨1, 24⟩⟩,
    ⟨.mark .semicolon, ⟨1, 25⟩⟩, ⟨.ident "k", ⟨1, 27⟩⟩, ⟨.mark .assign, ⟨1, 29⟩⟩, ⟨.number 1, ⟨1, 32⟩⟩,
    ⟨.mark .semicolon, ⟨1, 33⟩⟩, ⟨.ident "k", ⟨1, 35⟩⟩, ⟨.mark .assign, ⟨1, 37⟩⟩, ⟨.ident "p", ⟨1, 40⟩⟩,
    ⟨.mark .period, ⟨1, 41⟩⟩, ⟨.eof, ⟨1, 42⟩⟩]

/-- Of three misuses the first is that of the procedure as a value: the program's own body comes before
the procedure's, and a value before its target. -/
theorem Block.compile_misuses_three :
    ∃ program, Block.parse Misuses.tokens = .ok program ∧
      program.misuses.map Occurrence.position = [⟨1, 40⟩, ⟨1, 35⟩, ⟨1, 27⟩] ∧
      (¬ ∃ code, program.compile = .ok code) ∧
      program.compile = .error (.notAValue ⟨"p", .proc 0 0⟩ ⟨1, 40⟩) := by
  obtain ⟨program, hparse⟩ : ∃ program, Block.parse Misuses.tokens = .ok program := ⟨_, rfl⟩
  obtain ⟨hiff, herror⟩ := Block.compile_misuses hparse (by decide)
  refine ⟨program, hparse, ?_⟩
  cases hparse
  refine ⟨rfl, fun hcode => ?_, ?_⟩
  · cases hiff.mp hcode
  · cases hcompile : Block.compile _ with
    | ok code => cases hiff.mp ⟨code, hcompile⟩
    | error e =>
        obtain ⟨⟨first, rest, hfirst, rfl, -⟩, -⟩ := herror e hcompile
        cases hfirst
        rfl

end PLZero
