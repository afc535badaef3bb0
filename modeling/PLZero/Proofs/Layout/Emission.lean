import PLZero.Compiler
import PLZero.Proofs.Action
import PLZero.Proofs.Layout
import PLZero.Proofs.Operand

/-!
# What the compiler writes

The compiler writes the draft of a tree's code at the end of what is there, and linking the calls that
wait turns the draft into the final code. So the code of a program is that of its tree, and a tree that
is compiled uses its names as they may be used.
-/

namespace PLZero

/-! ## Drafts -/

/-- Calls that wait in code that starts at `base`, and the code that linking them gives. -/
inductive Linking (link : Linkage) : Nat → List Instr → List PendingCall → List Instr → Prop where
  | nil {base} : Linking link base [] [] []
  | instr {base i draft calls final} : Linking link (base + 1) draft calls final →
      Linking link base (i :: draft) calls (i :: final)
  | call {base level x declared id draft calls final} : x.binding = .proc declared id →
      Linking link (base + 1) draft calls final →
      Linking link base (Linkage.draft level x :: draft) (⟨⟨base⟩, id, declared, x.name⟩ :: calls)
        (link level x :: final)

namespace Linking

variable {link : Linkage}

theorem refl (base : Nat) (code : List Instr) : Linking link base code [] code := by
  induction code generalizing base with
  | nil => exact .nil
  | cons i code ih => exact .instr (ih _)

theorem append {base : Nat} {draft draft' final final' : List Instr} {calls calls' : List PendingCall}
    (h : Linking link base draft calls final)
    (h' : Linking link (base + draft.length) draft' calls' final') :
    Linking link base (draft ++ draft') (calls ++ calls') (final ++ final') := by
  induction h with
  | nil => exact h'
  | @instr base i draft calls final _ ih =>
      refine .instr (ih ?_)
      rwa [List.length_cons, ← Nat.add_assoc, Nat.add_right_comm] at h'
  | @call base level x declared id draft calls final hx _ ih =>
      refine .call hx (ih ?_)
      rwa [List.length_cons, ← Nat.add_assoc, Nat.add_right_comm] at h'

end Linking

namespace Compiler

def code (c : Compiler) : List Instr := c.assembly.code.toList

theorem next_eq (c : Compiler) : c.assembly.next = c.code.length := by
  simp [Assembly.next, code]

theorem here_apply (c : Compiler) : here c = .ok c.assembly.next c := rfl

theorem currentLevel_apply (c : Compiler) : currentLevel c = .ok c.level c := rfl

/-- Work that adds a draft at the end of the code, whose calls wait for `link`, and records entries. The
level is the same before and after. -/
structure Lays (link : Linkage) (c : Compiler) (draft final : List Instr) (entries : List (Nat × Nat))
    (c' : Compiler) : Prop where
  code_eq : c'.code = c.code ++ draft
  entries_eq : c'.entries = entries.reverse ++ c.entries
  pending_eq : ∃ calls, c'.pending.toList = c.pending.toList ++ calls ∧
    Linking link c.code.length draft calls final
  level_eq : c'.level = c.level

/-- Work that adds a draft and records no entries. -/
abbrev Writes (link : Linkage) (c : Compiler) (draft final : List Instr) (c' : Compiler) : Prop :=
  Lays link c draft final [] c'

variable {link : Linkage}

theorem Lays.length_eq {c c' : Compiler} {draft final : List Instr} {entries : List (Nat × Nat)}
    (h : Lays link c draft final entries c') : c'.code.length = c.code.length + draft.length := by
  rw [h.code_eq, List.length_append]

theorem Writes.keeps {c c' : Compiler} {draft final : List Instr} (h : Writes link c draft final c') :
    c'.entries = c.entries := h.entries_eq

theorem Lays.refl (c : Compiler) : Lays link c [] [] [] c :=
  ⟨by simp, rfl, ⟨[], by simp, .nil⟩, rfl⟩

theorem Lays.trans {c c' c'' : Compiler} {draft final draft' final' : List Instr}
    {entries entries' : List (Nat × Nat)} (h : Lays link c draft final entries c')
    (h' : Lays link c' draft' final' entries' c'') :
    Lays link c (draft ++ draft') (final ++ final') (entries ++ entries') c'' := by
  obtain ⟨calls, hcalls, hlink⟩ := h.pending_eq
  obtain ⟨calls', hcalls', hlink'⟩ := h'.pending_eq
  refine ⟨by rw [h'.code_eq, h.code_eq, List.append_assoc],
    by rw [h'.entries_eq, h.entries_eq, List.reverse_append, List.append_assoc],
    ⟨calls ++ calls', by rw [hcalls', hcalls, List.append_assoc], hlink.append ?_⟩,
    h'.level_eq.trans h.level_eq⟩
  rwa [h.code_eq, List.length_append] at hlink'

variable (link)

theorem assemble_writes {f : Assembly → Assembly} {i : Instr} (hf : ∀ a, f a = a.emit i)
    {c c' : Compiler} {u : Unit} (h : assemble f c = .ok u c') : Writes link c [i] [i] c' := by
  cases h
  refine ⟨?_, rfl, ⟨[], by simp, .refl _ _⟩, rfl⟩
  simp [code, hf, Assembly.emit]

theorem eq_of_distance {declared links : Nat} {x : Symbol} {c c' : Compiler}
    (h : distance declared x c = .ok links c') : links = c.level - declared ∧ c' = c := by
  unfold distance at h
  rw [Action.bind_of_ok (currentLevel_apply c)] at h
  split at h
  · obtain ⟨hlinks, hc⟩ := Action.pure_eq_ok.mp h
    exact ⟨hlinks.symm, hc.symm⟩
  · simp at h

theorem load_writes {level : Nat} {x : Symbol} {position : Position} {c c' : Compiler} {u : Unit}
    (hlevel : c.level = level) (h : load x position c = .ok u c') :
    Usage.Admits .value x ∧ Writes link c (x.loadCode level) (x.loadCode level) c' := by
  unfold load at h
  unfold Usage.Admits Symbol.loadCode
  cases hx : x.binding with
  | var declared slot =>
      simp only [hx, Action.bind_eq_ok] at h
      obtain ⟨links, c₁, hlinks, h⟩ := h
      obtain ⟨rfl, rfl⟩ := eq_of_distance hlinks
      rw [hlevel] at h
      exact ⟨trivial, assemble_writes link (fun _ => rfl) h⟩
  | const value =>
      simp only [hx] at h
      exact ⟨trivial, assemble_writes link (fun _ => rfl) h⟩
  | proc declared id => simp [hx] at h

theorem store_writes {level : Nat} {x : Symbol} {position : Position} {c c' : Compiler} {u : Unit}
    (hlevel : c.level = level) (h : store x position c = .ok u c') :
    Usage.Admits .target x ∧ Writes link c (x.storeCode level) (x.storeCode level) c' := by
  unfold store at h
  unfold Usage.Admits Symbol.storeCode
  cases hx : x.binding with
  | var declared slot =>
      simp only [hx, Action.bind_eq_ok] at h
      obtain ⟨links, c₁, hlinks, h⟩ := h
      obtain ⟨rfl, rfl⟩ := eq_of_distance hlinks
      rw [hlevel] at h
      exact ⟨trivial, assemble_writes link (fun _ => rfl) h⟩
  | const value => simp [hx] at h
  | proc declared id => simp [hx] at h

theorem emitExpr_writes {level : Nat} {e : Expr} {c c' : Compiler} {u : Unit}
    (hlevel : c.level = level) (h : emitExpr e c = .ok u c') :
    e.Uses Usage.Admits ∧ Writes link c (e.code level) (e.code level) c' := by
  induction e generalizing c c' u with
  | binary op lhs rhs position ihl ihr =>
      unfold emitExpr at h
      cases hop : BinaryOp.ofToken? op with
      | none => simp [hop] at h
      | some operator =>
          simp only [hop, Action.bind_eq_ok] at h
          obtain ⟨_, c₁, hl, _, c₂, hr, h⟩ := h
          obtain ⟨hlhs, hl⟩ := ihl hlevel hl
          obtain ⟨hrhs, hr⟩ := ihr (hl.level_eq.trans hlevel) hr
          have h := assemble_writes link (fun _ => rfl) h
          simp only [Expr.code, hop, Option.toList_some, List.map_cons, List.map_nil]
          exact ⟨⟨by rw [hop]; rfl, hlhs, hrhs⟩, (hl.trans hr).trans h⟩
  | unary op operand position ih =>
      unfold emitExpr at h
      cases hop : Operator.ofPrefixToken? op with
      | none => simp [hop] at h
      | some operator =>
          simp only [hop, Action.bind_eq_ok] at h
          obtain ⟨_, c₁, he, h⟩ := h
          obtain ⟨hoperand, he⟩ := ih hlevel he
          have h := assemble_writes link (fun _ => rfl) h
          simp only [Expr.code, hop, Option.toList_some, List.map_cons, List.map_nil]
          exact ⟨⟨by rw [hop]; rfl, hoperand⟩, he.trans h⟩
  | literal value => exact ⟨trivial, assemble_writes link (fun _ => rfl) h⟩
  | name x position => exact load_writes link hlevel h

theorem emitReads_writes {level : Nat} {targets : List (Located Symbol)} {c c' : Compiler} {u : Unit}
    (hlevel : c.level = level) (h : emitReads targets c = .ok u c') :
    (∀ target ∈ targets, Usage.Admits .target target.value) ∧
      Writes link c (Stmt.code link level 0 (.read targets)) (Stmt.code link level 0 (.read targets)) c' := by
  induction targets generalizing c with
  | nil =>
      obtain ⟨-, rfl⟩ := Action.pure_eq_ok.mp h
      exact ⟨by simp, .refl c⟩
  | cons target rest ih =>
      unfold emitReads at h
      rw [Action.bind_eq_ok] at h
      obtain ⟨_, c₁, hread, h⟩ := h
      rw [Action.bind_eq_ok] at h
      obtain ⟨_, c₂, hstore, h⟩ := h
      have hread := assemble_writes link (fun _ => rfl) hread
      obtain ⟨htarget, hstore⟩ := store_writes link (hread.level_eq.trans hlevel) hstore
      obtain ⟨hrest, h⟩ := ih ((hread.trans hstore).level_eq.trans hlevel) h
      refine ⟨List.forall_mem_cons.mpr ⟨htarget, hrest⟩, ?_⟩
      simpa [Stmt.code] using (hread.trans hstore).trans h

theorem emitWrites_writes {level : Nat} {values : List Expr} {c c' : Compiler} {u : Unit}
    (hlevel : c.level = level) (h : emitWrites values c = .ok u c') :
    (∀ value ∈ values, value.Uses Usage.Admits) ∧
      Writes link c (Stmt.code link level 0 (.write values)) (Stmt.code link level 0 (.write values)) c' := by
  induction values generalizing c with
  | nil =>
      obtain ⟨-, rfl⟩ := Action.pure_eq_ok.mp h
      exact ⟨by simp, .refl c⟩
  | cons value rest ih =>
      unfold emitWrites at h
      rw [Action.bind_eq_ok] at h
      obtain ⟨_, c₁, hvalue, h⟩ := h
      rw [Action.bind_eq_ok] at h
      obtain ⟨_, c₂, hwrite, h⟩ := h
      obtain ⟨huses, hvalue⟩ := emitExpr_writes link hlevel hvalue
      have hwrite := assemble_writes link (fun _ => rfl) hwrite
      obtain ⟨hrest, h⟩ := ih ((hvalue.trans hwrite).level_eq.trans hlevel) h
      refine ⟨List.forall_mem_cons.mpr ⟨huses, hrest⟩, ?_⟩
      simpa [Stmt.code] using (hvalue.trans hwrite).trans h

/-! ## Statements and patches -/

theorem emitCall_writes {level : Nat} {x : Symbol} {position : Position} {c c' : Compiler} {u : Unit}
    (h : emitCall x level position c = .ok u c') :
    Usage.Admits .callee x ∧ Writes link c [Linkage.draft level x] [link level x] c' := by
  unfold emitCall at h
  unfold Usage.Admits
  cases hx : x.binding with
  | proc declared id =>
      simp only [hx, Action.bind_eq_ok] at h
      obtain ⟨patch, c₁, hopen, _, c₂, hreport, h⟩ := h
      cases hopen
      cases hreport
      cases h
      refine ⟨trivial, ?_, rfl, ⟨[⟨⟨c.code.length⟩, id, declared, x.name⟩], ?_, .call hx .nil⟩, rfl⟩
      · simp [code, Assembly.call, Assembly.emitOpen, Assembly.emit, Linkage.draft]
      · simp [code, Assembly.call, Assembly.emitOpen, Assembly.next]
  | var declared slot => simp [hx] at h
  | const value => simp [hx] at h

variable {link}

theorem open_eq {c c₁ : Compiler} {opcode : Opcode} {level : Int64} {patch : Patch}
    (h : assembleOpen (·.emitOpen opcode level) c = .ok patch c₁) :
    patch = ⟨c.code.length⟩ ∧ c₁.code = c.code ++ [⟨opcode, level, 0⟩] ∧ c₁.entries = c.entries ∧
      c₁.pending = c.pending ∧ c₁.level = c.level := by
  cases h
  refine ⟨congrArg Patch.mk (next_eq c), ?_, rfl, rfl, rfl⟩
  simp [code, Assembly.emitOpen, Assembly.emit]

theorem modify_append_cons (pre post : List Instr) (i : Instr) (f : Instr → Instr) :
    (pre ++ i :: post).modify pre.length f = pre ++ f i :: post := by
  rw [List.modify_eq_take_cons_drop (by simp)]
  simp

/-- The code after an open instruction has got the next index as its target. -/
theorem code_patchHere {c : Compiler} {pre post : List Instr} {i : Instr}
    (hcode : c.code = pre ++ i :: post) :
    code { c with assembly := c.assembly.patchHere ⟨pre.length⟩ }
      = pre ++ { i with address := .ofNat c.code.length } :: post := by
  have hnext := next_eq c
  unfold code at hcode hnext ⊢
  rw [Assembly.patchHere, Assembly.patchAddress, Array.toList_modify, hnext, hcode, modify_append_cons]

theorem length_code_patchHere (c : Compiler) (patch : Patch) :
    (code { c with assembly := c.assembly.patchHere patch }).length = c.code.length := by
  simp [code, Assembly.patchHere, Assembly.patchAddress]

/-- An open instruction whose target is the end of the code after it. -/
theorem Writes.patchHere {c c₁ c₂ : Compiler} {opcode : Opcode} {level : Int64} {patch : Patch}
    (hopen : assembleOpen (·.emitOpen opcode level) c = .ok patch c₁) {draft final : List Instr}
    (h : Writes link c₁ draft final c₂) :
    Writes link c (⟨opcode, level, .ofNat c₂.code.length⟩ :: draft)
      (⟨opcode, level, .ofNat c₂.code.length⟩ :: final)
      { c₂ with assembly := c₂.assembly.patchHere patch } := by
  obtain ⟨rfl, hcode, hentries, hpending, hlevel⟩ := open_eq hopen
  obtain ⟨calls, hcalls, hlink⟩ := h.pending_eq
  rw [hcode, List.length_append] at hlink
  refine ⟨?_, by rw [← hentries, ← h.keeps]; rfl, ⟨calls, ?_, .instr hlink⟩, h.level_eq.trans hlevel⟩
  · refine code_patchHere (i := ⟨opcode, level, 0⟩) ?_
    rw [h.code_eq, hcode, List.append_assoc, List.singleton_append]
  · rw [← hpending]
    exact hcalls

/-- Two open instructions, the target of the first being the end of the second. -/
theorem Writes.branch {c c₁ c₂ c₃ c₄ : Compiler} {opcode opcode' : Opcode} {level level' : Int64}
    {skip leave : Patch} (hskip : assembleOpen (·.emitOpen opcode level) c = .ok skip c₁)
    {draft final : List Instr} (h : Writes link c₁ draft final c₂)
    (hleave : assembleOpen (·.emitOpen opcode' level') c₂ = .ok leave c₃) {draft' final' : List Instr}
    (h' : Writes link { c₃ with assembly := c₃.assembly.patchHere skip } draft' final' c₄) :
    Writes link c
      (⟨opcode, level, .ofNat c₃.code.length⟩ :: draft
        ++ ⟨opcode', level', .ofNat c₄.code.length⟩ :: draft')
      (⟨opcode, level, .ofNat c₃.code.length⟩ :: final
        ++ ⟨opcode', level', .ofNat c₄.code.length⟩ :: final')
      { c₄ with assembly := c₄.assembly.patchHere leave } := by
  obtain ⟨rfl, hc₁, hentries, hpending, hlevel⟩ := open_eq hskip
  obtain ⟨rfl, hc₃, hentries', hpending', hlevel'⟩ := open_eq hleave
  obtain ⟨calls, hcalls, hlink⟩ := h.pending_eq
  obtain ⟨calls', hcalls', hlink'⟩ := h'.pending_eq
  have hopen : c₃.code = c.code ++ ⟨opcode, level, 0⟩ :: (draft ++ [⟨opcode', level', 0⟩]) := by
    rw [hc₃, h.code_eq, hc₁]
    simp
  have hpatched := code_patchHere hopen
  have hcode : c₄.code = (c.code ++ ⟨opcode, level, .ofNat c₃.code.length⟩ :: draft)
      ++ ⟨opcode', level', 0⟩ :: draft' := by
    rw [h'.code_eq, hpatched]
    simp
  have hlength : (c.code ++ ⟨opcode, level, .ofNat c₃.code.length⟩ :: draft).length = c₂.code.length := by
    rw [h.code_eq, hc₁]
    simp
  refine ⟨?_, ?_, ⟨calls ++ calls', ?_, ?_⟩, ?_⟩
  · rw [← hlength, code_patchHere hcode]
    simp
  · rw [← hentries, ← h.keeps, ← hentries']
    exact h'.entries_eq
  · rw [← hpending, ← List.append_assoc, ← hcalls, ← hpending']
    exact hcalls'
  · rw [hc₁, List.length_append] at hlink
    rw [hpatched] at hlink'
    refine (Linking.instr hlink).append (.instr ?_)
    simpa [Nat.add_assoc] using hlink'
  · exact h'.level_eq.trans (hlevel'.trans (h.level_eq.trans hlevel))

mutual

theorem emitStmt_writes {level : Nat} {s : Stmt} {c c' : Compiler} {u : Unit}
    (hlevel : c.level = level) (h : emitStmt s c = .ok u c') :
    s.Uses Usage.Admits ∧
      Writes link c (s.code .draft level c.code.length) (s.code link level c.code.length) c' := by
  cases s with
  | assign target value position =>
      unfold emitStmt at h
      rw [Action.bind_eq_ok] at h
      obtain ⟨_, c₁, hvalue, h⟩ := h
      obtain ⟨huses, hvalue⟩ := emitExpr_writes link hlevel hvalue
      obtain ⟨htarget, h⟩ := store_writes link (hvalue.level_eq.trans hlevel) h
      exact ⟨⟨huses, htarget⟩, hvalue.trans h⟩
  | read targets => exact emitReads_writes link hlevel h
  | write values => exact emitWrites_writes link hlevel h
  | call callee position =>
      unfold emitStmt at h
      rw [Action.bind_of_ok (currentLevel_apply c), hlevel] at h
      exact emitCall_writes link h
  | ifThen condition body =>
      unfold emitStmt at h
      rw [Action.bind_eq_ok] at h
      obtain ⟨_, c₁, htest, h⟩ := h
      rw [Action.bind_eq_ok] at h
      obtain ⟨skip, c₂, hskip, h⟩ := h
      rw [Action.bind_eq_ok] at h
      obtain ⟨_, c₃, hbody, h⟩ := h
      obtain ⟨huses, htest⟩ := emitExpr_writes link hlevel htest
      have hlevel₂ : c₂.level = level := (open_eq hskip).2.2.2.2.trans (htest.level_eq.trans hlevel)
      obtain ⟨huses', hbody⟩ := emitStmt_writes hlevel₂ hbody
      cases h
      refine ⟨⟨huses, huses'⟩, ?_⟩
      have hbase : c₂.code.length = c.code.length + (condition.code level).length + 1 := by
        simp [(open_eq hskip).2.1, htest.length_eq]
      have h := htest.trans (Writes.patchHere hskip hbody)
      rw [hbody.length_eq, hbase, Stmt.length_code] at h
      simp only [Stmt.code_ifThen]
      exact h
  | ifElse condition body alternative =>
      unfold emitStmt at h
      rw [Action.bind_eq_ok] at h
      obtain ⟨_, c₁, htest, h⟩ := h
      rw [Action.bind_eq_ok] at h
      obtain ⟨skip, c₂, hskip, h⟩ := h
      rw [Action.bind_eq_ok] at h
      obtain ⟨_, c₃, hbody, h⟩ := h
      rw [Action.bind_eq_ok] at h
      obtain ⟨leave, c₄, hleave, h⟩ := h
      rw [Action.bind_eq_ok] at h
      obtain ⟨_, c₅, hpatch, h⟩ := h
      rw [Action.bind_eq_ok] at h
      obtain ⟨_, c₆, halt, h⟩ := h
      obtain ⟨huses, htest⟩ := emitExpr_writes link hlevel htest
      have hlevel₂ : c₂.level = level := (open_eq hskip).2.2.2.2.trans (htest.level_eq.trans hlevel)
      obtain ⟨huses', hbody⟩ := emitStmt_writes hlevel₂ hbody
      have hlevel₅ : c₅.level = level := by
        cases hpatch
        exact (open_eq hleave).2.2.2.2.trans (hbody.level_eq.trans hlevel₂)
      obtain ⟨huses'', halt⟩ := emitStmt_writes hlevel₅ halt
      cases hpatch
      cases h
      refine ⟨⟨huses, huses', huses''⟩, ?_⟩
      simp only [Stmt.code_ifElse, List.append_assoc]
      have hbase : c₂.code.length = c.code.length + (condition.code level).length + 1 := by
        simp [(open_eq hskip).2.1, htest.length_eq]
      have hbase' : c₄.code.length = c.code.length + (condition.code level).length + 1
          + body.size level + 1 := by
        simp [(open_eq hleave).2.1, hbody.length_eq, hbase]
      have hlength : c₆.code.length = c₄.code.length + alternative.size level := by
        rw [halt.length_eq, length_code_patchHere, Stmt.length_code]
      have h := htest.trans (Writes.branch hskip hbody hleave halt)
      rw [hlength, length_code_patchHere, hbase', hbase] at h
      exact h
  | whileDo condition body =>
      unfold emitStmt at h
      rw [Action.bind_of_ok (here_apply c), Action.bind_eq_ok] at h
      obtain ⟨_, c₁, htest, h⟩ := h
      rw [Action.bind_eq_ok] at h
      obtain ⟨leave, c₂, hleave, h⟩ := h
      rw [Action.bind_eq_ok] at h
      obtain ⟨_, c₃, hbody, h⟩ := h
      rw [Action.bind_eq_ok] at h
      obtain ⟨_, c₄, hjump, h⟩ := h
      obtain ⟨huses, htest⟩ := emitExpr_writes link hlevel htest
      have hlevel₂ : c₂.level = level := (open_eq hleave).2.2.2.2.trans (htest.level_eq.trans hlevel)
      obtain ⟨huses', hbody⟩ := emitStmt_writes hlevel₂ hbody
      have hjump := assemble_writes link (fun _ => rfl) hjump
      cases h
      refine ⟨⟨huses, huses'⟩, ?_⟩
      have hbase : c₂.code.length = c.code.length + (condition.code level).length + 1 := by
        simp [(open_eq hleave).2.1, htest.length_eq]
      have h := htest.trans (Writes.patchHere hleave (hbody.trans hjump))
      rw [hjump.length_eq, hbody.length_eq, hbase, next_eq, Stmt.length_code] at h
      simp only [Stmt.code_whileDo, List.append_assoc, List.cons_append]
      exact h
  | sequence body => exact emitStmts_writes hlevel h
  | ret => exact ⟨trivial, assemble_writes link (fun _ => rfl) h⟩

theorem emitStmts_writes {level : Nat} {ss : List Stmt} {c c' : Compiler} {u : Unit}
    (hlevel : c.level = level) (h : emitStmts ss c = .ok u c') :
    Stmt.AllUse Usage.Admits ss ∧
      Writes link c (Stmt.codes .draft level c.code.length ss) (Stmt.codes link level c.code.length ss) c' := by
  cases ss with
  | nil =>
      obtain ⟨-, rfl⟩ := Action.pure_eq_ok.mp h
      exact ⟨trivial, .refl c⟩
  | cons s rest =>
      unfold emitStmts at h
      rw [Action.bind_eq_ok] at h
      obtain ⟨_, c₁, hs, h⟩ := h
      obtain ⟨huses, hs⟩ := emitStmt_writes hlevel hs
      obtain ⟨hrest, h⟩ := emitStmts_writes (hs.level_eq.trans hlevel) h
      refine ⟨⟨huses, hrest⟩, ?_⟩
      rw [hs.length_eq, Stmt.length_code] at h
      simp only [Stmt.codes_cons]
      exact hs.trans h

end

/-! ## Blocks and entries -/

variable (link)

theorem report_writes {level : Log.Level} {text : String} {c c' : Compiler} {u : Unit}
    (h : report level text c = .ok u c') : Writes link c [] [] c' := by
  cases h
  exact ⟨by simp [code], rfl, ⟨[], by simp, .nil⟩, rfl⟩

/-- Work at another level, which is there only for the time of the work. -/
theorem atLevel_lays {level : Nat} {work : Compile Unit} {c c' : Compiler} {u : Unit}
    (h : atLevel level work c = .ok u c') :
    ∃ c₁, work { c with level := level } = .ok () c₁ ∧
      ∀ draft final entries, Lays link { c with level := level } draft final entries c₁ →
        Lays link c draft final entries c' := by
  unfold atLevel at h
  rw [Action.bind_of_ok (currentLevel_apply c), Action.bind_of_ok (Action.modify_apply ..),
    Action.bind_eq_ok] at h
  obtain ⟨_, c₁, hwork, h⟩ := h
  cases h
  exact ⟨c₁, hwork, fun _ _ _ hlays => ⟨hlays.code_eq, hlays.entries_eq, hlays.pending_eq, rfl⟩⟩

theorem recordEntry_lays {x : Symbol} {c c' : Compiler} {u : Unit}
    (h : recordEntry x c = .ok u c') :
    Usage.Admits .callee x ∧ Lays link c [] [] [(x.procedureId, c.code.length)] c' := by
  unfold recordEntry at h
  unfold Usage.Admits Symbol.procedureId
  cases hx : x.binding with
  | proc declared id =>
      simp only [hx, Action.bind_eq_ok] at h
      obtain ⟨entry, c₁, hentry, _, c₂, hreport, h⟩ := h
      cases hentry
      cases hreport
      cases h
      exact ⟨trivial, by simp [code], by simp [next_eq], ⟨[], by simp, .nil⟩, rfl⟩
  | var declared slot => simp [hx] at h
  | const value => simp [hx] at h

mutual

theorem emitBlock_lays {b : Block} {c c' : Compiler} {u : Unit} (h : emitBlock b c = .ok u c') :
    b.body.Uses Usage.Admits ∧ (∀ p ∈ b.places c.code.length, Placed.Proper p) ∧
      Lays link c (b.code .draft c.code.length) (b.code link c.code.length)
        ((b.places c.code.length).map Placed.record) c' := by
  cases b with
  | mk level count consts vars procedures body =>
      unfold emitBlock at h
      obtain ⟨c₅, h, hlays⟩ := atLevel_lays link h
      rw [Action.bind_of_ok (here_apply _), Action.bind_eq_ok] at h
      obtain ⟨_, c₁, hreport, h⟩ := h
      rw [Action.bind_eq_ok] at h
      obtain ⟨_, c₂, henter, h⟩ := h
      rw [Action.bind_eq_ok] at h
      obtain ⟨_, c₃, hbody, h⟩ := h
      rw [Action.bind_eq_ok] at h
      obtain ⟨_, c₄, hret, h⟩ := h
      have hreport := report_writes link hreport
      have henter := assemble_writes link (fun _ => rfl) henter
      have hlevel : c₂.level = level := (hreport.trans henter).level_eq
      obtain ⟨huses, hbody⟩ := emitStmt_writes hlevel hbody
      have hret := assemble_writes link (fun _ => rfl) hret
      obtain ⟨hprocs, h⟩ := emitProcedures_lays h
      have hown := ((hreport.trans henter).trans hbody).trans hret
      have hbase : c₂.code.length = c.code.length + 1 := by
        rw [henter.length_eq, hreport.length_eq]
        rfl
      have hnext : c₄.code.length = c.code.length + (body.size level + 2) := by
        rw [hret.length_eq, hbody.length_eq, hbase, Stmt.length_code, List.length_singleton]
        omega
      rw [hnext] at h hprocs
      rw [hbase] at hown
      refine ⟨huses, hprocs, ?_⟩
      rw [Block.code_eq, Block.code_eq]
      exact hlays _ _ _ (hown.trans h)

theorem emitProcedures_lays {ps : List (Procedure Block)} {c c' : Compiler} {u : Unit}
    (h : emitProcedures ps c = .ok u c') :
    (∀ p ∈ Block.placesIn c.code.length ps, Placed.Proper p) ∧
      Lays link c (Block.codes .draft c.code.length ps) (Block.codes link c.code.length ps)
        ((Block.placesIn c.code.length ps).map Placed.record) c' := by
  cases ps with
  | nil =>
      obtain ⟨-, rfl⟩ := Action.pure_eq_ok.mp h
      exact ⟨by simp [Block.placesIn], .refl c⟩
  | cons p rest =>
      obtain ⟨x, block, position⟩ := p
      unfold emitProcedures at h
      rw [Action.bind_eq_ok] at h
      obtain ⟨_, c₁, hentry, h⟩ := h
      rw [Action.bind_eq_ok] at h
      obtain ⟨_, c₂, hblock, h⟩ := h
      obtain ⟨hx, hentry⟩ := recordEntry_lays link hentry
      obtain ⟨hbody, hinner, hblock⟩ := emitBlock_lays hblock
      obtain ⟨hrest, h⟩ := emitProcedures_lays h
      have hbase : c₁.code.length = c.code.length := hentry.length_eq
      have hnext : c₂.code.length = c.code.length + block.size := by
        rw [hblock.length_eq, hbase, Block.length_code]
      rw [hbase] at hblock hinner
      rw [hnext] at h hrest
      refine ⟨?_, ?_⟩
      · intro p hp
        simp only [Block.placesIn, List.mem_cons, List.mem_append] at hp
        rcases hp with rfl | hp | hp
        · exact ⟨hx, hbody⟩
        · exact hinner p hp
        · exact hrest p hp
      · rw [Block.codes_cons, Block.codes_cons]
        simp only [Block.placesIn, List.map_cons, List.map_append]
        exact (hentry.trans hblock).trans h

end

variable {link}

/-! ## Linking calls -/

/-- A call that waits gets the distance to the block that declares its procedure, and its entry. -/
theorem resolveCall_code {call : PendingCall} {level : Nat} {pre post : List Instr} {c c' : Compiler}
    {u : Unit} (hposition : call.patch.position = pre.length)
    (hcode : c.code = pre ++ ⟨.call, .ofNat level, 0⟩ :: post) (h : resolveCall call c = .ok u c') :
    ∃ entry, c.entries.lookup call.callee = some entry ∧ c'.entries = c.entries ∧
      c'.code = pre ++ ⟨.call, .ofNat level - .ofNat call.calleeLevel, .ofNat entry⟩ :: post := by
  have hlevel : c.assembly.levelAt call.patch = .ofNat level := by
    unfold code at hcode
    unfold Assembly.levelAt
    rw [hposition, ← Array.getElem?_toList, hcode]
    simp
  unfold resolveCall at h
  rw [Action.bind_of_ok (Action.get_apply c)] at h
  cases hentry : c.entryOf call.callee with
  | none => simp [hentry] at h
  | some entry =>
      simp only [hentry] at h
      rw [Action.bind_of_ok (Action.get_apply c), hlevel] at h
      split at h
      · simp at h
      · next hdistance =>
        rw [Action.bind_eq_ok] at h
        obtain ⟨_, c₁, hreport, h⟩ := h
        cases hreport
        cases h
        refine ⟨entry, hentry, rfl, ?_⟩
        unfold code at hcode ⊢
        simp only [Assembly.patchCall, Assembly.patchAddress, Array.toList_modify, hcode, hposition,
          modify_append_cons, Operand.ofNat_toNat hdistance]

/-- Linking gives the final code, if `link` is what the recorded entries say. -/
theorem resolveCalls_code {entries : List (Nat × Nat)}
    (hentries : ∀ level x declared id entry, Symbol.binding x = .proc declared id →
      entries.lookup id = some entry →
      link level x = ⟨.call, .ofNat level - .ofNat declared, .ofNat entry⟩)
    {base : Nat} {draft final : List Instr} {calls : List PendingCall}
    (hlink : Linking link base draft calls final) {pre post : List Instr} (hbase : pre.length = base)
    {c c' : Compiler} {u : Unit} (hcode : c.code = pre ++ draft ++ post) (hc : c.entries = entries)
    (h : resolveCalls calls c = .ok u c') : c'.code = pre ++ final ++ post := by
  induction hlink generalizing pre c with
  | nil =>
      obtain ⟨-, rfl⟩ := Action.pure_eq_ok.mp h
      exact hcode
  | @instr base i draft calls final _ ih =>
      have hlength : (pre ++ [i]).length = base + 1 := by simp [hbase]
      simpa using ih hlength (by simp [hcode]) hc h
  | @call base level x declared id draft calls final hx _ ih =>
      unfold resolveCalls at h
      rw [Action.bind_eq_ok] at h
      obtain ⟨_, c₁, hcall, h⟩ := h
      have hopen : c.code = pre ++ ⟨.call, .ofNat level, 0⟩ :: (draft ++ post) := by
        simp [hcode, Linkage.draft]
      obtain ⟨entry, hentry, hc₁, hcode₁⟩ := resolveCall_code hbase.symm hopen hcall
      rw [hc] at hentry hc₁
      rw [← hentries level x declared id entry hx hentry] at hcode₁
      have hlength : (pre ++ [link level x]).length = base + 1 := by simp [hbase]
      simpa using ih hlength (by simp [hcode₁]) hc₁ h

end Compiler

/-! ## Programs -/

theorem Block.finalize_code {program : Block} {c c' : Compiler} {u : Unit}
    (hlays : Compiler.Lays program.linkage .empty (program.code .draft 0) (program.code program.linkage 0)
      ((program.places 0).map Placed.record) c)
    (h : Compiler.finalize c = .ok u c') : c'.code = program.code program.linkage 0 := by
  obtain ⟨calls, hcalls, hlink⟩ := hlays.pending_eq
  unfold Compiler.finalize at h
  rw [Action.bind_of_ok (Action.get_apply c), Action.bind_eq_ok] at h
  obtain ⟨_, c₁, hclear, h⟩ := h
  cases hclear
  obtain rfl : c.pending.toList = calls := hcalls
  have hcode : Compiler.code { c with pending := #[] } = [] ++ program.code .draft 0 ++ [] := by
    rw [List.append_nil]
    exact hlays.code_eq
  have hentries : c.entries = program.entries := by
    rw [hlays.entries_eq]
    exact List.append_nil _
  have hlinkage : ∀ level x declared id entry, Symbol.binding x = .proc declared id →
      program.entries.lookup id = some entry →
      program.linkage level x = ⟨.call, .ofNat level - .ofNat declared, .ofNat entry⟩ := by
    intro level x declared id entry hx hentry
    simp only [Block.linkage, hx, hentry]
  exact (Compiler.resolveCalls_code hlinkage hlink rfl hcode hentries h).trans (List.append_nil _)

/-- The code of a program is that of its tree, and its names are used as they may be. -/
theorem Block.compile_eq {program : Block} {code : Code} (h : program.compile = .ok code) :
    code.toList = program.code program.linkage 0 ∧ program.body.Uses Usage.Admits ∧
      ∀ p ∈ program.places 0, Placed.Proper p := by
  unfold Block.compile at h
  split at h
  · next code' c' hrun =>
    cases h
    unfold Compiler.compileProgram at hrun
    rw [Action.bind_eq_ok] at hrun
    obtain ⟨_, c₁, hblock, hrun⟩ := hrun
    obtain ⟨hbody, hplaces, hlays⟩ := Compiler.emitBlock_lays program.linkage hblock
    rw [Action.bind_eq_ok] at hrun
    obtain ⟨_, c₂, hfinal, hrun⟩ := hrun
    rw [Action.bind_of_ok (Action.get_apply c₂)] at hrun
    have hcode : c₂.code = program.code program.linkage 0 := program.finalize_code hlays hfinal
    split at hrun
    · rw [Action.bind_eq_ok] at hrun
      obtain ⟨_, c₃, hreport, hrun⟩ := hrun
      cases hreport
      cases hrun
      exact ⟨hcode, hbody, hplaces⟩
    · simp at hrun
  · cases h

end PLZero
