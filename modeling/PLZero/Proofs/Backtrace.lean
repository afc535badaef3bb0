import Mathlib
import PLZero.Proofs.Layout.Segments
import PLZero.Proofs.Limits
import PLZero.Proofs.Renaming
import PLZero.Proofs.Sparing

/-!
# Backtraces

A step that fails has used up values and moved on by the time its failure is put together, and still the
failure shows the instruction that failed and the calls that were active. In any code these are the calls
that were made and have not returned; in the code of a source, control was in the segment of the innermost
one, and each was made from the segment of the one before it.
-/

namespace PLZero

/-! ## Calls in progress -/

/-- The calls that are active after the instruction at `pc` has been carried out. -/
def Instr.activeAfter (i : Instr) (pc : Nat) (active : List CallSite) : List CallSite :=
  if i.opcode = .call then active ++ [⟨i.address.toInt.toNat, pc + 1⟩]
  else if i.Applies .ret then active.dropLast
  else active

theorem Instr.Stays.activeAfter_eq {i : Instr} (h : i.Stays) (pc : Nat) (active : List CallSite) :
    i.activeAfter pc active = active := by
  rw [Instr.activeAfter, if_neg h.not_call, if_neg h.not_ret]

/-- The calls that are active after a number of steps, told from the instructions of the run alone. -/
def Machine.activeFor (limits : Limits) (code : Code) : Nat → List CallSite → Machine → List CallSite
  | 0, active, _ => active
  | n + 1, active, m =>
    match code[m.pc]? with
    | none => active
    | some i =>
      match step limits code.size i m with
      | .ok _ m' => activeFor limits code n (i.activeAfter m.pc active) m'
      | .error .. => active

/-- The instruction before the return address is a call of the entry. -/
def Code.MakesCall (code : Code) (site : CallSite) : Prop :=
  ∃ pc i, site.returnAddress = pc + 1 ∧ code[pc]? = some i ∧ i.opcode = .call ∧ i.address.toInt = site.entry

/-- Where control may be in a block, which is given by its entry: only calls and returns lead elsewhere. -/
structure Code.Confines (code : Code) (R : Nat → Nat → Prop) : Prop where
  start : R 0 0
  next : ∀ {entry pc : Nat} {i : Instr}, R entry pc → code[pc]? = some i → ¬ i.Applies .ret → R entry (pc + 1)
  jump : ∀ {entry pc target : Nat} {i : Instr}, R entry pc → code[pc]? = some i →
    i.opcode = .jump ∨ i.opcode = .jumpIfFalse → CallStack.slot? i.address = some target → R entry target
  call : ∀ {pc entry : Nat} {i : Instr}, code[pc]? = some i → i.opcode = .call →
    CallStack.slot? i.address = some entry → R entry entry

theorem Code.confines_true (code : Code) : code.Confines fun _ _ => True :=
  ⟨trivial, fun _ _ _ => trivial, fun _ _ _ _ => trivial, fun _ _ _ => trivial⟩

/-- The calls, outermost first, that are in progress while control is at an index of the code. -/
inductive InProgress (code : Code) (R : Nat → Nat → Prop) : List CallSite → Nat → Prop where
  | program {pc : Nat} : R 0 pc → InProgress code R [⟨0, code.size⟩] pc
  | call {sites : List CallSite} {pc pc' entry : Nat} {i : Instr} : InProgress code R sites pc →
      code[pc]? = some i → i.opcode = .call → CallStack.slot? i.address = some entry → R entry pc' →
      InProgress code R (sites ++ [⟨entry, pc + 1⟩]) pc'

@[simp] theorem CallStack.sites_push (below : Array Frame) (f : Frame) :
    sites ⟨below.push f⟩ = sites ⟨below⟩ ++ [f.site] := by
  simp [sites]

namespace InProgress

variable {code : Code} {R : Nat → Nat → Prop} {sites : List CallSite} {pc pc' : Nat}

theorem head?_eq (h : InProgress code R sites pc) : sites.head? = some ⟨0, code.size⟩ := by
  induction h with
  | program => rfl
  | call _ _ _ _ _ ih => rw [List.head?_append, ih, Option.some_or]

theorem ne_nil (h : InProgress code R sites pc) : sites ≠ [] := by
  rintro rfl
  cases h.head?_eq

theorem current (h : InProgress code R sites pc) : ∀ site ∈ sites.getLast?, R site.entry pc := by
  cases h with
  | program hpc => simpa using hpc
  | call _ _ _ _ hpc => simpa using hpc

theorem makesCall (h : InProgress code R sites pc) : ∀ site ∈ sites.tail, code.MakesCall site := by
  induction h with
  | program => simp
  | @call sites pc _ entry i h hi hcall hslot _ ih =>
      obtain ⟨hneg, hentry⟩ := Operand.slot?_eq_some.mp hslot
      rw [Int64.lt_iff_toInt_lt, Int.not_lt] at hneg
      rw [List.tail_append_of_ne_nil h.ne_nil]
      intro site hsite
      rcases List.mem_append.mp hsite with hsite | hsite
      · exact ih site hsite
      · obtain rfl := List.mem_singleton.mp hsite
        refine ⟨pc, i, rfl, hi, hcall, ?_⟩
        rw [← hentry]
        exact (Int.toNat_of_nonneg hneg).symm

/-- Every call was made where control could be in the block of the one before it. -/
theorem isChain (h : InProgress code R sites pc) :
    sites.IsChain fun caller callee => R caller.entry (callee.returnAddress - 1) := by
  induction h with
  | program => exact List.isChain_singleton _
  | call h _ _ _ _ ih =>
      refine List.isChain_append.mpr ⟨ih, List.isChain_singleton _, fun caller hcaller callee hcallee => ?_⟩
      cases hcallee
      exact h.current caller hcaller

/-- Control goes elsewhere in the current block. -/
theorem move (h : InProgress code R sites pc) (hpc : ∀ entry, R entry pc → R entry pc') :
    InProgress code R sites pc' := by
  cases h with
  | program h => exact .program (hpc 0 h)
  | call h hi hcall hslot h' => exact .call h hi hcall hslot (hpc _ h')

/-- A return goes on after the call, or to the end if it is the one from the program. -/
theorem leave (hR : code.Confines R) {site : CallSite} (h : InProgress code R (sites ++ [site]) pc) :
    InProgress code R sites site.returnAddress ∨ sites = [] ∧ site.returnAddress = code.size := by
  generalize hall : sites ++ [site] = all at h
  cases h with
  | program =>
      have hall : sites ++ [site] = [] ++ [⟨0, code.size⟩] := hall
      obtain ⟨hsites, hsite⟩ := List.append_inj' hall rfl
      cases hsite
      exact .inr ⟨hsites, rfl⟩
  | call h hi hcall =>
      obtain ⟨rfl, hsite⟩ := List.append_inj' hall rfl
      cases hsite
      exact .inl (h.move fun _ hpc => hR.next hpc hi fun hret => by simp [hret.1] at hcall)

/-- What one instruction makes of the calls in progress, and that it leads to where the innermost one may be. -/
theorem transition {limits : Limits} {i : Instr} {frames frames' : Array Frame} (hR : code.Confines R)
    (h : InProgress code R (CallStack.sites ⟨frames⟩) pc) (hi : code[pc]? = some i)
    (ht : Transition limits code.size i pc frames frames' pc') :
    CallStack.sites ⟨frames'⟩ = i.activeAfter pc (CallStack.sites ⟨frames⟩) ∧
      (InProgress code R (CallStack.sites ⟨frames'⟩) pc' ∨ CallStack.sites ⟨frames'⟩ = [] ∧ pc' = code.size) := by
  cases ht with
  | @work below f g _ hstays hg _ hpc =>
      have hsites : CallStack.sites ⟨below.push g⟩ = CallStack.sites ⟨below.push f⟩ := by
        simp [hg.site_eq]
      rw [hsites, hstays.activeAfter_eq]
      refine ⟨rfl, .inl (h.move fun entry hentry => ?_)⟩
      rcases hpc with rfl | ⟨hjump, hslot, -⟩
      · exact hR.next hentry hi hstays.not_ret
      · exact hR.jump hentry hi hjump hslot
  | @store below f j slot v hstore =>
      have hstays : i.Stays := .of_opcode (by simp [hstore]) (by simp [hstore])
      have hsites : CallStack.sites ⟨(below.push f.drop).modify j (·.setLocal slot v)⟩
          = CallStack.sites ⟨below.push f⟩ := by
        rw [CallStack.sites_modify (f := (·.setLocal slot v)) fun _ => rfl]
        simp [Frame.site, Frame.drop]
      rw [hsites, hstays.activeAfter_eq]
      exact ⟨rfl, .inl (h.move fun _ hentry => hR.next hentry hi hstays.not_ret)⟩
  | call hcall _ hslot =>
      rw [CallStack.sites_push, Instr.activeAfter, if_pos hcall, (Operand.slot?_eq_some.mp hslot).2]
      exact ⟨rfl, .inl (.call h hi hcall hslot (hR.call hi hcall hslot))⟩
  | ret hret =>
      have hcall : i.opcode ≠ .call := by simp [hret.1]
      rw [CallStack.sites_push] at h ⊢
      rw [Instr.activeAfter, if_neg hcall, if_pos hret, List.dropLast_concat]
      exact ⟨rfl, h.leave hR⟩

end InProgress

/-! ## Runs -/

namespace Machine

/-- The frames of the machine are the calls in progress, unless the program has returned. -/
def Accounted (code : Code) (R : Nat → Nat → Prop) (m : Machine) : Prop :=
  InProgress code R m.sites m.pc ∨ m.sites = [] ∧ m.pc = code.size

section

variable {limits : Limits} {code : Code} {R : Nat → Nat → Prop} {i : Instr} {m m' : Machine}

theorem Accounted.inProgress (h : Accounted code R m) (hi : code[m.pc]? = some i) :
    InProgress code R m.sites m.pc := by
  refine h.resolve_right fun hend => ?_
  rw [hend.2] at hi
  simp at hi

/-- A step keeps the books: the calls in progress are those from before, as the instruction changes them. -/
theorem Accounted.step (hR : code.Confines R) (h : Accounted code R m) (hi : code[m.pc]? = some i)
    (hstep : Machine.step limits code.size i m = .ok () m') :
    m'.sites = i.activeAfter m.pc m.sites ∧ Accounted code R m' := by
  have hprogress := h.inProgress hi
  have hframes : m.stack.frames.size ≠ 0 := by
    have hne := hprogress.ne_nil
    simpa [sites, CallStack.sites] using hne
  obtain ⟨below, f, hpush⟩ := Array.eq_push_of_size_ne_zero hframes
  obtain ⟨⟨ht, -⟩, -⟩ := (step_moved limits code.size i hpush).ok hstep
  exact hprogress.transition hR hi ht

theorem Accounted.run (hR : code.Confines R) (h : Accounted code R m) {n : Nat}
    (hrun : runFor limits code n m = .running m') :
    m'.sites = activeFor limits code n m.sites m ∧ Accounted code R m' := by
  induction n generalizing m with
  | zero =>
      cases hrun
      exact ⟨rfl, h⟩
  | succ n ih =>
      cases hi : code[m.pc]? with
      | none =>
          rw [runFor_halted hi] at hrun
          cases hrun
      | some i =>
          cases hstep : Machine.step limits code.size i m with
          | error fault m'' =>
              rw [runFor_fault hi hstep] at hrun
              cases hrun
          | ok _ m'' =>
              obtain ⟨hsites, hnext⟩ := h.step hR hi hstep
              rw [runFor_step hi hstep] at hrun
              simp only [activeFor, hi, hstep, ← hsites]
              exact ih hnext hrun

theorem accounted_boot (hR : code.Confines R) (input : Input) (output : Output) :
    Accounted code R (.boot code input output) := .inl (.program hR.start)

end

end Machine

/-! ## Segments -/

/-- The index lies in the segment of the block whose code starts at the entry. -/
def InSegment (program : Block) (segments : List (List Instr)) (entry index : Nat) : Prop :=
  ∃ k block, program.blocks[k]? = some block ∧ segmentStart segments k = entry ∧
    entry ≤ index ∧ index < segmentStart segments (k + 1)

theorem segmentStart_succ {segments : List (List Instr)} {k : Nat} {segment : List Instr}
    (h : segments[k]? = some segment) :
    segmentStart segments (k + 1) = segmentStart segments k + segment.length := by
  simp [segmentStart, List.take_add_one, h]

theorem Code.Counts.slot?_eq {code : Code} {address : Int64} {n : Nat} (h : code.Counts address n)
    (hsize : code.size < Decimal.int64Bound) {target : Nat} (htarget : CallStack.slot? address = some target) :
    n = target := by
  rw [← (Operand.slot?_eq_some.mp htarget).2, h.2 hsize, Int.toNat_natCast]

namespace Segmentation

variable {program : Block} {code : Code} {segments : List (List Instr)} {k pc : Nat} {b : Block} {i : Instr}
  {segment : List Instr}

theorem exists_segment (h : Segmentation program code segments) (hb : program.blocks[k]? = some b) :
    ∃ segment, segments[k]? = some segment := by
  have hlt := (List.getElem?_eq_some_iff.mp hb).1
  rw [← h.length_eq] at hlt
  exact ⟨_, List.getElem?_eq_getElem hlt⟩

theorem exists_block (h : Segmentation program code segments) (hsegment : segments[k]? = some segment) :
    ∃ b, program.blocks[k]? = some b := by
  have hlt := (List.getElem?_eq_some_iff.mp hsegment).1
  rw [h.length_eq] at hlt
  exact ⟨_, List.getElem?_eq_getElem hlt⟩

theorem getElem?_segment (h : Segmentation program code segments) (hsegment : segments[k]? = some segment)
    (hi : code[pc]? = some i) (hle : segmentStart segments k ≤ pc) (hlt : pc < segmentStart segments (k + 1)) :
    segment[pc - segmentStart segments k]? = some i := by
  have hsplit : code.toList
      = (segments.take k).flatten ++ (segment ++ (segments.drop (k + 1)).flatten) := by
    obtain ⟨hk, rfl⟩ := List.getElem?_eq_some_iff.mp hsegment
    rw [h.flatten_eq, ← List.flatten_cons, List.getElem_cons_drop, ← List.flatten_append, List.take_append_drop]
  have hindex : pc - segmentStart segments k < segment.length := by
    rw [segmentStart_succ hsegment] at hlt
    omega
  rw [← Array.getElem?_toList, hsplit, List.getElem?_append_right hle] at hi
  exact (List.getElem?_append_left hindex).symm.trans hi

/-- The first index of a block is in its segment. -/
theorem inSegment_start (h : Segmentation program code segments) (hb : program.blocks[k]? = some b) :
    InSegment program segments (segmentStart segments k) (segmentStart segments k) := by
  obtain ⟨segment, hsegment⟩ := h.exists_segment hb
  obtain ⟨body, hform, -⟩ := (h.segment k b segment hb hsegment).form
  refine ⟨k, b, hb, rfl, Nat.le_refl _, ?_⟩
  rw [segmentStart_succ hsegment, hform]
  simp

theorem inSegment_next (h : Segmentation program code segments) {entry : Nat}
    (hentry : InSegment program segments entry pc) (hi : code[pc]? = some i) (hret : ¬ i.Applies .ret) :
    InSegment program segments entry (pc + 1) := by
  obtain ⟨k, b, hb, rfl, hle, hlt⟩ := hentry
  obtain ⟨segment, hsegment⟩ := h.exists_segment hb
  obtain ⟨body, hform, -⟩ := (h.segment k b segment hb hsegment).form
  have hget := h.getElem?_segment hsegment hi hle hlt
  refine ⟨k, b, hb, rfl, by omega, Nat.lt_of_le_of_ne hlt fun hlast => hret ?_⟩
  -- The last instruction of a segment returns.
  rw [segmentStart_succ hsegment] at hlast
  have hindex : pc - segmentStart segments k = segment.length - 1 := by omega
  rw [hindex, ← List.getLast?_eq_getElem?, hform, List.getLast?_concat] at hget
  cases hget
  exact ⟨rfl, Operator.ofCode?_code .ret⟩

theorem inSegment_jump (h : Segmentation program code segments) (hsize : code.size < Decimal.int64Bound)
    {entry target : Nat} (hentry : InSegment program segments entry pc) (hi : code[pc]? = some i)
    (hjump : i.opcode = .jump ∨ i.opcode = .jumpIfFalse) (hslot : CallStack.slot? i.address = some target) :
    InSegment program segments entry target := by
  obtain ⟨k, b, hb, rfl, hle, hlt⟩ := hentry
  obtain ⟨segment, hsegment⟩ := h.exists_segment hb
  have hmem : i ∈ segment := List.mem_of_getElem? (h.getElem?_segment hsegment hi hle hlt)
  obtain ⟨target', hcounts, hlo, hhi⟩ := (h.segment k b segment hb hsegment).jumps i hmem hjump
  obtain rfl := hcounts.slot?_eq hsize hslot
  exact ⟨k, b, hb, rfl, by omega, hhi⟩

theorem inSegment_call (h : Segmentation program code segments) (hsize : code.size < Decimal.int64Bound)
    {entry : Nat} (hi : code[pc]? = some i) (hcall : i.opcode = .call)
    (hslot : CallStack.slot? i.address = some entry) : InSegment program segments entry entry := by
  have hmem : i ∈ segments.flatten := by
    rw [← h.flatten_eq, Array.mem_toList_iff]
    exact Array.mem_of_getElem? hi
  obtain ⟨segment, hsegment, hmem⟩ := List.mem_flatten.mp hmem
  obtain ⟨k, hk⟩ := List.getElem?_of_mem hsegment
  obtain ⟨b, hb⟩ := h.exists_block hk
  have hcalls := (h.segment k b segment hb hk).calls
  have hmem : i ∈ Instr.callsOf segment := by simp [Instr.callsOf, hmem, hcall]
  obtain ⟨x, -, -, -, k', callee, -, hcallee, -, -, -, hcounts⟩ :=
    Grammar.exists_mem_of_forall₂ hcalls hmem
  obtain rfl := hcounts.slot?_eq hsize hslot
  refine h.inSegment_start (b := callee) ?_
  simp [Block.blocks, hcallee]

/-- In the code of a source, only calls and returns lead out of a segment. -/
theorem confines (h : Segmentation program code segments) (hsize : code.size < Decimal.int64Bound) :
    code.Confines (InSegment program segments) :=
  ⟨h.inSegment_start (k := 0) (b := program) rfl, h.inSegment_next, h.inSegment_jump hsize, h.inSegment_call hsize⟩

end Segmentation

/-! ## Failures -/

/-- A step that fails ends the run, and its failure shows where it happened: the instruction, and the calls
that had been made and had not returned. The first of them stands for the program, and each of the others was
made by a call of its entry. In the code of a source, the instruction is in the segment of the last one, and
each call was made in the segment of the one before it. -/
theorem Machine.failure_truthful {limits : Limits} {code : Code} {input : Input} {output : Output} {n : Nat}
    {m m' : Machine} {i : Instr} {fault : Fault}
    (hrun : runFor limits code n (.boot code input output) = .running m) (hi : code[m.pc]? = some i)
    (hstep : step limits code.size i m = .error fault m') :
    ∃ failure, (∀ k, runFor limits code (n + 1 + k) (.boot code input output) = .done (.error failure) m') ∧
      failure.cause = fault ∧ failure.pc = some m.pc ∧ failure.callStack = m.stack.sites ∧
      failure.callStack = activeFor limits code n [⟨0, code.size⟩] (.boot code input output) ∧
      failure.callStack.head? = some ⟨0, code.size⟩ ∧
      (∀ site ∈ failure.callStack.tail, code.MakesCall site) ∧
      ∀ source, (Source.compile source).1 = .ok code → code.size < Decimal.int64Bound →
        ∃ program segments, Source.parse source = .ok program ∧ Segmentation program code segments ∧
          (∀ site ∈ failure.callStack.getLast?, InSegment program segments site.entry m.pc) ∧
          failure.callStack.IsChain fun caller callee =>
            InSegment program segments caller.entry (callee.returnAddress - 1) := by
  have hends : ∀ k, runFor limits code (n + 1 + k) (.boot code input output)
      = .done (.error (m'.failure m.pc fault)) m' := by
    intro k
    rw [Nat.add_assoc, runFor_add hrun, Nat.add_comm, runFor_fault hi hstep]
  have hstack : (m'.failure m.pc fault).callStack = m.stack.sites :=
    (step_error_sites limits code.size i m).error hstep
  obtain ⟨hsites, haccounted⟩ := (accounted_boot code.confines_true input output).run code.confines_true hrun
  have hprogress := haccounted.inProgress hi
  refine ⟨m'.failure m.pc fault, hends, cause_failure _ _ _, rfl, hstack, ?_⟩
  rw [hstack]
  refine ⟨hsites, hprogress.head?_eq, hprogress.makesCall, fun source hcompile hsize => ?_⟩
  obtain ⟨program, hparse, hcode, hresolved⟩ := Source.exists_resolved hcompile
  have hsegments := hresolved.segmentation hcode
  have hR := hsegments.confines hsize
  obtain ⟨-, haccounted⟩ := (accounted_boot hR input output).run hR hrun
  have hprogress := haccounted.inProgress hi
  exact ⟨program, _, hparse, hsegments, hprogress.current, hprogress.isChain⟩

/-! A procedure within a procedure divides by zero. -/

namespace NestedFault

def source : String := "procedure p; procedure q; write 1 / 0; call q; call p."

def code : Code := #[
  ⟨.enter, 0, 3⟩, ⟨.call, 0, 3⟩, .operate .ret,
  ⟨.enter, 0, 3⟩, ⟨.call, 0, 6⟩, .operate .ret,
  ⟨.enter, 0, 3⟩, ⟨.loadConst, 0, 1⟩, ⟨.loadConst, 0, 0⟩, .operate (.binary .div), .operate .write, .operate .ret]

end NestedFault

theorem Machine.failure_truthful_nested :
    ∃ failure m', (∀ k, runFor {} NestedFault.code (8 + k) (.boot NestedFault.code (.ofBytes []) .unlimited)
        = .done (.error failure) m') ∧
      failure.cause = .divisionByZero ∧ failure.pc = some 9 ∧
      failure.callStack = [⟨0, 12⟩, ⟨3, 2⟩, ⟨6, 5⟩] ∧
      (∀ site ∈ failure.callStack.tail, NestedFault.code.MakesCall site) ∧
      ∃ program segments, Source.parse NestedFault.source = .ok program ∧
        Segmentation program NestedFault.code segments ∧
        (∀ site ∈ failure.callStack.getLast?, InSegment program segments site.entry 9) ∧
        failure.callStack.IsChain fun caller callee =>
          InSegment program segments caller.entry (callee.returnAddress - 1) := by
  have hcompile : (Source.compile NestedFault.source).1 = .ok NestedFault.code := by cbv
  have hrun : runFor {} NestedFault.code 7 (.boot NestedFault.code (.ofBytes []) .unlimited)
      = .running ⟨⟨#[⟨12, 0, none, none, #[], #[]⟩, ⟨2, 3, some 0, some 0, #[], #[]⟩,
        ⟨5, 6, some 1, some 1, #[1, 0], #[]⟩]⟩, 9, 7, .ofBytes [], .unlimited⟩ := rfl
  obtain ⟨failure, hends, hcause, hpc, hstack, -, -, hcalls, hsource⟩ := failure_truthful hrun rfl rfl
  exact ⟨failure, _, hends, hcause, hpc, hstack, hcalls, hsource _ hcompile (by decide)⟩

end PLZero
