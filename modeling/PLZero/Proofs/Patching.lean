import PLZero.Assembly
import PLZero.Proofs.Operand

/-!
# Histories of an assembly

An assembly is what the operations done to it have made of it. In a proper history only an open placeholder
is patched. Then the assembly counts the open placeholders, none is patched twice, and a jump or call that
is not open leads to an instruction.
-/

namespace PLZero

namespace Code

def opcodeAt (code : Code) (k : Nat) : Option Opcode := code[k]?.map Instr.opcode

theorem opcodeAt_of_getElem? {code : Code} {k : Nat} {i : Instr} (h : code[k]? = some i) :
    code.opcodeAt k = some i.opcode := by
  rw [opcodeAt, h, Option.map_some]

theorem lt_size_of_opcodeAt {code : Code} {k : Nat} {o : Opcode} (h : code.opcodeAt k = some o) :
    k < code.size := by
  obtain ⟨i, hi, -⟩ := Option.map_eq_some_iff.mp h
  exact (Array.getElem?_eq_some_iff.mp hi).1

/-- The instructions of the first code stand in the second at the same places, up to their operands. -/
def Grows (code code' : Code) : Prop := ∀ k o, code.opcodeAt k = some o → code'.opcodeAt k = some o

theorem Grows.refl (code : Code) : code.Grows code := fun _ _ h => h

theorem Grows.trans {code code' code'' : Code} (h : code.Grows code') (h' : code'.Grows code'') :
    code.Grows code'' := fun k o hk => h' k o (h k o hk)

theorem Grows.size_le {code code' : Code} (h : code.Grows code') : code.size ≤ code'.size := by
  refine Nat.le_of_not_lt fun hlt => ?_
  have hk : code.opcodeAt code'.size = some code[code'.size].opcode :=
    opcodeAt_of_getElem? (Array.getElem?_eq_getElem hlt)
  exact Nat.lt_irrefl _ (lt_size_of_opcodeAt (h _ _ hk))

theorem grows_push (code : Code) (i : Instr) : code.Grows (code.push i) := by
  intro k o h
  have hk := lt_size_of_opcodeAt h
  rwa [opcodeAt, Array.getElem?_push, if_neg (Nat.ne_of_lt hk)]

theorem grows_modify (code : Code) (k : Nat) {f : Instr → Instr} (hf : ∀ i, (f i).opcode = i.opcode) :
    code.Grows (code.modify k f) := by
  intro j o h
  rw [opcodeAt, Array.getElem?_modify]
  split
  · obtain ⟨i, hi, ho⟩ := Option.map_eq_some_iff.mp h
    simp [hi, hf, ho]
  · exact h

end Code

/-- A jump or call leads to an instruction of the code or to the one that comes next. A call leads to the
start of a block, over a number of static links. -/
structure Instr.Lands (code : Code) (i : Instr) (target : Nat) : Prop where
  address_eq : i.address = .ofNat target
  pos : 0 < target
  le_size : target ≤ code.size
  call : i.opcode = .call → ¬ i.level < 0 ∧ code.opcodeAt target = some .enter

theorem Instr.Lands.mono {code code' : Code} {i : Instr} {target : Nat} (h : i.Lands code target)
    (hgrows : code.Grows code') : i.Lands code' target where
  address_eq := h.address_eq
  pos := h.pos
  le_size := Nat.le_trans h.le_size hgrows.size_le
  call := fun hcall => ⟨(h.call hcall).1, hgrows _ _ (h.call hcall).2⟩

/-- A jump that is written with its target, which is no later than the jump itself. -/
def Instr.JumpsBack (i : Instr) (k : Nat) : Prop :=
  i.opcode = .jump ∧ ∃ target, 0 < target ∧ target ≤ k ∧ i.address = .ofNat target

namespace Assembly

/-! ## Operations -/

inductive Op where
  | write (i : Instr)
  | reserve (opcode : Opcode) (level : Int64)
  | patch (p : Patch) (target : Nat)
  | link (p : Patch) (distance entry : Nat)

def perform (a : Assembly) : Op → Assembly
  | .write i => a.emit i
  | .reserve opcode level => (a.emitOpen opcode level).2
  | .patch p target => a.patchAddress p target
  | .link p distance entry => a.patchCall p distance entry

/-- The assembly that a history leads to. The newest operation stands first. -/
def replay : List Op → Assembly
  | [] => .empty
  | op :: past => (replay past).perform op

/-- The placeholder that an operation gives its final operands. -/
def Op.resolves : Op → Option Patch
  | .patch p _ | .link p _ _ => some p
  | .write _ | .reserve .. => none

/-- Every placeholder that has got its final operands, once for each time. -/
def resolutions (history : List Op) : List Patch := history.filterMap Op.resolves

/-- The placeholders that have been written and wait for their operands. -/
def unresolved : List Op → List Patch
  | [] => []
  | .write _ :: past => unresolved past
  | .reserve .. :: past => ⟨(replay past).next⟩ :: unresolved past
  | .patch p _ :: past | .link p _ _ :: past => (unresolved past).erase p

theorem perform_grows (a : Assembly) (op : Op) : a.code.Grows (a.perform op).code := by
  cases op with
  | write i => exact Code.grows_push _ _
  | reserve opcode level => exact Code.grows_push _ _
  | patch p target => exact Code.grows_modify _ _ fun _ => rfl
  | link p distance entry =>
      simp only [perform, patchCall, patchAddress]
      refine Code.Grows.trans (Code.grows_modify _ p.position ?_) (Code.grows_modify _ p.position ?_)
      · exact fun _ => rfl
      · exact fun _ => rfl

theorem replay_grows {past history : List Op} (h : past <:+ history) :
    (replay past).code.Grows (replay history).code := by
  obtain ⟨recent, rfl⟩ := h
  induction recent with
  | nil => exact .refl _
  | cons op recent ih => exact ih.trans (perform_grows _ op)

/-- A history that keeps the books: what is written whole is no branch or jumps back, and only an open
placeholder is patched, that of a jump with the next index and that of a call with the start of a block. -/
inductive Proper : List Op → Prop where
  | nil : Proper []
  | write {past i} : Proper past → (i.opcode.isBranch → i.JumpsBack (replay past).next) →
      Proper (.write i :: past)
  | reserve {past opcode level} : Proper past → opcode.isBranch → Proper (.reserve opcode level :: past)
  | patch {past p} : Proper past → p ∈ unresolved past →
      (replay past).code.opcodeAt p.position ≠ some .call → Proper (.patch p (replay past).next :: past)
  | link {past p distance entry} : Proper past → p ∈ unresolved past →
      (replay past).code.opcodeAt p.position = some .call → ¬ Int64.ofNat distance < 0 → 0 < entry →
      (replay past).code.opcodeAt entry = some .enter → Proper (.link p distance entry :: past)

namespace Proper

variable {past history : List Op}

theorem of_cons {op : Op} (h : Proper (op :: past)) : Proper past := by
  cases h <;> assumption

theorem of_suffix (h : Proper history) (hpast : past <:+ history) : Proper past := by
  obtain ⟨recent, rfl⟩ := hpast
  induction recent with
  | nil => exact h
  | cons op recent ih => exact ih h.of_cons

theorem mem_unresolved {op : Op} {p : Patch} (h : Proper (op :: past)) (hp : op.resolves = some p) :
    p ∈ unresolved past := by
  cases h with
  | write => cases hp
  | reserve => cases hp
  | patch _ hmem => cases hp; exact hmem
  | link _ hmem => cases hp; exact hmem

/-! ## Counting -/

/-- A resolution moves a placeholder from the open ones to the resolved ones. -/
theorem perm_of_mem {p : Patch} (h : p ∈ unresolved past) :
    ((unresolved past).erase p ++ p :: resolutions past).Perm (unresolved past ++ resolutions past) :=
  List.perm_middle.trans ((List.perm_cons_erase h).symm.append_right _)

theorem position_lt (h : Proper history) {p : Patch} (hp : p ∈ unresolved history ++ resolutions history) :
    p.position < (replay history).next := by
  induction h with
  | nil => simp [unresolved, resolutions] at hp
  | @write past i _ _ ih =>
      have hlt := ih hp
      simp only [replay, perform, next, emit, Array.size_push] at hlt ⊢
      omega
  | @reserve past opcode level _ _ ih =>
      simp only [replay, perform, next, emitOpen, emit, Array.size_push]
      rcases List.mem_cons.mp hp with rfl | hp
      · exact Nat.lt_succ_self _
      · exact Nat.lt_succ_of_lt (ih hp)
  | @patch past p' _ hmem _ ih =>
      have hlt := ih ((perm_of_mem hmem).mem_iff.mp hp)
      simpa only [replay, perform, next, patchAddress, Array.size_modify] using hlt
  | @link past p' distance entry _ hmem _ _ _ _ ih =>
      have hlt := ih ((perm_of_mem hmem).mem_iff.mp hp)
      simpa only [replay, perform, next, patchCall, patchAddress, Array.size_modify] using hlt

/-- Every placeholder is open or has been resolved once, and not both. -/
theorem nodup (h : Proper history) : (unresolved history ++ resolutions history).Nodup := by
  induction h with
  | nil => exact List.nodup_nil
  | write _ _ ih => exact ih
  | @reserve past opcode level h _ ih =>
      -- The new placeholder stands past all that were written before it.
      refine List.nodup_cons.mpr ⟨fun hmem => ?_, ih⟩
      exact Nat.lt_irrefl _ (h.position_lt hmem)
  | patch _ hmem _ ih => exact (perm_of_mem hmem).nodup_iff.mpr ih
  | link _ hmem _ _ _ _ ih => exact (perm_of_mem hmem).nodup_iff.mpr ih

theorem nodup_resolutions (h : Proper history) : (resolutions history).Nodup :=
  (List.nodup_append.mp h.nodup).2.1

theorem outstanding_eq (h : Proper history) :
    (replay history).outstanding = (unresolved history).length := by
  induction h with
  | nil => rfl
  | write _ _ ih => exact ih
  | reserve _ _ ih => exact congrArg (· + 1) ih
  | patch _ hmem _ ih =>
      simp only [replay, perform, patchAddress, unresolved, List.length_erase_of_mem hmem, ih]
  | link _ hmem _ _ _ _ ih =>
      simp only [replay, perform, patchCall, patchAddress, unresolved, List.length_erase_of_mem hmem, ih]

/-! ## Where branches lead -/

end Proper

/-- How a branch at an index stands: it is open, or it was and has been resolved, or it never was. -/
inductive Standing (history : List Op) (k : Nat) (i : Instr) : Prop where
  | waits : ⟨k⟩ ∈ unresolved history → i.address = 0 → Standing history k i
  | resolved {target} : ⟨k⟩ ∈ resolutions history → i.Lands (replay history).code target →
      Standing history k i
  | back : ⟨k⟩ ∉ unresolved history → i.JumpsBack k → Standing history k i

namespace Proper

variable {past history : List Op}

theorem standing_cons {op : Op} {k : Nat} {i : Instr} (h : Standing past k i)
    (hk : ⟨k⟩ ∈ unresolved (op :: past) ↔ ⟨k⟩ ∈ unresolved past) : Standing (op :: past) k i := by
  cases h with
  | waits hmem haddress => exact .waits (hk.mpr hmem) haddress
  | resolved hmem hlands =>
      refine .resolved ?_ (hlands.mono (perform_grows _ op))
      rw [resolutions, List.filterMap_cons]
      split
      · exact hmem
      · exact List.mem_cons_of_mem _ hmem
  | back hmem hjump => exact .back (mt hk.mp hmem) hjump

theorem mem_erase_iff {p : Patch} {k : Nat} (hk : k ≠ p.position) :
    ⟨k⟩ ∈ (unresolved past).erase p ↔ ⟨k⟩ ∈ unresolved past :=
  List.mem_erase_of_ne fun hp => hk (congrArg Patch.position hp)

theorem standing (h : Proper history) {k : Nat} {i : Instr} (hi : (replay history).code[k]? = some i)
    (hbranch : i.opcode.isBranch) : Standing history k i := by
  induction h generalizing i with
  | nil => simp [replay, empty] at hi
  | @write past i' h hback ih =>
      simp only [replay, perform, emit, Array.getElem?_push] at hi
      split at hi
      · rename_i hk
        cases hi
        subst hk
        refine .back (fun hmem => ?_) (hback hbranch)
        exact Nat.lt_irrefl _ (h.position_lt (List.mem_append_left _ hmem))
      · exact standing_cons (ih hi hbranch) Iff.rfl
  | @reserve past opcode level h _ ih =>
      simp only [replay, perform, emitOpen, emit, Array.getElem?_push] at hi
      split at hi
      · rename_i hk
        cases hi
        subst hk
        exact .waits (List.mem_cons_self ..) rfl
      · rename_i hk
        refine standing_cons (ih hi hbranch) ⟨fun hmem => ?_, List.mem_cons_of_mem _⟩
        rcases List.mem_cons.mp hmem with heq | hmem
        · exact absurd (congrArg Patch.position heq) hk
        · exact hmem
  | @patch past p h hmem hcall ih =>
      simp only [replay, perform, patchAddress, Array.getElem?_modify] at hi
      split at hi
      · rename_i hk
        subst hk
        obtain ⟨i', hi', rfl⟩ := Option.map_eq_some_iff.mp hi
        refine @Standing.resolved _ _ _ (replay past).next (List.mem_cons_self ..)
          ⟨rfl, ?_, ?_, fun hopcode => ?_⟩
        · exact Nat.zero_lt_of_lt (h.position_lt (List.mem_append_left _ hmem))
        · simp [replay, perform, patchAddress, next]
        · exact absurd (Code.opcodeAt_of_getElem? hi') (hopcode ▸ hcall)
      · rename_i hk
        exact standing_cons (ih hi hbranch) (mem_erase_iff (Ne.symm hk))
  | @link past p distance entry h hmem _ hdistance hpos hentry ih =>
      have hgrows := perform_grows (replay past) (.link p distance entry)
      simp only [replay, perform, patchCall, patchAddress, Array.getElem?_modify] at hi
      split at hi
      · rename_i hk
        subst hk
        obtain ⟨i', hi', rfl⟩ := Option.map_eq_some_iff.mp hi
        obtain ⟨i'', hi'', rfl⟩ := Option.map_eq_some_iff.mp hi'
        refine @Standing.resolved _ _ _ entry (List.mem_cons_self ..)
          ⟨rfl, hpos, ?_, fun _ => ⟨hdistance, ?_⟩⟩
        · exact Nat.le_of_lt (Code.lt_size_of_opcodeAt (hgrows _ _ hentry))
        · exact hgrows _ _ hentry
      · rename_i hk
        exact standing_cons (ih hi hbranch) (mem_erase_iff (Ne.symm hk))

theorem exists_lands (h : Proper history) {k : Nat} {i : Instr} (hi : (replay history).code[k]? = some i)
    (hbranch : i.opcode.isBranch) (hopen : ⟨k⟩ ∉ unresolved history) :
    ∃ target, i.Lands (replay history).code target := by
  cases h.standing hi hbranch with
  | waits hmem _ => exact absurd hmem hopen
  | resolved _ hlands => exact ⟨_, hlands⟩
  | back _ hjump =>
      obtain ⟨hopcode, target, hpos, hle, haddress⟩ := hjump
      have hk := (Array.getElem?_eq_some_iff.mp hi).1
      refine ⟨target, haddress, hpos, by omega, fun hcall => ?_⟩
      simp [hopcode] at hcall

/-- In code that words can count, the open branches are those that have no address yet. -/
theorem mem_unresolved_iff (h : Proper history) (hsize : (replay history).code.size < Decimal.int64Bound)
    {k : Nat} {i : Instr} (hi : (replay history).code[k]? = some i) (hbranch : i.opcode.isBranch) :
    ⟨k⟩ ∈ unresolved history ↔ i.address = 0 := by
  constructor
  · intro hmem
    cases h.standing hi hbranch with
    | waits _ haddress => exact haddress
    | resolved hdone _ => exact absurd rfl ((List.nodup_append.mp h.nodup).2.2 _ hmem _ hdone)
    | back hopen _ => exact absurd hmem hopen
  · intro haddress
    refine Decidable.of_not_not fun hopen => ?_
    obtain ⟨target, hlands⟩ := h.exists_lands hi hbranch hopen
    have htarget : (Int64.ofNat target).toInt = target :=
      Operand.toInt_ofNat (Nat.lt_of_le_of_lt hlands.le_size hsize)
    rw [← hlands.address_eq, haddress, Int64.toInt_zero] at htarget
    have hpos := hlands.pos
    omega

end Proper

/-- Since an instruction was written that is no branch, calls have been linked and nothing else done. -/
def Sealed : List Op → Prop
  | .write i :: _ => ¬ i.opcode.isBranch
  | .link .. :: past => Sealed past
  | _ => False

/-- Then no branch leads past the end. -/
theorem Proper.exists_lands_lt {history : List Op} (h : Proper history) (hsealed : Sealed history) {k : Nat}
    {i : Instr} (hi : (replay history).code[k]? = some i) (hbranch : i.opcode.isBranch)
    (hopen : ⟨k⟩ ∉ unresolved history) :
    ∃ target, target < (replay history).code.size ∧ i.Lands (replay history).code target := by
  induction h generalizing i with
  | nil => exact hsealed.elim
  | reserve => exact hsealed.elim
  | patch => exact hsealed.elim
  | @write past i' h _ _ =>
      simp only [replay, perform, emit, Array.getElem?_push] at hi
      split at hi
      · cases hi
        exact absurd hbranch hsealed
      · obtain ⟨target, hlands⟩ := h.exists_lands hi hbranch hopen
        refine ⟨target, ?_, hlands.mono (perform_grows _ _)⟩
        simpa only [replay, perform, emit, Array.size_push] using Nat.lt_succ_of_le hlands.le_size
  | @link past p distance entry h hmem hcall hdistance hpos hentry ih =>
      have hgrows := perform_grows (replay past) (.link p distance entry)
      by_cases hk : p.position = k
      · -- The call that was linked last goes to the start of a block, which is in the code.
        obtain ⟨target, hlands⟩ :=
          (Proper.link h hmem hcall hdistance hpos hentry).exists_lands hi hbranch hopen
        have hopcode : some i.opcode = some Opcode.call := by
          rw [← Code.opcodeAt_of_getElem? hi, ← hk]
          exact hgrows _ _ hcall
        exact ⟨target, Code.lt_size_of_opcodeAt (hlands.call (Option.some.inj hopcode)).2, hlands⟩
      · have hopen' := mt (Proper.mem_erase_iff (Ne.symm hk)).mpr hopen
        simp only [replay, perform, patchCall, patchAddress, Array.getElem?_modify, if_neg hk] at hi
        obtain ⟨target, hlt, hlands⟩ := ih hsealed hi hbranch hopen'
        exact ⟨target, Nat.lt_of_lt_of_le hlt hgrows.size_le, hlands.mono hgrows⟩

end Assembly

end PLZero
