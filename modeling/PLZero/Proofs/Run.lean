import PLZero.Machine
import PLZero.Proofs.Action

/-!
# Runs

What a machine comes to, apart from how many steps it takes. All statements are relative to a property
`P` of the machines between two steps and to faults `E` that are excused, such as those of limits: a run
may end in one of these at any step.
-/

namespace PLZero.Machine

section

variable (limits : Limits) (code : Code) (P : Machine → Prop) (E : Fault → Prop)

/-- One step leads to a machine in `Q`, or fails with an excused fault. -/
def Moves (Q : Machine → Prop) (m : Machine) : Prop :=
  ∃ i, code[m.pc]? = some i ∧
    ((∃ m', step limits code.size i m = .ok () m' ∧ P m' ∧ Q m') ∨
      ∃ fault m', step limits code.size i m = .error fault m' ∧ E fault)

/-- Some steps lead to a machine in `Q`, or to a fault in `F`, or to an excused one. -/
inductive Leads (Q : Machine → Prop) (F : Fault → Machine → Prop) : Machine → Prop where
  | here {m} : Q m → Leads Q F m
  | step {m m' i} : code[m.pc]? = some i → Machine.step limits code.size i m = .ok () m' → P m' →
      Leads Q F m' → Leads Q F m
  | fault {m m' i fault} : code[m.pc]? = some i →
      Machine.step limits code.size i m = .error fault m' → E fault ∨ F fault m' → Leads Q F m

/-- The machine takes so many steps, unless one fails with an excused fault. -/
def Lasts : Nat → Machine → Prop
  | 0, _ => True
  | n + 1, m => Moves limits code P E (Lasts n) m

end

/-- How far a run has come: `P` holds as long as it goes on; it halts in `Q`, or fails with a fault that
is excused or in `F`. -/
inductive Gives (P Q : Machine → Prop) (E : Fault → Prop) (F : Fault → Machine → Prop) : Progress → Prop where
  | running {m} : P m → Gives P Q E F (.running m)
  | halted {m} : Q m → Gives P Q E F (.done m.conclude m)
  | failed {m pc fault} : E fault ∨ F fault m → Gives P Q E F (.done (.error (m.failure pc fault)) m)

def NoFault (_ : Fault) (_ : Machine) : Prop := False

def Nowhere (_ : Machine) : Prop := False

variable {limits : Limits} {code : Code} {P : Machine → Prop} {E : Fault → Prop}
  {Q Q' : Machine → Prop} {F F' : Fault → Machine → Prop} {m : Machine} {n : Nat}

theorem Moves.imp (h : Moves limits code P E Q m) (hQ : ∀ m', Q m' → Q' m') :
    Moves limits code P E Q' m := by
  obtain ⟨i, hi, ⟨m', hm', hP, hq⟩ | hfault⟩ := h
  · exact ⟨i, hi, .inl ⟨m', hm', hP, hQ m' hq⟩⟩
  · exact ⟨i, hi, .inr hfault⟩

theorem Leads.of_moves (h : Moves limits code P E Q m) (hQ : ∀ m', Q m' → Leads limits code P E Q' F m') :
    Leads limits code P E Q' F m := by
  obtain ⟨i, hi, ⟨m', hm', hP, hq⟩ | ⟨fault, m', hm', hE⟩⟩ := h
  · exact .step hi hm' hP (hQ m' hq)
  · exact .fault hi hm' (.inl hE)

theorem Leads.bind (h : Leads limits code P E Q F m)
    (hQ : ∀ m', Q m' → Leads limits code P E Q' F' m') (hF : ∀ fault m', F fault m' → F' fault m') :
    Leads limits code P E Q' F' m := by
  induction h with
  | here h => exact hQ _ h
  | step hi hm hP _ ih => exact .step hi hm hP ih
  | fault hi hm h => exact .fault hi hm (h.imp_right (hF _ _))

theorem Lasts.of_succ : Lasts limits code P E (n + 1) m → Lasts limits code P E n m := by
  induction n generalizing m with
  | zero => exact fun _ => trivial
  | succ n ih => exact fun h => Moves.imp h fun _ => ih

theorem Lasts.of_moves (h : Moves limits code P E Q m)
    (hQ : ∀ m', Q m' → Lasts limits code P E (n - 1) m') : Lasts limits code P E n m := by
  cases n with
  | zero => trivial
  | succ n => exact h.imp hQ

theorem Lasts.of_leads (h : Leads limits code P E Q NoFault m)
    (hQ : ∀ m', Q m' → Lasts limits code P E n m') : Lasts limits code P E n m := by
  induction h with
  | here h => exact hQ _ h
  | @step m m' i hi hm hP _ ih => exact Lasts.of_succ ⟨i, hi, .inl ⟨m', hm, hP, ih⟩⟩
  | @fault m m' i fault hi hm h =>
      cases n with
      | zero => trivial
      | succ n => exact ⟨i, hi, .inr ⟨fault, m', hm, h.resolve_right id⟩⟩

/-! ## What a run gives -/

@[simp] theorem cause_failure (m : Machine) (pc : Nat) (fault : Fault) : (m.failure pc fault).cause = fault := by
  unfold failure Failure.withCallStack
  split <;> rfl

theorem exists_of_conclude_error {m : Machine} {failure : Failure Fault} (h : m.conclude = .error failure) :
    ∃ message, failure.cause = .output message := by
  unfold conclude at h
  split at h
  · cases h
  · cases h
    exact ⟨_, rfl⟩

theorem runFor_halted (h : code[m.pc]? = none) : runFor limits code (n + 1) m = .done m.conclude m := by
  unfold runFor
  rw [h]

theorem runFor_step {i : Instr} {m' : Machine} (hi : code[m.pc]? = some i)
    (hm : step limits code.size i m = .ok () m') :
    runFor limits code (n + 1) m = runFor limits code n m' := by
  rw [runFor]
  simp only [hi, hm]

theorem runFor_fault {i : Instr} {fault : Fault} {m' : Machine} (hi : code[m.pc]? = some i)
    (hm : step limits code.size i m = .error fault m') :
    runFor limits code (n + 1) m = .done (.error (m'.failure m.pc fault)) m' := by
  unfold runFor
  simp only [hi, hm]

theorem Gives.imp {r : Progress} (h : Gives P Q E F r) (hQ : ∀ m', Q m' → Q' m')
    (hF : ∀ fault m', F fault m' → F' fault m') : Gives P Q' E F' r := by
  cases h with
  | running h => exact .running h
  | halted h => exact .halted (hQ _ h)
  | failed h => exact .failed (h.imp_right (hF _ _))

theorem Leads.gives (h : Leads limits code P E Q F m) (hP : P m)
    (hQ : ∀ m', Q m' → code[m'.pc]? = none) (n : Nat) : Gives P Q E F (runFor limits code n m) := by
  induction h generalizing n with
  | @here m h =>
      cases n with
      | zero => exact .running hP
      | succ n =>
          rw [runFor_halted (hQ m h)]
          exact .halted h
  | step hi hm hP' _ ih =>
      cases n with
      | zero => exact .running hP
      | succ n =>
          rw [runFor_step hi hm]
          exact ih hP' n
  | fault hi hm h =>
      cases n with
      | zero => exact .running hP
      | succ n =>
          rw [runFor_fault hi hm]
          exact .failed h

/-- A machine that comes to its end does so in some number of steps. -/
theorem Leads.exists_done (h : Leads limits code P E Q F m) (hQ : ∀ m', Q m' → code[m'.pc]? = none) :
    ∃ n m', (runFor limits code n m = .done m'.conclude m' ∧ Q m') ∨
      ∃ pc fault, runFor limits code n m = .done (.error (m'.failure pc fault)) m' ∧ (E fault ∨ F fault m') := by
  induction h with
  | @here m h => exact ⟨1, m, .inl ⟨runFor_halted (hQ m h), h⟩⟩
  | step hi hm _ _ ih =>
      obtain ⟨n, m'', h⟩ := ih
      refine ⟨n + 1, m'', ?_⟩
      rw [runFor_step hi hm]
      exact h
  | @fault m m' i fault hi hm h => exact ⟨1, m', .inr ⟨m.pc, fault, runFor_fault hi hm, h⟩⟩

theorem Lasts.gives (h : Lasts limits code P E n m) (hP : P m) :
    Gives P Nowhere E NoFault (runFor limits code n m) := by
  induction n generalizing m with
  | zero => exact .running hP
  | succ n ih =>
      obtain ⟨i, hi, ⟨m', hm, hP', h⟩ | ⟨fault, m', hm, hE⟩⟩ := h
      · rw [runFor_step hi hm]
        exact ih h hP'
      · rw [runFor_fault hi hm]
        exact .failed (.inl hE)

/-- What holds of a machine after each step, if every step takes it from one to the next. -/
theorem gives_of_kept {P : Nat → Machine → Prop} {k : Nat}
    (hkept : ∀ k m i, P k m → code[m.pc]? = some i →
      Action.Yields (step limits code.size i) m (fun _ m' => P (k + 1) m') fun fault _ => E fault)
    (hP : P k m) (n : Nat) :
    Gives (P (k + n)) (fun m' => ∃ j, P j m' ∧ code[m'.pc]? = none) E NoFault (runFor limits code n m) := by
  induction n generalizing k m with
  | zero => exact .running hP
  | succ n ih =>
      cases hi : code[m.pc]? with
      | none =>
          rw [runFor_halted hi]
          exact .halted ⟨k, hP, hi⟩
      | some i =>
          have hstep := hkept k m i hP hi
          cases hm : step limits code.size i m with
          | ok _ m' =>
              rw [runFor_step hi hm, Nat.add_comm n 1, ← Nat.add_assoc]
              exact ih (hstep.ok hm)
          | error fault m' =>
              rw [runFor_fault hi hm]
              exact .failed (.inl (hstep.error hm))

/-- A run that is done stays so. -/
theorem runFor_done_add {result : Except (Failure Fault) Unit} {m' : Machine}
    (h : runFor limits code n m = .done result m') (k : Nat) :
    runFor limits code (n + k) m = .done result m' := by
  induction n generalizing m with
  | zero => cases h
  | succ n ih =>
      rw [Nat.succ_add]
      cases hi : code[m.pc]? with
      | none =>
          rw [runFor_halted hi] at h ⊢
          exact h
      | some i =>
          cases hm : step limits code.size i m with
          | ok _ m'' =>
              rw [runFor_step hi hm] at h ⊢
              exact ih h
          | error fault m'' =>
              rw [runFor_fault hi hm] at h ⊢
              exact h

end PLZero.Machine
