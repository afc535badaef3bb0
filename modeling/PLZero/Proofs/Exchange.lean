import Mathlib
import PLZero.Proofs.Limits
import PLZero.Proofs.Sparing
import PLZero.Proofs.Words

/-!
# What a run reads and writes

Only two instructions use the channels: one reads a word and pushes what it stands for, the other
writes the newest value. A run is looked at as the number of words it has read and the values it has
written (`Exchanges`); its reads get the words of the input in order, whatever the pieces.
-/

namespace PLZero

open PLZero.Action (Yields)

/-- How many words the instruction takes from the input. -/
def Instr.reads (i : Instr) : Nat := if i.Applies .read then 1 else 0

namespace Machine

/-- What the machine writes if it carries out the instruction: the newest value of the current frame. -/
def writes (m : Machine) (i : Instr) : List Int64 :=
  if i.Applies .write then (m.stack.frames.back?.bind (·.stack.back?)).toList else []

/-- A run that has read so many words and written these values. What is not read yet may come in other
pieces from any step on. -/
inductive Exchanges (limits : Limits) (code : Code) (start : Machine) : Nat → List Int64 → Machine → Prop where
  | start : Exchanges limits code start 0 [] start
  | step {k written m m' i} : Exchanges limits code start k written m → code[m.pc]? = some i →
      Machine.step limits code.size i m = .ok () m' →
      Exchanges limits code start (k + i.reads) (written ++ m.writes i) m'
  | pieces {k written m} (pieces : List (List UInt8)) : Exchanges limits code start k written m →
      pieces.flatten = m.input.bytes →
      Exchanges limits code start k written { m with input := { m.input with pieces := pieces } }

/-- If the machine stands at an instruction that reads, it gets this answer: the value is pushed, or the
step fails with the error. Only the limits on the steps and on the values of a frame can prevent that. -/
def Gets (limits : Limits) (code : Code) (m : Machine) (answer : Except InputError Int64) : Prop :=
  ∀ i, code[m.pc]? = some i → i.Applies .read → (∀ limit, limits.steps = some limit → m.steps < limit) →
    ∃ (below : Array Frame) (f : Frame), m.stack.frames = below.push f ∧
      match answer with
      | .ok v => f.stack.size < limits.stackSize →
        ∃ m', step limits code.size i m = .ok () m' ∧ m'.stack.frames = below.push (f.push v)
      | .error e => ∃ m', step limits code.size i m = .error (.input e) m'

/-! ## Steps -/

section

variable {limits : Limits} {code : Code} {halt : Nat} {i : Instr} {start m m' : Machine} {k n : Nat}
  {written : List Int64}

theorem read_apply (m : Machine) :
    read m = match m.input.readInt.1 with
      | .ok v => .ok v { m with input := m.input.readInt.2 }
      | .error e => .error (.input e) { m with input := m.input.readInt.2 } := by
  obtain ⟨s, pc, steps, input, output⟩ := m
  dsimp only [read]
  obtain ⟨result, input'⟩ := input.readInt
  cases result <;> rfl

theorem aside_input : Aside input := ⟨fun _ _ => rfl, fun _ _ _ => rfl⟩

theorem step_input (h : step limits halt i m = .ok () m') :
    m'.input = if i.Applies .read then m.input.readInt.2 else m.input := by
  have h := execute_of_step h
  split
  · next hread =>
    simp only [execute, hread.1, hread.2, operate] at h
    obtain ⟨v, m₁, hm₁, hpush⟩ := Action.bind_eq_ok.mp h
    have hinput : m₁.input = m.input.readInt.2 := by
      rw [read_apply] at hm₁
      split at hm₁
      · cases hm₁
        rfl
      · cases hm₁
    exact ((aside_input.push limits v m₁).ok hpush).trans hinput
  · next hread =>
    by_cases hwrite : i.Applies .write
    · simp only [execute, hwrite.1, hwrite.2, operate] at h
      have hspared := aside_input.pop.bind (.write fun _ _ => rfl)
      exact (hspared { m with pc := m.pc + 1, steps := m.steps + 1 }).ok h
    · exact congrArg Prod.fst ((execute_channels limits halt hread hwrite _).ok h)

/-! ## Runs -/

namespace Exchanges

theorem of_running (hrun : runFor limits code n start = .running m) :
    ∃ k written, Exchanges limits code start k written m := by
  have hkept : ∀ (_ : Nat) m i, (∃ k written, Exchanges limits code start k written m) → code[m.pc]? = some i →
      Yields (Machine.step limits code.size i) m
        (fun _ m' => ∃ k written, Exchanges limits code start k written m') fun _ _ => True := by
    rintro _ m i ⟨k, written, h⟩ hi
    cases hm : Machine.step limits code.size i m with
    | ok _ m' => exact .of_ok hm ⟨_, _, h.step hi hm⟩
    | error fault m' => exact .of_error hm trivial
  have hgives := gives_of_kept (E := fun _ => True) (k := 0) hkept ⟨0, [], .start⟩ n
  rw [hrun] at hgives
  cases hgives with
  | running h => exact h

theorem orderly {input : Input} {output : Output}
    (h : Exchanges limits code (.boot code input output) k written m) : ∃ n, Orderly limits code.size n m := by
  induction h with
  | start => exact ⟨0, orderly_boot limits code input output⟩
  | step _ hi hm ih =>
      obtain ⟨n, hn⟩ := ih
      exact ⟨n + 1, (hn.step (Array.getElem?_eq_some_iff.mp hi).1).ok hm⟩
  | pieces _ _ _ ih =>
      obtain ⟨n, hn⟩ := ih
      exact ⟨n, hn.bounded, hn.pc_le, hn.active, hn.steps_eq, hn.steps_le⟩

/-- A run leaves the words that it has not read. -/
theorem words_eq (h : Exchanges limits code start k written m) (hstart : start.input.failure = none) :
    Input.words m.input.bytes = (Input.words start.input.bytes).drop k ∧ m.input.failure = none := by
  induction h with
  | start => exact ⟨rfl, hstart⟩
  | @step k written m m' i _ _ hm ih =>
      obtain ⟨hwords, hfailure⟩ := ih
      rw [step_input hm, Instr.reads]
      split
      · obtain ⟨-, hrest, hfailure'⟩ := Input.words_readInt hfailure
        rw [hrest, hwords, List.tail_drop]
        exact ⟨rfl, hfailure'⟩
      · exact ⟨hwords, hfailure⟩
  | pieces pieces _ hpieces ih => exact ⟨(congrArg Input.words hpieces).trans ih.1, ih.2⟩

theorem gets {input : Input} {output : Output} (hfailure : input.failure = none)
    (h : Exchanges limits code (.boot code input output) k written m) :
    m.Gets limits code (Input.integer ((Input.words input.bytes)[k]?.getD [])) := by
  intro i hi hread hsteps
  obtain ⟨n, horderly⟩ := h.orderly
  obtain ⟨below, f, hframes⟩ := horderly.exists_current (Array.getElem?_eq_some_iff.mp hi).1
  refine ⟨below, f, hframes, ?_⟩
  obtain ⟨hwords, hnone⟩ := h.words_eq hfailure
  have hanswer : m.input.readInt.1 = Input.integer ((Input.words input.bytes)[k]?.getD []) := by
    rw [(Input.words_readInt hnone).1, hwords, List.head?_drop]
    rfl
  rw [← hanswer]
  have hstep : Machine.step limits code.size i m
      = execute limits code.size i { m with pc := m.pc + 1, steps := m.steps + 1 } := step_counted hsteps
  simp only [execute, hread.1, hread.2, operate] at hstep
  obtain ⟨⟨frames⟩, pc, steps, input', output'⟩ := m
  obtain rfl : frames = below.push f := hframes
  have hread := read_apply ⟨⟨below.push f⟩, pc + 1, steps + 1, input', output'⟩
  dsimp only at hread hstep ⊢
  cases hv : input'.readInt.1 with
  | ok v =>
      intro hroom
      rw [hv] at hread
      rw [Action.bind_of_ok hread, push_apply, if_neg (by omega)] at hstep
      exact ⟨_, hstep, rfl⟩
  | error e =>
      rw [hv] at hread
      rw [Action.bind_of_error hread] at hstep
      exact ⟨_, hstep⟩

end Exchanges

end

/-- Reading does not depend on the pieces. It passes blanks, takes the word behind them and the blank that
ends it, and the word is a numeral in range or the read fails with it. So reads, also those of a run, get
the words of the input in order. -/
theorem reads_words :
    (∀ pieces : List (List UInt8), ∃ word rest pieces', Input.FirstWord pieces.flatten word rest ∧
      Input.readInt ⟨pieces, none⟩ = (Input.integer word, ⟨pieces', none⟩) ∧ pieces'.flatten = rest.tail) ∧
    (∀ word : List UInt8,
      (∀ v, Input.integer word = .ok v ↔ Numeral word v.toInt) ∧
      (Input.integer word = .error .endOfInput ↔ word = []) ∧
      ∀ text, Input.integer word = .error (.notAnInteger text) ↔
        word ≠ [] ∧ (∀ v : Int64, ¬ Numeral word v.toInt) ∧ text = String.ofList (Utf8.decodeLossy word)) ∧
    (InputError.endOfInput.message = "unexpected end of input" ∧
      ∀ text, (InputError.notAnInteger text).message = "'" ++ text ++ "' is not an integer") ∧
    (∀ inputs, Input.Successive inputs →
      ∀ k, (inputs k).readInt.1 = Input.integer ((Input.words (inputs 0).bytes)[k]?.getD [])) ∧
    ∀ limits code pieces output,
      (∀ n m, runFor limits code n (.boot code ⟨pieces, none⟩ output) = .running m →
        ∃ k written, Exchanges limits code (.boot code ⟨pieces, none⟩ output) k written m) ∧
      ∀ k written m, Exchanges limits code (.boot code ⟨pieces, none⟩ output) k written m →
        m.Gets limits code (Input.integer ((Input.words pieces.flatten)[k]?.getD [])) := by
  refine ⟨Input.exists_readInt, fun word => ?_, ⟨rfl, fun _ => rfl⟩, fun _ => Input.Successive.readInt_eq, ?_⟩
  · exact ⟨fun _ => Input.integer_eq_ok, Input.integer_eq_endOfInput, fun _ => Input.integer_eq_notAnInteger⟩
  · intro limits code pieces output
    exact ⟨fun _ _ => Exchanges.of_running, fun _ _ _ => Exchanges.gets rfl⟩

/-- The words `+7` and `x1`, which arrive in three pieces. -/
def threePieces : Input := ⟨[[0x20, 0x2B], [0x37, 0x09, 0x78], [0x31]], none⟩

def readTwice : Code := #[.operate .read, .operate .read]

/-- A word that comes in two pieces is one word, and one that is no integer is passed like any other. -/
theorem reads_words_split :
    (∃ m, runFor {} readTwice 1 (.boot readTwice threePieces .unlimited) = .running m ∧
      ∃ k written, Exchanges {} readTwice (.boot readTwice threePieces .unlimited) k written m) ∧
    (∃ m, Exchanges {} readTwice (.boot readTwice threePieces .unlimited) 1 [] m ∧
      m.Gets {} readTwice (.error (.notAnInteger "x1"))) ∧
    ((·.readInt.2)^[2] threePieces).readInt.1 = .error .endOfInput := by
  obtain ⟨-, -, -, hsuccessive, hruns⟩ := reads_words
  have hstep : step {} 2 (.operate .read) (.boot readTwice threePieces .unlimited)
      = .ok () ⟨⟨#[⟨2, 0, none, none, #[7], #[]⟩]⟩, 1, 1, ⟨[[0x78], [0x31]], none⟩, .unlimited⟩ := by cbv
  have hsecond : Input.integer ((Input.words threePieces.bytes)[1]?.getD []) = .error (.notAnInteger "x1") := by
    cbv
  have hthird : Input.integer ((Input.words threePieces.bytes)[2]?.getD []) = .error .endOfInput := by cbv
  have hrunning : runFor {} readTwice 1 (.boot readTwice threePieces .unlimited) = .running _ :=
    runFor_step (i := .operate .read) rfl hstep
  have hrun : Exchanges {} readTwice (.boot readTwice threePieces .unlimited) 1 [] _ :=
    .step (i := .operate .read) .start rfl hstep
  obtain ⟨hexchanges, hgets⟩ := hruns {} readTwice threePieces.pieces .unlimited
  refine ⟨⟨_, hrunning, hexchanges _ _ hrunning⟩, ⟨_, hrun, ?_⟩, ?_⟩
  · exact hsecond ▸ hgets _ _ _ hrun
  · exact (hsuccessive _ (.iterate _) 2).trans hthird

end Machine

end PLZero
