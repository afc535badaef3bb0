import Mathlib
import PLZero.Proofs.Exchange

/-!
# Reading back what was written

Every value is written as a numeral on a line of its own. So the words of the output are the numerals of
the values, and a run that gets the output as its input, in any pieces, reads these values again.
-/

namespace PLZero

open PLZero.Action (Yields)

/-! ## Lines of output -/

namespace Output

/-- All bytes that have been written. -/
def bytes (out : Output) : List UInt8 := Utf8.bytes out.text

/-- The line of a value. -/
def line (v : Int64) : List UInt8 := Utf8.bytes (Decimal.ofInt64 v ++ "\n")

theorem line_eq (v : Int64) : line v = Utf8.bytes (Decimal.ofInt64 v) ++ [0x0A] := by
  have hnewline : Utf8.bytes "\n" = [0x0A] := by decide
  rw [line, Utf8.bytes_append, hnewline]

theorem words_lines (values : List Int64) :
    Input.words (values.flatMap line) = values.map fun v => Utf8.bytes (Decimal.ofInt64 v) := by
  induction values with
  | nil => rfl
  | cons v values ih =>
      have hnumeral := Decimal.numeral_ofInt64 v
      rw [List.flatMap_cons, line_eq, List.append_assoc,
        Input.words_append hnumeral.ne_nil hnumeral.not_blank (by simp [Input.isBlank]), List.map_cons, ← ih]
      rfl

/-- The words of what was written stand for the values, and behind them the input ends. -/
theorem integer_lines (values : List Int64) (k : Nat) :
    Input.integer ((Input.words (values.flatMap line))[k]?.getD [])
      = values[k]?.elim (.error .endOfInput) .ok := by
  rw [words_lines, List.getElem?_map]
  cases values[k]? with
  | none => rfl
  | some v => exact Input.integer_eq_ok.mpr (Decimal.numeral_ofInt64 v)

end Output

/-! ## Runs -/

namespace Machine

section

variable {limits : Limits} {code : Code} {halt : Nat} {i : Instr} {start m m' : Machine} {k : Nat}
  {written : List Int64}

theorem aside_output : Aside output := ⟨fun _ _ => rfl, fun _ _ _ => rfl⟩

theorem write_bytes {v : Int64} (h : write v m = .ok () m') : m'.output.bytes = m.output.bytes ++ Output.line v := by
  obtain ⟨s, pc, steps, input, output⟩ := m
  dsimp only [write] at h
  rcases output.write_cases (Decimal.ofInt64 v ++ "\n") with hwrite | ⟨-, message, output', hwrite⟩
  · rw [hwrite] at h
    cases h
    exact Utf8.bytes_append _ _
  · rw [hwrite] at h
    cases h

theorem pop_newest {v : Int64} (h : pop m = .ok v m') :
    m.stack.frames.back?.bind (·.stack.back?) = some v ∧ m'.output = m.output := by
  refine ⟨?_, (aside_output.pop m).ok h⟩
  obtain ⟨s, pc, steps, input, output⟩ := m
  have hpop : Yields pop ⟨s, pc, steps, input, output⟩
      (fun v _ => s.frames.back?.bind (·.stack.back?) = some v) fun _ _ => True := by
    refine onStack_yields ((CallStack.pop_spec s).imp ?_ fun _ _ _ => trivial)
    rintro v _ ⟨-, f, hf, hv⟩
    rw [hf]
    exact hv
  exact hpop.ok h

theorem step_bytes (h : step limits halt i m = .ok () m') :
    m'.output.bytes = m.output.bytes ++ (m.writes i).flatMap Output.line := by
  have h := execute_of_step h
  unfold writes
  split
  · next hwrite =>
    simp only [execute, hwrite.1, hwrite.2, operate] at h
    obtain ⟨v, m₁, hpop, hm'⟩ := Action.bind_eq_ok.mp h
    obtain ⟨hv, houtput⟩ := pop_newest hpop
    have hv : m.stack.frames.back?.bind (·.stack.back?) = some v := hv
    rw [write_bytes hm', houtput, hv]
    simp
  · next hwrite =>
    rw [List.flatMap_nil, List.append_nil]
    by_cases hread : i.Applies .read
    · simp only [execute, hread.1, hread.2, operate] at h
      obtain ⟨v, m₁, hm₁, hpush⟩ := Action.bind_eq_ok.mp h
      have hread : Spares output read := .read fun _ _ => rfl
      rw [(aside_output.push limits v m₁).ok hpush, (hread _).ok hm₁]
    · have houtput : m'.output = m.output :=
        congrArg Prod.snd ((execute_channels limits halt hread hwrite _).ok h)
      rw [houtput]

/-- The output of a run is a line for each value that it has written. -/
theorem Exchanges.bytes_eq (h : Exchanges limits code start k written m) :
    m.output.bytes = start.output.bytes ++ written.flatMap Output.line := by
  induction h with
  | start => simp
  | step _ _ hm ih => rw [step_bytes hm, ih, List.append_assoc, ← List.flatMap_append]
  | pieces _ _ _ ih => exact ih

end

/-! ## Every list is written by some run -/

section

variable {limits : Limits} {code : Code} {halt pc steps k : Nat} {start m : Machine} {written : List Int64}
  {below : Array Frame} {f : Frame} {input : Input} {output : Output} {level v : Int64}

theorem step_loadConst (hlimit : limits.steps = none) (hroom : f.stack.size < limits.stackSize) :
    step limits halt ⟨.loadConst, level, v⟩ ⟨⟨below.push f⟩, pc, steps, input, output⟩
      = .ok () ⟨⟨below.push (f.push v)⟩, pc + 1, steps + 1, input, output⟩ := by
  rw [step_counted (by simp [hlimit])]
  exact (push_apply v).trans (if_neg (Nat.not_le.mpr hroom))

theorem step_write (hlimit : limits.steps = none) (hsink : output.sink = .unlimited) :
    step limits halt (.operate .write) ⟨⟨below.push (f.push v)⟩, pc, steps, input, output⟩
      = .ok () ⟨⟨below.push f⟩, pc + 1, steps + 1, input,
          { output with text := output.text ++ (Decimal.ofInt64 v ++ "\n") }⟩ := by
  have hwrite := (output.write_cases (Decimal.ofInt64 v ++ "\n")).resolve_right fun h => h.1 hsink
  rw [step_counted (by simp [hlimit])]
  simp only [execute, Instr.operate, Operator.ofCode?_code, operate]
  rw [Action.bind_of_ok (pop_apply v)]
  simp only [write, hwrite]

/-- A run that loads a constant and writes it. -/
theorem Exchanges.write (hlimit : limits.steps = none) (h : Exchanges limits code start k written m)
    (hframes : m.stack.frames = below.push f) (hroom : f.stack.size < limits.stackSize)
    (hsink : m.output.sink = .unlimited) (hload : code[m.pc]? = some ⟨.loadConst, level, v⟩)
    (hwrite : code[m.pc + 1]? = some (.operate .write)) :
    ∃ m', Exchanges limits code start k (written ++ [v]) m' ∧ m'.stack = m.stack ∧ m'.pc = m.pc + 2 ∧
      m'.output.sink = .unlimited := by
  obtain ⟨⟨frames⟩, pc, steps, input, output⟩ := m
  obtain rfl : frames = below.push f := hframes
  have hrun := (h.step hload (step_loadConst hlimit hroom)).step hwrite (step_write hlimit hsink)
  have hreads : k + Instr.reads ⟨.loadConst, level, v⟩ + (Instr.operate .write).reads = k := by
    simp [Instr.reads, Instr.Applies, Instr.operate, Operator.ofCode?_code]
  have hnone : writes ⟨⟨below.push f⟩, pc, steps, input, output⟩ ⟨.loadConst, level, v⟩ = [] := by
    simp [writes, Instr.Applies]
  have hone : writes ⟨⟨below.push (f.push v)⟩, pc + 1, steps + 1, input, output⟩ (.operate .write) = [v] := by
    simp [writes, Instr.Applies, Instr.operate, Operator.ofCode?_code, Frame.push]
  rw [hreads, hnone, hone, List.append_nil] at hrun
  exact ⟨_, hrun, rfl, rfl, hsink⟩

/-- Writes constants. -/
def writeAll (values : List Int64) : Code :=
  (values.flatMap fun v => [⟨.loadConst, 0, v⟩, .operate .write]).toArray

theorem getElem?_writeAll (before : List Int64) (v : Int64) (after : List Int64) :
    (writeAll (before ++ v :: after))[2 * before.length]? = some ⟨.loadConst, 0, v⟩ ∧
      (writeAll (before ++ v :: after))[2 * before.length + 1]? = some (.operate .write) := by
  have hlength : (before.flatMap fun v => [(⟨.loadConst, 0, v⟩ : Instr), .operate .write]).length
      = 2 * before.length := by
    simp [Nat.mul_comm]
  simp [writeAll, hlength]

-- The program frame holds no value between two constants, so that there is always room for the next.
theorem Exchanges.writeRest {values before after : List Int64} (hvalues : before ++ after = values)
    (h : Exchanges {} (writeAll values) start k before m) (hstack : m.stack = .boot (writeAll values).size)
    (hpc : m.pc = 2 * before.length) (hsink : m.output.sink = .unlimited) :
    ∃ m', Exchanges {} (writeAll values) start k values m' := by
  induction after generalizing before m with
  | nil =>
      rw [List.append_nil] at hvalues
      exact ⟨m, hvalues ▸ h⟩
  | cons v after ih =>
      obtain ⟨hload, hwrite⟩ := getElem?_writeAll before v after
      rw [hvalues, ← hpc] at hload hwrite
      have hframes : m.stack.frames = #[].push ⟨(writeAll values).size, 0, none, none, #[], #[]⟩ :=
        congrArg CallStack.frames hstack
      obtain ⟨m', hm', hstack', hpc', hsink'⟩ := h.write rfl hframes (Nat.succ_pos 9999) hsink hload hwrite
      refine ih (by simpa using hvalues) hm' (hstack'.trans hstack) ?_ hsink'
      simp [hpc', hpc, Nat.mul_add]

end

theorem exists_writes (values : List Int64) :
    ∃ code m, Exchanges {} code (.boot code (.ofBytes []) .unlimited) 0 values m :=
  ⟨writeAll values, Exchanges.writeRest (List.nil_append values) .start rfl rfl rfl⟩

/-- Whatever values a run has written, its output read in any pieces gives them again in order, and then
the end of the input. Every list of values is written by some run. -/
theorem reads_back_written (values : List Int64) :
    (∃ code m, Exchanges {} code (.boot code (.ofBytes []) .unlimited) 0 values m) ∧
    ∀ limits code input output k m, output.text = "" →
      Exchanges limits code (.boot code input output) k values m →
      (∀ inputs, Input.Successive inputs → (inputs 0).bytes = m.output.bytes →
        ∀ j, (inputs j).readInt.1 = values[j]?.elim (.error .endOfInput) .ok) ∧
      ∀ limits' code' pieces output' j written m', pieces.flatten = m.output.bytes →
        Exchanges limits' code' (.boot code' ⟨pieces, none⟩ output') j written m' →
        m'.Gets limits' code' (values[j]?.elim (.error .endOfInput) .ok) := by
  refine ⟨exists_writes values, ?_⟩
  intro limits code input output k m htext h
  have hbytes : m.output.bytes = values.flatMap Output.line := by
    have hempty : output.bytes = [] := by
      rw [Output.bytes, htext]
      rfl
    rw [h.bytes_eq]
    exact congrArg (· ++ values.flatMap Output.line) hempty
  constructor
  · intro inputs hinputs hfirst j
    rw [hinputs.readInt_eq, hfirst, hbytes, Output.integer_lines]
  · intro limits' code' pieces output' j written m' hpieces h'
    have hgets := h'.gets rfl
    rw [Input.bytes, hpieces, hbytes, Output.integer_lines] at hgets
    exact hgets

/-- The least and the greatest value, read back byte by byte. -/
theorem reads_back_written_extremes :
    ∃ code m, Exchanges {} code (.boot code (.ofBytes []) .unlimited) 0 [Int64.minValue, Int64.maxValue] m ∧
      ∃ pieces : List (List UInt8), (∀ piece ∈ pieces, piece.length = 1) ∧ pieces.flatten = m.output.bytes ∧
        ((·.readInt.2)^[1] ⟨pieces, none⟩ : Input).readInt.1 = .ok Int64.maxValue ∧
        ((·.readInt.2)^[2] ⟨pieces, none⟩ : Input).readInt.1 = .error .endOfInput ∧
        (Machine.boot readTwice ⟨pieces, none⟩ .unlimited).Gets {} readTwice (.ok Int64.minValue) := by
  obtain ⟨⟨code, m, hm⟩, hback⟩ := reads_back_written [Int64.minValue, Int64.maxValue]
  obtain ⟨hreads, hruns⟩ := hback _ _ _ _ _ _ rfl hm
  have hpieces : (m.output.bytes.map fun b => [b]).flatten = m.output.bytes := by
    rw [← List.flatMap_def, ← List.map_eq_flatMap, List.map_id']
  have hreads := hreads _ (.iterate (m.output.bytes.map fun b => [b])) hpieces
  exact ⟨code, m, hm, _, by simp, hpieces, hreads 1, hreads 2, hruns {} readTwice _ .unlimited 0 [] _ hpieces .start⟩

end Machine

end PLZero
