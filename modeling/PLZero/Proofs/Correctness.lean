import Mathlib
import PLZero.Proofs.Simulation

/-!
# Correctness of compiled code

The main results about sources that compile: their code runs as the program means
(`Source.compile_correct`), no run of it fails for reasons of the code (`Source.compile_safe`), and the
static links of the frames lead to the most recent activations of the blocks around
(`Source.static_links`).
-/

namespace PLZero

open Machine (Gives NoFault Nowhere)
open Semantics (Outcome State Supply)

variable {S : Setting}

theorem Halted.getElem?_eq_none {σ : State} {m : Machine} (h : Halted S σ m) : S.code[m.pc]? = none := by
  rw [h.pc_eq]
  exact Array.getElem?_eq_none (Nat.le_refl _)

/-- How far the code of a program can come: all frames are linked on the way, it halts without frames,
and it fails only as programs do or with an excused fault. -/
theorem Setting.gives (input : Input) (output : Output) (htext : output.text = S.text)
    (hsink : output.sink = .unlimited ∨ ∀ message, S.excused (.output message))
    (hflush : output.flushFailure = S.flushFailure) (n : Nat) :
    Gives S.Linked (fun m => ∃ σ, Halted S σ m) S.excused (fun fault m => ∃ out, S.FailsWith fault out fault m)
      (Machine.runFor S.limits S.code n (.boot S.code input output)) := by
  have hlinked : S.Linked (.boot S.code input output) := linked_boot S.program S.code.size
  have hfollows := program_follows n input output htext hsink hflush
  generalize Semantics.run S.program n S.program.body _ = r at hfollows
  rcases r with ⟨a, σ⟩ | ⟨stop, σ⟩
  · exact (Machine.Leads.gives hfollows hlinked (fun _ => Halted.getElem?_eq_none) n).imp
      (fun m hm => ⟨σ, hm⟩) fun _ _ => False.elim
  · cases stop with
    | returned =>
        exact (Machine.Leads.gives hfollows hlinked (fun _ => Halted.getElem?_eq_none) n).imp
          (fun m hm => ⟨σ, hm⟩) fun _ _ => False.elim
    | failed fault =>
        refine (Machine.Leads.gives hfollows hlinked (fun _ => False.elim) n).imp (fun _ => False.elim) ?_
        rintro _ m ⟨rfl, h⟩
        exact ⟨σ.output, rfl, h⟩
    | undefined =>
        exact (Machine.Leads.gives hfollows hlinked (fun _ => False.elim) n).imp (fun _ => False.elim)
          fun _ _ => False.elim
    | outOfFuel =>
        exact (Machine.Lasts.gives hfollows hlinked).imp (fun _ => False.elim) fun _ _ => False.elim

/-! ## Safety -/

/-- The faults of code that no source has. -/
def Fault.IsMalformed : Fault → Prop
  | .noActiveFrame | .returnWithoutFrame | .stackUnderflow | .chainOverrun _ | .slotOutOfRange _
  | .invalidOperator _ | .invalidTarget _ | .invalidFrameSize _ => True
  | _ => False

theorem Fault.not_isMalformed_iff {fault : Fault} : ¬ fault.IsMalformed ↔
    fault = .divisionByZero ∨ (∃ e, fault = .input e) ∨ (∃ message, fault = .output message) ∨
      fault.IsLimit := by
  cases fault <;> simp [Fault.IsMalformed, Fault.IsLimit]

/-- A program with its code, limits that may be hit and a sink that may refuse output. -/
def Compiled.setting {program : Block} {code : Code} (h : Compiled program code) (limits : Limits)
    (output : Output) : Setting :=
  ⟨program, code, limits, fun fault => fault.IsLimit ∨ ∃ message, fault = .output message, output.text,
    output.flushFailure, h, fun _ => .inl⟩

theorem Compiled.gives {program : Block} {code : Code} (h : Compiled program code) (limits : Limits)
    (input : Input) (output : Output) (n : Nat) :
    Gives (fun m => Linked program m.stack.skeleton) (fun m => m.stack = .empty)
      (fun fault => fault.IsLimit ∨ ∃ message, fault = .output message)
      (fun fault _ => fault = .divisionByZero ∨ ∃ e, fault = .input e)
      (Machine.runFor limits code n (.boot code input output)) := by
  have hgives := Setting.gives (S := h.setting limits output) input output rfl
    (.inr fun message => .inr ⟨message, rfl⟩) rfl n
  refine hgives.imp ?_ ?_
  · rintro m ⟨σ, hhalted⟩
    exact congrArg CallStack.mk hhalted.frames_eq
  · rintro fault m ⟨out, -, hfault, -⟩
    exact hfault

/-- No run of the code of a source fails for a reason of the code, and one that succeeds has left all
its frames. -/
theorem Source.compile_safe {source : String} {code : Code} (hcompile : (Source.compile source).1 = .ok code)
    (hsize : code.size < Decimal.int64Bound)
    (hframes : ∀ program, Source.parse source = .ok program → program.FramesFit) (limits : Limits)
    (input : Input) (output : Output) {n : Nat} {result : Except (Failure Fault) Unit} {m : Machine}
    (hrun : Machine.runFor limits code n (.boot code input output) = .done result m) :
    (result = .ok () → m.stack = .empty) ∧
      ∀ failure, result = .error failure → ¬ failure.cause.IsMalformed ∧
        (failure.cause = .divisionByZero ∨ (∃ e, failure.cause = .input e) ∨
          (∃ message, failure.cause = .output message) ∨ failure.cause.IsLimit) := by
  obtain ⟨program, -, hcompiled⟩ := Source.exists_compiled hcompile hsize hframes
  have hgives := hcompiled.gives limits input output n
  rw [hrun] at hgives
  cases hgives with
  | halted hempty =>
      refine ⟨fun _ => hempty, fun failure hfailure => ?_⟩
      rw [Fault.not_isMalformed_iff, and_self_iff]
      exact .inr (.inr (.inl (Machine.exists_of_conclude_error hfailure)))
  | @failed _ _ fault hfault =>
      refine ⟨nofun, fun failure hfailure => ?_⟩
      obtain rfl := Except.error.inj hfailure
      rw [Machine.cause_failure, Fault.not_isMalformed_iff, and_self_iff]
      rcases hfault with (hlimit | houtput) | hdivision | hinput
      · exact .inr (.inr (.inr hlimit))
      · exact .inr (.inr (.inl houtput))
      · exact .inl hdivision
      · exact .inr (.inl hinput)

/-! ## An example -/

namespace Countdown

/-- A procedure that calls itself until a variable of the program around it is zero. -/
def source : String :=
  "var x; procedure p; begin write 6 / x; x := x - 1; if x > 0 then call p end; begin read x; call p end."

def code : Code :=
  #[⟨.enter, 0, 4⟩, .operate .read, ⟨.storeVar, 0, 0⟩, ⟨.call, 0, 5⟩, .operate .ret,
    ⟨.enter, 0, 3⟩, ⟨.loadConst, 0, 6⟩, ⟨.loadVar, 1, 0⟩, .operate (.binary .div), .operate .write,
    ⟨.loadVar, 1, 0⟩, ⟨.loadConst, 0, 1⟩, .operate (.binary .sub), ⟨.storeVar, 1, 0⟩,
    ⟨.loadVar, 1, 0⟩, ⟨.loadConst, 0, 0⟩, .operate (.binary .gt), ⟨.jumpIfFalse, 0, 19⟩, ⟨.call, 1, 5⟩,
    .operate .ret]

theorem compile_source : (Source.compile source).1 = .ok code := by
  cbv

theorem length_source : source.length < Decimal.int64Bound := by
  decide

theorem size_code : code.size < Decimal.int64Bound := by
  decide

/-- The input `2`. -/
def input : Input := .ofBytes [0x32]

end Countdown

/-- The second number does not fit into the sink. -/
theorem Source.compile_safe_full_sink :
    ∃ failure m, Machine.runFor {} Countdown.code 30
        (.boot Countdown.code Countdown.input { Output.unlimited with sink := .limited 2 }) = .done (.error failure) m ∧
      ¬ failure.cause.IsMalformed := by
  have hrun : Machine.runFor {} Countdown.code 30
      (.boot Countdown.code Countdown.input { Output.unlimited with sink := .limited 2 }) =
        .done (.error ⟨.output "sink full", some 9, [⟨0, 20⟩, ⟨5, 4⟩, ⟨5, 19⟩]⟩)
          ⟨⟨#[⟨20, 0, none, none, #[], #[1]⟩, ⟨4, 5, some 0, some 0, #[], #[]⟩,
            ⟨19, 5, some 1, some 0, #[], #[]⟩]⟩, 10, 23, ⟨[], none⟩, ⟨"3\n", .limited 2, none⟩⟩ := by
    cbv
  have hsafe := Source.compile_safe Countdown.compile_source Countdown.size_code
    (fun _ h => Source.framesFit h Countdown.length_source) {} Countdown.input _ hrun
  exact ⟨_, _, hrun, (hsafe.2 _ rfl).1⟩

/-! ## Static links -/

/-- The frame with an index is an activation of a block: it has the entry of the block. -/
def CallStack.IsActivation (s : CallStack) (i : Nat) (t : Placed) : Prop :=
  ∃ f, s.frames[i]? = some f ∧ f.entry = t.entry

theorem CallStack.isActivation_of_skeleton {s : CallStack} {i : Nat} {t : Placed} {link : Option Nat}
    (h : s.skeleton[i]? = some (t.entry, link)) : s.IsActivation i t := by
  simp only [skeleton, Array.getElem?_map, Option.map_eq_some_iff] at h
  obtain ⟨f, hf, hbone⟩ := h
  exact ⟨f, hf, congrArg Prod.fst hbone⟩

theorem CallStack.IsActivation.exists_skeleton {s : CallStack} {i : Nat} {t : Placed}
    (h : s.IsActivation i t) : ∃ link, s.skeleton[i]? = some (t.entry, link) := by
  obtain ⟨f, hf, hentry⟩ := h
  refine ⟨f.staticLink, ?_⟩
  simp [skeleton, hf, Frame.bone, hentry]

theorem CallStack.IsActivation.entry_eq {s : CallStack} {i : Nat} {t t' : Placed} (h : s.IsActivation i t)
    (h' : s.IsActivation i t') : t.entry = t'.entry := by
  obtain ⟨f, hf, hentry⟩ := h
  obtain ⟨f', hf', hentry'⟩ := h'
  obtain rfl := Option.some.inj (hf.symm.trans hf')
  exact hentry.symm.trans hentry'

theorem CallStack.exists_staticLink {s : CallStack} {i j : Nat} (h : s.follow 1 i = some j) :
    ∃ f, s.frames[i]? = some f ∧ f.staticLink = some j := by
  unfold follow at h
  cases hf : s.frames[i]? with
  | none => simp [hf] at h
  | some f =>
      simp only [hf] at h
      split at h
      · next hlink => exact ⟨f, rfl, hlink.trans h⟩
      · cases h

/-- The links of a frame lead to activations of the blocks of its chain. -/
theorem Activation.exists_follow {program : Block} {stack : CallStack} {i : Nat} {chain : List Placed}
    {links : List Nat} (h : Activation program stack.skeleton i chain links) {k : Nat} {t : Placed}
    (ht : chain[k]? = some t) :
    ∃ j, links[k]? = some j ∧ stack.follow k i = some j ∧ stack.IsActivation j t := by
  have hlt : k < links.length := h.static.length_eq ▸ (List.getElem?_eq_some_iff.mp ht).1
  have hj := List.getElem?_eq_getElem hlt
  obtain ⟨link, hlink⟩ := (h.recent k t _ ht hj).entry_eq
  exact ⟨_, hj, (h.static.follow_eq (Nat.le_of_lt hlt)).trans hj, CallStack.isActivation_of_skeleton hlink⟩

/-- The frame with an index is an activation of the block `s` of a program, with the blocks `outer`
around it, and its static links lead to activations of these, innermost first. -/
structure StaticChain (program : Block) (code : Code) (stack : CallStack) (i : Nat) (s : Placed)
    (outer : List Placed) : Prop where
  nest : Nest program (s :: outer)
  holds : code.Holds s.entry (s.block.segment program.linkage s.entry)
  active : stack.IsActivation i s
  /-- It is an activation of no other block. -/
  only : ∀ t outer', Nest program (t :: outer') → stack.IsActivation i t → t = s ∧ outer' = outer
  level_eq : s.block.level = outer.length
  reaches : ∀ (k : Nat) (t : Placed), (s :: outer)[k]? = some t →
    ∃ j, stack.follow k i = some j ∧ stack.IsActivation j t
  /-- There is no link after the one to the program. -/
  ends : stack.follow (s.block.level + 1) i = none
  /-- The static link is the most recent activation of the block that declares `s`. -/
  recent : 0 < i → ∃ t rest x f j, outer = t :: rest ∧ (x, s) ∈ t.procedures ∧
    stack.frames[i]? = some f ∧ f.staticLink = some j ∧ j < i ∧ stack.IsActivation j t ∧
    ∀ k, j < k → k < i → ¬ stack.IsActivation k t

theorem Activation.staticChain {program : Block} {code : Code} {stack : CallStack} {i : Nat}
    {s : Placed} {outer : List Placed} {links : List Nat} (hcompiled : Compiled program code)
    (h : Activation program stack.skeleton i (s :: outer) links) (hi : 0 < i → 1 < (s :: outer).length) :
    StaticChain program code stack i s outer := by
  have hlength := h.static.length_eq
  have hlevel := hcompiled.level h.nest
  have hactive : stack.IsActivation i s := by
    obtain ⟨j, -, hfollow, hactive⟩ := h.exists_follow (k := 0) (t := s) rfl
    obtain rfl := Option.some.inj hfollow
    exact hactive
  refine ⟨h.nest, hcompiled.segment h.nest, hactive, ?_, hlevel, ?_, ?_, ?_⟩
  · intro t outer' hnest ht
    exact List.cons.inj (hnest.eq_of_entry_eq h.nest (ht.entry_eq hactive))
  · intro k t ht
    obtain ⟨j, -, hfollow, hj⟩ := h.exists_follow ht
    exact ⟨j, hfollow, hj⟩
  · rw [hlevel, h.static.follow_eq (by simp [hlength])]
    exact List.getElem?_eq_none (by simp [hlength])
  · intro hpos
    cases outer with
    | nil => exact absurd (hi hpos) (by simp)
    | cons t rest =>
        obtain ⟨-, x, hx⟩ := h.nest.tail
        obtain ⟨j, hj, hfollow, hjt⟩ := h.exists_follow (k := 1) (t := t) rfl
        obtain ⟨f, hf, hlink⟩ := CallStack.exists_staticLink hfollow
        have hrecent := h.recent 1 t j rfl hj
        have hlt : j < i := by
          -- A block starts before the ones it declares, so it is not active where they are.
          have hwithin := (h.nest.within (t := t) List.mem_cons_self).1
          have hne : j ≠ i := by
            rintro rfl
            have := hjt.entry_eq hactive
            omega
          have := hrecent.le
          omega
        refine ⟨t, rest, x, f, j, rfl, hx, hf, hlink, hlt, hjt, ?_⟩
        intro k hk hk' hactive
        obtain ⟨link, hlink⟩ := hactive.exists_skeleton
        exact hrecent.last k link hk (Nat.le_of_lt hk') hlink

/-- In every state of a run of the code of a source, each frame is an activation of one block of the
program, and its static chain goes through the most recent activations of the blocks around. -/
theorem Source.static_links {source : String} {code : Code} (hcompile : (Source.compile source).1 = .ok code)
    (hsource : source.length < Decimal.int64Bound) (hsize : code.size < Decimal.int64Bound)
    (limits : Limits) (input : Input) (output : Output) :
    ∃ program, Source.parse source = .ok program ∧
      ∀ n m, Machine.runFor limits code n (.boot code input output) = .running m →
        ∀ i < m.stack.depth, ∃ s outer, StaticChain program code m.stack i s outer := by
  obtain ⟨program, hparse, hcompiled⟩ := Source.exists_compiled hcompile hsize
    fun _ h => Source.framesFit h hsource
  refine ⟨program, hparse, ?_⟩
  intro n m hrun i hi
  have hgives := hcompiled.gives limits input output n
  rw [hrun] at hgives
  cases hgives with
  | running hlinked =>
      obtain ⟨chain, links, hactivation, hlength⟩ := hlinked i (by simpa [CallStack.skeleton, CallStack.depth] using hi)
      cases chain with
      | nil => exact absurd rfl hactivation.nest.ne_nil
      | cons s outer => exact ⟨s, outer, hactivation.staticChain hcompiled hlength⟩

/-- Two activations of one procedure, the second called by the first: both are linked to the program. -/
theorem Source.static_links_recursion :
    ∃ program m, Source.parse Countdown.source = .ok program ∧
      Machine.runFor {} Countdown.code 18 (.boot Countdown.code Countdown.input .unlimited) = .running m ∧
      m.stack.depth = 3 ∧ ∀ i < 3, ∃ s outer, StaticChain program Countdown.code m.stack i s outer := by
  have hrun : Machine.runFor {} Countdown.code 18 (.boot Countdown.code Countdown.input .unlimited) =
      .running ⟨⟨#[⟨20, 0, none, none, #[], #[1]⟩, ⟨4, 5, some 0, some 0, #[], #[]⟩,
        ⟨19, 5, some 1, some 0, #[], #[]⟩]⟩, 5, 18, ⟨[], none⟩, ⟨"3\n", .unlimited, none⟩⟩ := by
    cbv
  obtain ⟨program, hparse, hlinks⟩ := Source.static_links Countdown.compile_source Countdown.length_source
    Countdown.size_code {} Countdown.input .unlimited
  exact ⟨program, _, hparse, hrun, rfl, hlinks _ _ hrun⟩

/-! ## Meaning -/

/-- The run of code on an input ends with a result, after it has written the output. -/
def Machine.Finishes (limits : Limits) (code : Code) (input : Input) (result : Except Fault Unit)
    (output : String) : Prop :=
  ∃ n result' m, runFor limits code n (.boot code input .unlimited) = .done result' m ∧
    result'.mapError Failure.cause = result ∧ m.output.text = output

theorem Machine.Finishes.unique {limits : Limits} {code : Code} {input : Input}
    {r r' : Except Fault Unit} {out out' : String} (h : Finishes limits code input r out)
    (h' : Finishes limits code input r' out') : r = r' ∧ out = out' := by
  obtain ⟨n, result, m, hn, rfl, rfl⟩ := h
  obtain ⟨n', result', m', hn', rfl, rfl⟩ := h'
  have heq := runFor_done_add hn n'
  rw [Nat.add_comm, runFor_done_add hn' n] at heq
  cases heq
  exact ⟨rfl, rfl⟩

/-- The result of a run that ends as the program does. -/
def Semantics.Outcome.result : Outcome → Except Fault Unit
  | finished => .ok ()
  | failed fault => .error fault

section

variable {program : Block} {code : Code} {limits : Limits} {input : Input}
  (hcompiled : Compiled program code)

/-- A program with its code, limits that may be hit and a sink that takes everything. -/
def Compiled.unlimited (limits : Limits) : Setting :=
  ⟨program, code, limits, Fault.IsLimit, "", none, hcompiled, fun _ => id⟩

theorem Compiled.follows (limits : Limits) (input : Input) (n : Nat) :
    (hcompiled.unlimited limits).Follows (Halted (hcompiled.unlimited limits)) n
      (fun _ => Halted (hcompiled.unlimited limits)) (.boot code input .unlimited)
      (Semantics.run program n program.body (Semantics.start program (.ofInput input))) :=
  program_follows (S := hcompiled.unlimited limits) n input .unlimited rfl (.inl rfl) rfl

variable (hlimits : ∀ fault output, Machine.Finishes limits code input (.error fault) output → ¬ fault.IsLimit)

include hcompiled hlimits

/-- A run that hits no limit ends where it leads. -/
theorem Compiled.finishes_of_leads {Q : Machine → Prop} {F : Fault → Machine → Prop}
    (h : (hcompiled.unlimited limits).Leads Q F (.boot code input .unlimited))
    (hQ : ∀ m, Q m → code[m.pc]? = none) :
    (∃ m, Q m ∧ Machine.Finishes limits code input (m.conclude.mapError Failure.cause) m.output.text) ∨
      ∃ fault m, F fault m ∧ Machine.Finishes limits code input (.error fault) m.output.text := by
  obtain ⟨n, m, ⟨hrun, hm⟩ | ⟨pc, fault, hrun, hfault⟩⟩ := h.exists_done hQ
  · exact .inl ⟨m, hm, n, _, m, hrun, rfl, rfl⟩
  · have hfinishes : Machine.Finishes limits code input (.error fault) m.output.text :=
      ⟨n, _, m, hrun, by simp [Except.mapError], rfl⟩
    exact .inr ⟨fault, m, hfault.resolve_left (hlimits fault _ hfinishes), hfinishes⟩

theorem Compiled.finishes_of_halted {σ : State}
    (h : (hcompiled.unlimited limits).Leads (Halted (hcompiled.unlimited limits) σ) NoFault
      (.boot code input .unlimited)) : Machine.Finishes limits code input (.ok ()) σ.output := by
  obtain ⟨m, hm, hfinishes⟩ | ⟨_, _, hfault, _⟩ := hcompiled.finishes_of_leads hlimits h
    fun _ => Halted.getElem?_eq_none
  · have hconclude : m.conclude = .ok () := by
      simp [Machine.conclude, Output.flush, hm.flushFailure, Compiled.unlimited]
    rw [hconclude, hm.written] at hfinishes
    simpa [Compiled.unlimited, Except.mapError] using hfinishes
  · exact hfault.elim

theorem Compiled.finishes_of_ends {outcome : Outcome} {output : String}
    (h : Semantics.Ends program (.ofInput input) outcome output) :
    Machine.Finishes limits code input outcome.result output := by
  obtain ⟨n, h⟩ := h
  have hfollows := hcompiled.follows limits input n
  unfold Semantics.outcome? at h
  generalize Semantics.run program n program.body _ = r at hfollows h
  rcases r with ⟨a, σ⟩ | ⟨stop, σ⟩
  · cases h
    exact hcompiled.finishes_of_halted hlimits hfollows
  · cases stop with
    | returned =>
        cases h
        exact hcompiled.finishes_of_halted hlimits hfollows
    | failed fault =>
        cases h
        obtain ⟨_, hm, _⟩ | ⟨_, m, ⟨rfl, -, htext⟩, hfinishes⟩ :=
          hcompiled.finishes_of_leads hlimits hfollows fun _ => False.elim
        · exact hm.elim
        · rw [htext] at hfinishes
          simpa [Compiled.unlimited, Outcome.result] using hfinishes
    | undefined => cases h
    | outOfFuel => cases h

/-- A program whose run hits no limit ends, or needs more fuel. -/
theorem Compiled.ends_or_outOfFuel (n : Nat) :
    (∃ outcome output, Semantics.Ends program (.ofInput input) outcome output) ∨
      ∃ σ, Semantics.run program n program.body (Semantics.start program (.ofInput input))
        = .error .outOfFuel σ := by
  have hfollows := hcompiled.follows limits input n
  cases hr : Semantics.run program n program.body (Semantics.start program (.ofInput input)) with
  | ok a σ => exact .inl ⟨.finished, σ.output, n, by rw [Semantics.outcome?, hr]⟩
  | error stop σ =>
      cases stop with
      | returned => exact .inl ⟨.finished, σ.output, n, by rw [Semantics.outcome?, hr]⟩
      | failed fault => exact .inl ⟨.failed fault, σ.output, n, by rw [Semantics.outcome?, hr]⟩
      | outOfFuel => exact .inr ⟨σ, rfl⟩
      | undefined =>
          rw [hr] at hfollows
          obtain ⟨_, hm, _⟩ | ⟨_, _, hfault, _⟩ :=
            hcompiled.finishes_of_leads hlimits hfollows fun _ => False.elim
          · exact hm.elim
          · exact hfault.elim

theorem Compiled.ends_of_finishes {result : Except Fault Unit} {output : String}
    (h : Machine.Finishes limits code input result output) :
    ∃ outcome, outcome.result = result ∧ Semantics.Ends program (.ofInput input) outcome output := by
  obtain ⟨n, result', m, hrun, hresult, htext⟩ := h
  rcases hcompiled.ends_or_outOfFuel hlimits n with ⟨outcome, output', hends⟩ | ⟨σ, hr⟩
  · have hfinishes := hcompiled.finishes_of_ends hlimits hends
    obtain ⟨rfl, rfl⟩ := hfinishes.unique ⟨n, result', m, hrun, hresult, htext⟩
    exact ⟨outcome, rfl, hends⟩
  · -- With so much fuel missing, the machine would still be running.
    have hfollows := hcompiled.follows limits input n
    rw [hr] at hfollows
    have hgives : Gives _ Nowhere Fault.IsLimit NoFault (Machine.runFor limits code n _) :=
      Machine.Lasts.gives hfollows (linked_boot program code.size)
    rw [hrun] at hgives
    cases hgives with
    | halted hm => exact hm.elim
    | @failed _ _ fault hfault =>
        have hlimit := hfault.resolve_right id
        exact absurd hlimit (hlimits fault output ⟨n, _, m, hrun, by simp [Except.mapError], htext⟩)

end

/-- The code of a source runs as its program means, if no limit ends the run: it succeeds, or fails,
with the same output as the program, or runs forever as the program does. -/
theorem Source.compile_correct {source : String} {code : Code}
    (hcompile : (Source.compile source).1 = .ok code) (hsource : source.length < Decimal.int64Bound)
    (hsize : code.size < Decimal.int64Bound) {limits : Limits} {input : Input}
    (hlimits : ∀ fault output, Machine.Finishes limits code input (.error fault) output → ¬ fault.IsLimit) :
    ∃ program, Source.parse source = .ok program ∧
      (∀ output, Machine.Finishes limits code input (.ok ()) output ↔
        Semantics.Ends program (.ofInput input) .finished output) ∧
      (∀ fault output, Machine.Finishes limits code input (.error fault) output ↔
        Semantics.Ends program (.ofInput input) (.failed fault) output) ∧
      ((∀ result output, ¬ Machine.Finishes limits code input result output) ↔
        Semantics.Diverges program (.ofInput input)) := by
  obtain ⟨program, hparse, hcompiled⟩ := Source.exists_compiled hcompile hsize
    fun _ h => Source.framesFit h hsource
  refine ⟨program, hparse, fun output => ⟨fun h => ?_, hcompiled.finishes_of_ends hlimits⟩,
    fun fault output => ⟨fun h => ?_, hcompiled.finishes_of_ends hlimits⟩, fun h n => ?_, fun h result output hrun => ?_⟩
  · obtain ⟨outcome, hresult, hends⟩ := hcompiled.ends_of_finishes hlimits h
    cases outcome with
    | finished => exact hends
    | failed fault => cases hresult
  · obtain ⟨outcome, hresult, hends⟩ := hcompiled.ends_of_finishes hlimits h
    cases outcome with
    | finished => cases hresult
    | failed fault' =>
        cases hresult
        exact hends
  · rcases hcompiled.ends_or_outOfFuel hlimits n with ⟨outcome, output, hends⟩ | hfuel
    · exact absurd (hcompiled.finishes_of_ends hlimits hends) (h _ _)
    · exact hfuel
  · obtain ⟨outcome, -, n, hn⟩ := hcompiled.ends_of_finishes hlimits hrun
    obtain ⟨σ, hσ⟩ := h n
    rw [Semantics.outcome?, hσ] at hn
    cases hn

/-- The numbers are divided by two and by one, and the run ends. -/
theorem Source.compile_correct_countdown :
    ∃ program, Source.parse Countdown.source = .ok program ∧
      Semantics.Ends program (.ofInput Countdown.input) .finished "3\n6\n" := by
  have hfinishes : Machine.Finishes {} Countdown.code Countdown.input (.ok ()) "3\n6\n" := by
    refine ⟨35, .ok (), ⟨.empty, 20, 34, ⟨[], none⟩, ⟨"3\n6\n", .unlimited, none⟩⟩, ?_, rfl, rfl⟩
    cbv
  have hlimits : ∀ fault output,
      Machine.Finishes {} Countdown.code Countdown.input (.error fault) output → ¬ fault.IsLimit :=
    fun _ _ h => absurd (h.unique hfinishes).1 (by simp)
  obtain ⟨program, hparse, hends, -⟩ := Source.compile_correct Countdown.compile_source
    Countdown.length_source Countdown.size_code hlimits
  exact ⟨program, hparse, (hends _).mp hfinishes⟩

end PLZero
