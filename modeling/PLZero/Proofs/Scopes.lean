import Mathlib.Data.List.Nodup
import PLZero.Proofs.Action
import PLZero.Proofs.Grammar.Scoping

/-!
# What scopes answer

Scopes are opened and closed and names are defined in any order, and some definitions are refused. A
record is kept beside them that is made from the steps alone (`Record`): it says what is defined in each
open scope, under the name and with the value that the step gives. After any steps the scopes answer as the
record says: a definition is refused exactly if no scope is open or the innermost one has the name, and a
name is resolved to the symbol that was defined under it in the innermost scope that has one. The variables
of a scope have the slots from zero on, and no two procedures ever get the same id.
-/

namespace PLZero

/-- The level and the slot of a variable. -/
def Symbol.place? (x : Symbol) : Option (Nat × Nat) :=
  match x.binding with
  | .var level slot => some (level, slot)
  | _ => none

def Symbol.procedureId? (x : Symbol) : Option Nat :=
  match x.binding with
  | .proc _ id => some id
  | _ => none

namespace ScopeChain

open Grammar (Context Denotes Undeclared)
open PLZero.Action (answer leaves)

/-! ## Steps -/

/-- A name to be defined. -/
inductive Definition where
  | var (name : String)
  | const (name : String) (value : Int64)
  | proc (name : String)

namespace Definition

def name : Definition → String
  | .var name | .const name _ | .proc name => name

def isProcedure : Definition → Bool
  | .proc _ => true
  | _ => false

def action : Definition → Update Symbol
  | .var name => defineVariable name
  | .const name value => defineConstant name value
  | .proc name => defineProcedure name

end Definition

inductive Step where
  | enter
  | leave
  | define (d : Definition)

/-- The scopes after a step, which may have been refused. -/
def step (c : ScopeChain) : Step → ScopeChain
  | .enter => c.enter
  | .leave => c.leave
  | .define d => leaves d.action c

def run (c : ScopeChain) (steps : List Step) : ScopeChain := steps.foldl step c

/-- The symbol that a step hands out, if it is a definition that succeeds. -/
def handsOut (c : ScopeChain) : Step → Option Symbol
  | .define d => (answer d.action c).toOption
  | _ => none

/-- The symbols that are handed out along steps, in their order. -/
def handedOut : ScopeChain → List Step → List Symbol
  | _, [] => []
  | c, x :: steps => (c.handsOut x).toList ++ handedOut (c.step x) steps

/-- Steps that close every scope they open, and no other one. -/
inductive Balanced : List Step → Prop where
  | nil : Balanced []
  | define {rest} (d : Definition) : Balanced rest → Balanced (.define d :: rest)
  | nest {inner rest} : Balanced inner → Balanced rest → Balanced (.enter :: inner ++ .leave :: rest)

/-! ## The record -/

/-- What the steps tell of the definitions. -/
structure Record where
  /-- What is defined in the scopes that are open, the innermost scope first, in the order of definition. -/
  defined : Context
  /-- How often it was tried to define a procedure. -/
  attempts : Nat

namespace Record

def empty : Record := ⟨[], 0⟩

/-- The number of variables that the innermost scope has. -/
def variableCount (r : Record) : Nat := (r.defined.headD []).countP Symbol.isVariable

/-- What a definition defines: the level is the number of scopes around the innermost one, the slot of a
variable the number of variables before it, the id of a procedure the number of attempts before it. -/
def symbol (r : Record) : Definition → Symbol
  | .var name => ⟨name, .var (r.defined.length - 1) r.variableCount⟩
  | .const name value => ⟨name, .const value⟩
  | .proc name => ⟨name, .proc (r.defined.length - 1) r.attempts⟩

instance (scope : List Symbol) (name : String) : Decidable (Undeclared scope name) :=
  inferInstanceAs (Decidable (∀ s ∈ scope, s.name ≠ name))

/-- The answer that a definition should get. -/
def reply (r : Record) (d : Definition) : Except ScopeError Symbol :=
  match r.defined with
  | [] => .error .noOpenScope
  | scope :: _ => if Undeclared scope d.name then .ok (r.symbol d) else .error (.duplicate d.name)

/-- The open scopes after a definition. -/
def define (r : Record) (d : Definition) : Context :=
  match r.defined with
  | [] => []
  | scope :: outer => if Undeclared scope d.name then (scope ++ [r.symbol d]) :: outer else scope :: outer

def step (r : Record) : Step → Record
  | .enter => { r with defined := [] :: r.defined }
  | .leave => { r with defined := r.defined.tail }
  | .define d => ⟨r.define d, r.attempts + d.isProcedure.toNat⟩

def run (r : Record) (steps : List Step) : Record := steps.foldl step r

/-- The level of the variables of a scope is the number of scopes around it, and they have the slots from zero
on in the order of their definition. -/
def Numbered (defined : Context) : Prop :=
  ∀ inner scope outer, defined = inner ++ scope :: outer →
    scope.filterMap Symbol.place? = (List.range (scope.countP Symbol.isVariable)).map fun slot => (outer.length, slot)

end Record

/-- The scopes answer as the record says. -/
structure Faithful (c : ScopeChain) (r : Record) : Prop where
  resolve_eq_some : ∀ name x, c.resolve name = some x ↔ Denotes r.defined name x
  resolve_eq_none : ∀ name, c.resolve name = none ↔ ∀ scope ∈ r.defined, Undeclared scope name
  level_eq : c.level = r.defined.length - 1
  variableCount_eq : c.variableCount = r.variableCount
  close_eq : c.close.1 = r.variableCount
  answer_eq : ∀ d : Definition, answer d.action c = r.reply d
  /-- In no scope has a name been defined twice. -/
  names : ∀ scope ∈ r.defined, (scope.map Symbol.name).Nodup
  numbered : Record.Numbered r.defined

/-- The scopes give the same answers. -/
structure SameAnswers (c c' : ScopeChain) : Prop where
  resolve_eq : ∀ name, c.resolve name = c'.resolve name
  level_eq : c.level = c'.level
  variableCount_eq : c.variableCount = c'.variableCount

/-! ## Definitions -/

theorem variableCount_eq (c : ScopeChain) : c.variableCount = (c.context.headD []).countP Symbol.isVariable := by
  obtain ⟨_ | ⟨s, outer⟩, next⟩ := c
  · rfl
  · simp [variableCount, context, s.counts]

theorem level_eq (c : ScopeChain) : c.level = c.context.length - 1 := by
  rw [length_context, level]

/-- The record that scopes stand for. -/
def record (c : ScopeChain) : Record := ⟨c.context, c.nextProcedure⟩

theorem action_apply (c : ScopeChain) (d : Definition) :
    d.action c = define (c.record.symbol d) { c with nextProcedure := c.nextProcedure + d.isProcedure.toNat } := by
  cases d with
  | var name =>
      simp only [record, Record.symbol, Record.variableCount, ← level_eq, ← variableCount_eq]
      rfl
  | const name value => rfl
  | proc name =>
      simp only [record, Record.symbol, ← level_eq]
      rfl

theorem name_symbol (r : Record) (d : Definition) : (r.symbol d).name = d.name := by
  cases d <;> rfl

/-- A definition as the record has it: what it answers, and what it leaves. -/
theorem action_eq (c : ScopeChain) (d : Definition) :
    answer d.action c = c.record.reply d ∧ (leaves d.action c).record = c.record.step (.define d) := by
  obtain ⟨_ | ⟨s, outer⟩, next⟩ := c
  · simp only [answer, leaves, action_apply]
    exact ⟨rfl, rfl⟩
  · have hfind : s.find? d.name = none ↔ Undeclared s.symbols.reverse d.name := Scope.find?_eq_none
    simp only [answer, leaves, action_apply, define, name_symbol, Record.step, Record.define, Record.reply, record,
      context_cons s outer next next]
    cases hfound : s.find? d.name with
    | none =>
        simp [hfind.mp hfound, context, Scope.add]
    | some y =>
        have hdeclared : ¬ Undeclared s.symbols.reverse d.name := by simp [← hfind, hfound]
        simp [hdeclared, context]

theorem record_step (c : ScopeChain) (x : Step) : (c.step x).record = c.record.step x := by
  cases x with
  | enter => rfl
  | leave =>
      obtain ⟨_ | ⟨s, outer⟩, next⟩ := c <;> rfl
  | define d => exact (action_eq c d).2

theorem record_run (c : ScopeChain) (steps : List Step) : (c.run steps).record = c.record.run steps := by
  induction steps generalizing c with
  | nil => rfl
  | cons x steps ih =>
      rw [run, Record.run, List.foldl_cons, List.foldl_cons, ← record_step]
      exact ih (c.step x)

/-! ## Names and slots -/

namespace Record

theorem numbered_cons {scope : List Symbol} {outer : Context} :
    Numbered (scope :: outer) ↔
      scope.filterMap Symbol.place?
        = (List.range (scope.countP Symbol.isVariable)).map (fun slot => (outer.length, slot)) ∧
      Numbered outer := by
  constructor
  · intro h
    refine ⟨h [] scope outer rfl, fun inner scope' outer' heq => h (scope :: inner) scope' outer' ?_⟩
    rw [heq, List.cons_append]
  · rintro ⟨hscope, houter⟩ inner scope' outer' heq
    cases inner with
    | nil =>
        obtain ⟨rfl, rfl⟩ := List.cons.inj heq
        exact hscope
    | cons first inner => exact houter inner scope' outer' (List.cons.inj heq).2

/-- What holds of a record after every step. -/
structure Sound (r : Record) : Prop where
  names : ∀ scope ∈ r.defined, (scope.map Symbol.name).Nodup
  numbered : Numbered r.defined

theorem sound_empty : empty.Sound := by
  constructor <;> simp [empty, Numbered]

theorem place?_symbol (r : Record) (d : Definition) :
    (r.symbol d).place? = if (r.symbol d).isVariable then some (r.defined.length - 1, r.variableCount) else none := by
  cases d <;> rfl

/-- A variable that is defined in a scope takes the next slot. -/
theorem numbered_define {scope : List Symbol} {outer : Context} {attempts : Nat} (h : Numbered (scope :: outer))
    (d : Definition) : Numbered ((scope ++ [symbol ⟨scope :: outer, attempts⟩ d]) :: outer) := by
  have hplace := place?_symbol ⟨scope :: outer, attempts⟩ d
  rw [numbered_cons] at h
  refine numbered_cons.mpr ⟨?_, h.2⟩
  rw [List.filterMap_append, h.1, List.countP_append]
  cases hx : (symbol ⟨scope :: outer, attempts⟩ d).isVariable with
  | false => simp [hx, hplace]
  | true => simp [hx, hplace, List.range_succ, variableCount]

theorem Sound.step {r : Record} (h : r.Sound) (x : Step) : (r.step x).Sound := by
  obtain ⟨defined, attempts⟩ := r
  obtain ⟨hnames, hnumbered⟩ := h
  cases x with
  | enter => exact ⟨List.forall_mem_cons.mpr ⟨by simp, hnames⟩, numbered_cons.mpr ⟨rfl, hnumbered⟩⟩
  | leave =>
      cases defined with
      | nil => exact ⟨hnames, hnumbered⟩
      | cons scope outer => exact ⟨(List.forall_mem_cons.mp hnames).2, (numbered_cons.mp hnumbered).2⟩
  | define d =>
      cases defined with
      | nil => exact ⟨hnames, hnumbered⟩
      | cons scope outer =>
          by_cases hnew : Undeclared scope d.name
          · simp only [Record.step, define, hnew, ↓reduceIte]
            refine ⟨?_, numbered_define hnumbered d⟩
            obtain ⟨hscope, houter⟩ := List.forall_mem_cons.mp hnames
            refine List.forall_mem_cons.mpr ⟨?_, houter⟩
            rw [List.map_append, List.map_singleton, name_symbol, ← List.concat_eq_append]
            exact hscope.concat (by simpa [Undeclared] using hnew)
          · simp only [Record.step, define, hnew, ↓reduceIte]
            exact ⟨hnames, hnumbered⟩

theorem Sound.run {r : Record} (h : r.Sound) (steps : List Step) : (r.run steps).Sound := by
  unfold Record.run
  induction steps generalizing r with
  | nil => exact h
  | cons x steps ih => exact ih (h.step x)

end Record

theorem distinct_of_sound {c : ScopeChain} (h : c.record.Sound) : c.Distinct := by
  intro s hs
  have hnames := h.names _ (List.mem_map_of_mem hs)
  rwa [List.map_reverse, (List.reverse_perm _).nodup_iff] at hnames

theorem faithful_of_sound {c : ScopeChain} (h : c.record.Sound) : Faithful c c.record where
  resolve_eq_some name x := resolve_eq_some (distinct_of_sound h)
  resolve_eq_none name := by simp [resolve, record, context, Scope.find?_eq_none]
  level_eq := c.level_eq
  variableCount_eq := c.variableCount_eq
  close_eq := c.variableCount_eq
  answer_eq d := (action_eq c d).1
  names := h.names
  numbered := h.numbered

/-! ## Ids -/

theorem nextProcedure_step (c : ScopeChain) (x : Step) : c.nextProcedure ≤ (c.step x).nextProcedure := by
  have hattempts : (c.step x).nextProcedure = (c.record.step x).attempts := congrArg Record.attempts (c.record_step x)
  rw [hattempts]
  cases x with
  | enter | leave => exact Nat.le_refl _
  | define d => exact Nat.le_add_right _ _

/-- A procedure that is handed out gets the next id, which is used up. -/
theorem nextProcedure_of_handsOut {c : ScopeChain} {x : Step} {y : Symbol} {id : Nat} (hy : c.handsOut x = some y)
    (hid : y.procedureId? = some id) : id = c.nextProcedure ∧ c.nextProcedure < (c.step x).nextProcedure := by
  cases x with
  | enter | leave => cases hy
  | define d =>
      have hattempts : (c.step (.define d)).nextProcedure = c.nextProcedure + d.isProcedure.toNat :=
        congrArg Record.attempts (c.record_step (.define d))
      have hsymbol : y = c.record.symbol d := by
        rw [handsOut, (action_eq c d).1] at hy
        unfold Record.reply at hy
        split at hy
        · cases hy
        · split at hy <;> cases hy
          rfl
      subst hsymbol
      cases d with
      | proc name =>
          cases hid
          exact ⟨rfl, by rw [hattempts]; exact Nat.lt_succ_self _⟩
      | var | const => cases hid

/-- The ids that are handed out from now on are new, and each is handed out once. -/
theorem ids_handedOut (c : ScopeChain) (steps : List Step) :
    (∀ id ∈ (handedOut c steps).filterMap Symbol.procedureId?, c.nextProcedure ≤ id) ∧
      ((handedOut c steps).filterMap Symbol.procedureId?).Nodup := by
  induction steps generalizing c with
  | nil => simp [handedOut]
  | cons x steps ih =>
      obtain ⟨hge, hnodup⟩ := ih (c.step x)
      have hlater : ∀ id ∈ (handedOut (c.step x) steps).filterMap Symbol.procedureId?, c.nextProcedure ≤ id :=
        fun id hid => Nat.le_trans (c.nextProcedure_step x) (hge id hid)
      rw [handedOut, List.filterMap_append]
      cases hy : c.handsOut x with
      | none => exact ⟨hlater, hnodup⟩
      | some y =>
          cases hid : y.procedureId? with
          | none => simpa [hid] using ⟨by simpa using hlater, hnodup⟩
          | some id =>
              obtain ⟨rfl, hlt⟩ := nextProcedure_of_handsOut hy hid
              have hnew : c.nextProcedure ∉ (handedOut (c.step x) steps).filterMap Symbol.procedureId? :=
                fun hmem => absurd (hge _ hmem) (Nat.not_le_of_lt hlt)
              simp only [Option.toList_some, List.filterMap_cons, hid, List.filterMap_nil, List.singleton_append,
                List.forall_mem_cons, List.nodup_cons]
              exact ⟨⟨Nat.le_refl _, hlater⟩, hnew, hnodup⟩

/-! ## Closed scopes -/

theorem scopes_leaves {c : ScopeChain} {s : Scope} {outer : List Scope} (hc : c.scopes = s :: outer)
    (d : Definition) : ∃ s', (leaves d.action c).scopes = s' :: outer := by
  simp only [leaves, action_apply, define, hc]
  cases (s.find? (c.record.symbol d).name).isSome
  · exact ⟨_, rfl⟩
  · exact ⟨_, rfl⟩

/-- Steps that open and close scopes in pairs work in the innermost scope, if there is one. -/
theorem scopes_of_balanced {inner : List Step} (h : Balanced inner) {c : ScopeChain} {s : Scope}
    {outer : List Scope} (hc : c.scopes = s :: outer) : ∃ s', (c.run inner).scopes = s' :: outer := by
  induction h generalizing c s outer with
  | nil => exact ⟨s, hc⟩
  | define d _ ih =>
      obtain ⟨s', hs'⟩ := scopes_leaves hc d
      exact ih hs'
  | nest _ _ ihinner ihrest =>
      have hopen : c.enter.scopes = .empty :: s :: outer := by rw [enter, hc]
      obtain ⟨s', hs'⟩ := ihinner hopen
      rw [run, List.foldl_append]
      exact ihrest (congrArg List.tail hs')

/-- A scope that is closed again leaves the scopes around it as they were. -/
theorem scopes_closed {inner : List Step} (h : Balanced inner) (c : ScopeChain) :
    (c.run (.enter :: inner ++ [.leave])).scopes = c.scopes := by
  have hopen : c.enter.scopes = .empty :: c.scopes := rfl
  obtain ⟨s', hs'⟩ := scopes_of_balanced h hopen
  rw [run, List.foldl_append]
  exact congrArg List.tail hs'

theorem SameAnswers.of_scopes {c c' : ScopeChain} (h : c.scopes = c'.scopes) : SameAnswers c c' := by
  refine ⟨fun name => ?_, ?_, ?_⟩
  · rw [resolve, resolve, h]
  · rw [level, level, h]
  · rw [variableCount, variableCount, h]

theorem scopes_of_refused {c : ScopeChain} {d : Definition} {e : ScopeError} (h : answer d.action c = .error e) :
    (leaves d.action c).scopes = c.scopes := by
  obtain ⟨scopes, next⟩ := c
  simp only [answer, leaves, action_apply, define] at h ⊢
  cases scopes with
  | nil => rfl
  | cons s outer =>
      by_cases hfound : (s.find? (record ⟨s :: outer, next⟩ |>.symbol d).name).isSome
      · simp [hfound]
      · simp [hfound] at h

/-- After any steps the scopes answer as the record says that the steps make, and so do definitions. No id is
handed out twice. A definition that is refused changes no answer, and a scope that is closed again leaves
none changed. -/
theorem run_faithful (steps : List Step) :
    Faithful (run .empty steps) (Record.run .empty steps) ∧
      ((handedOut .empty steps).filterMap Symbol.procedureId?).Nodup ∧
      (∀ (d : Definition) e, answer d.action (run .empty steps) = .error e →
        SameAnswers (leaves d.action (run .empty steps)) (run .empty steps)) ∧
      ∀ inner, Balanced inner →
        SameAnswers (run .empty (steps ++ .enter :: inner ++ [.leave])) (run .empty steps) := by
  refine ⟨?_, (ids_handedOut .empty steps).2, fun d e h => .of_scopes (scopes_of_refused h), fun inner hinner => ?_⟩
  · have hrecord : (run .empty steps).record = Record.run .empty steps := record_run .empty steps
    rw [← hrecord]
    refine faithful_of_sound ?_
    rw [hrecord]
    exact Record.sound_empty.run steps
  · have happend : run .empty (steps ++ .enter :: inner ++ [.leave])
        = (run .empty steps).run (.enter :: inner ++ [.leave]) := by simp [run]
    rw [happend]
    exact .of_scopes (scopes_closed hinner _)

/-- A refused definition and a closed scope use up ids too. -/
example : (handedOut .empty [.enter, .define (.proc "p"), .define (.proc "p"), .enter, .define (.proc "p"), .leave,
    .define (.proc "q")]).filterMap Symbol.procedureId? = [0, 2, 3] := by decide

end ScopeChain

end PLZero
