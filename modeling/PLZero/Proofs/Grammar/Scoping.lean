import PLZero.Proofs.Grammar
import PLZero.Scope

/-!
# Scopes as contexts

The open scopes of a parser are a context of the grammar: looking a name up finds what it denotes, and
a definition succeeds where the name is new.
-/

namespace PLZero

open Grammar

/-! ## Names -/

namespace ScopeChain

/-- The declared symbols of the open scopes, those of each scope in the order of their declaration. -/
def context (c : ScopeChain) : Context := c.scopes.map fun s => s.symbols.reverse

/-- In no scope is a name declared twice. -/
def Distinct (c : ScopeChain) : Prop := ∀ s ∈ c.scopes, (s.symbols.map Symbol.name).Nodup

theorem context_cons (s : Scope) (outer : List Scope) (n m : Nat) :
    context ⟨s :: outer, n⟩ = s.symbols.reverse :: context ⟨outer, m⟩ := rfl

@[simp] theorem length_context (c : ScopeChain) : c.context.length = c.scopes.length := by
  simp [context]

theorem distinct_enter {c : ScopeChain} (hc : c.Distinct) : c.enter.Distinct := by
  simpa [Distinct, enter, Scope.empty] using hc

end ScopeChain

theorem Scope.find?_eq_none {s : Scope} {n : String} :
    s.find? n = none ↔ Undeclared s.symbols.reverse n := by
  simp [Scope.find?, Undeclared]

theorem Scope.find?_eq_some {s : Scope} {n : String} {x : Symbol}
    (hs : (s.symbols.map Symbol.name).Nodup) :
    s.find? n = some x ↔ x ∈ s.symbols.reverse ∧ x.name = n := by
  unfold Scope.find?
  rw [List.mem_reverse]
  constructor
  · intro h
    exact ⟨List.mem_of_find?_eq_some h, by simpa using List.find?_some h⟩
  · rintro ⟨hx, rfl⟩
    generalize s.symbols = ys at hs hx
    induction ys with
    | nil => simp at hx
    | cons y ys ih =>
        simp only [List.map_cons, List.nodup_cons, List.mem_map, not_exists, not_and] at hs
        rw [List.find?_cons]
        rcases List.mem_cons.mp hx with rfl | hx
        · simp
        · have hne : y.name ≠ x.name := fun h => hs.1 x hx h.symm
          simp only [hne, decide_false]
          exact ih hs.2 hx

/-- Looking a name up finds the symbol that the name denotes. -/
theorem ScopeChain.resolve_eq_some {c : ScopeChain} (hc : c.Distinct) {n : String} {x : Symbol} :
    c.resolve n = some x ↔ Denotes c.context n x := by
  obtain ⟨scopes, next⟩ := c
  simp only [ScopeChain.resolve, ScopeChain.context]
  simp only [ScopeChain.Distinct] at hc
  rw [List.findSome?_eq_some_iff]
  constructor
  · rintro ⟨inner, scope, outer, rfl, hx, hinner⟩
    have hs := (Scope.find?_eq_some (hc scope (by simp))).mp hx
    refine ⟨_, _, _, by rw [List.map_append, List.map_cons], hs.1, hs.2, ?_⟩
    intro s hs
    obtain ⟨t, ht, rfl⟩ := List.mem_map.mp hs
    exact Scope.find?_eq_none.mp (hinner t ht)
  · rintro ⟨inner, scope, outer, h, hx, hn, hinner⟩
    obtain ⟨inner, rest, rfl, rfl, hrest⟩ := List.map_eq_append_iff.mp h
    obtain ⟨scope, outer, rfl, rfl, rfl⟩ := List.map_eq_cons_iff.mp hrest
    refine ⟨inner, scope, outer, rfl, ?_, ?_⟩
    · exact (Scope.find?_eq_some (hc scope (by simp))).mpr ⟨hx, hn⟩
    · intro s hs
      exact Scope.find?_eq_none.mpr (hinner _ (List.mem_map_of_mem hs))

/-! ## Definitions -/

@[simp] theorem Scope.symbols_foldl_add (s : Scope) (xs : List Symbol) :
    (xs.foldl Scope.add s).symbols = xs.reverse ++ s.symbols := by
  induction xs generalizing s with
  | nil => rfl
  | cons x xs ih => simp [ih, Scope.add]

@[simp] theorem Scope.variableCount_foldl_add (s : Scope) (xs : List Symbol) :
    (xs.foldl Scope.add s).variableCount = s.variableCount + xs.countP Symbol.isVariable := by
  rw [counts, counts, symbols_foldl_add, List.countP_append, List.countP_reverse, Nat.add_comm]

/-- The scope in which symbols have been declared, one after the other. -/
def Scope.declaring (xs : List Symbol) : Scope := xs.foldl Scope.add .empty

@[simp] theorem Scope.symbols_declaring (xs : List Symbol) : (declaring xs).symbols = xs.reverse := by
  simp [declaring, empty]

theorem Scope.add_declaring (xs : List Symbol) (x : Symbol) :
    (declaring xs).add x = declaring (xs ++ [x]) := by
  simp [declaring]

namespace ScopeChain

/-- The chain after definitions in the innermost scope. -/
def extend (c : ScopeChain) (symbols : List Symbol) : ScopeChain :=
  match c.scopes with
  | [] => c
  | s :: outer => { c with scopes := symbols.foldl Scope.add s :: outer }

@[simp] theorem extend_nil (c : ScopeChain) : c.extend [] = c := by
  obtain ⟨_ | ⟨s, outer⟩, next⟩ := c <;> rfl

@[simp] theorem extend_extend (c : ScopeChain) (xs ys : List Symbol) :
    (c.extend xs).extend ys = c.extend (xs ++ ys) := by
  obtain ⟨_ | ⟨s, outer⟩, next⟩ := c <;> simp [extend]

theorem extend_cons (c : ScopeChain) (x : Symbol) (xs : List Symbol) :
    c.extend (x :: xs) = (c.extend [x]).extend xs := by
  rw [extend_extend, List.singleton_append]

theorem extend_ne_nil {c : ScopeChain} (hc : c.scopes ≠ []) (xs : List Symbol) :
    (c.extend xs).scopes ≠ [] := by
  obtain ⟨_ | ⟨s, outer⟩, next⟩ := c
  · exact absurd rfl hc
  · simp [extend]

@[simp] theorem level_extend (c : ScopeChain) (xs : List Symbol) : (c.extend xs).level = c.level := by
  obtain ⟨_ | ⟨s, outer⟩, next⟩ := c <;> simp [extend, level]

theorem distinct_extend {s : Scope} {outer : List Scope} {next : Nat} {x : Symbol}
    (hc : Distinct ⟨s :: outer, next⟩) :
    (extend ⟨s :: outer, next⟩ [x]).Distinct ↔ Undeclared s.symbols.reverse x.name := by
  simp only [Distinct, extend, List.forall_mem_cons, Scope.symbols_foldl_add, List.reverse_singleton,
    List.singleton_append, List.map_cons, List.nodup_cons] at hc ⊢
  simp only [hc.1, and_true, List.mem_map, not_exists, not_and, Undeclared, List.mem_reverse]
  exact ⟨fun h => h.1, fun h => ⟨h, hc.2⟩⟩

theorem distinct_of_extend {c : ScopeChain} {xs : List Symbol} (h : (c.extend xs).Distinct) :
    c.Distinct := by
  obtain ⟨_ | ⟨s, outer⟩, next⟩ := c
  · exact h
  · simp only [Distinct, extend, List.forall_mem_cons, Scope.symbols_foldl_add, List.map_append] at h ⊢
    exact ⟨(List.nodup_append.mp h.1).2.1, h.2⟩

theorem define_eq_ok {c c' : ScopeChain} {x y : Symbol} (hc : c.Distinct) :
    define x c = .ok y c' ↔
      x = y ∧ c.extend [x] = c' ∧ c.scopes ≠ [] ∧ (c.extend [x]).Distinct := by
  obtain ⟨scopes, next⟩ := c
  cases scopes with
  | nil => simp [define]
  | cons s outer =>
      rw [distinct_extend hc, ← Scope.find?_eq_none]
      unfold define
      cases hf : s.find? x.name with
      | none => simp [extend, hf]
      | some z => simp [hf]

theorem defineProcedure_eq_ok {s : Scope} {outer : List Scope} {n : Nat} {name : String}
    (hc : Distinct ⟨s :: outer, n⟩) {c' : ScopeChain} {x : Symbol} :
    defineProcedure name ⟨s :: outer, n⟩ = .ok x c' ↔
      x = ⟨name, .proc outer.length n⟩ ∧ c' = ⟨s.add x :: outer, n + 1⟩ ∧
        Undeclared s.symbols.reverse name := by
  have hc' : Distinct ⟨s :: outer, n + 1⟩ := hc
  rw [← distinct_extend (x := ⟨name, .proc outer.length n⟩) hc']
  show define ⟨name, .proc outer.length n⟩ ⟨s :: outer, n + 1⟩ = .ok x c' ↔ _
  rw [define_eq_ok hc']
  constructor
  · rintro ⟨rfl, rfl, -, hd⟩
    exact ⟨rfl, rfl, hd⟩
  · rintro ⟨rfl, rfl, hd⟩
    exact ⟨rfl, rfl, by simp, hd⟩

theorem variableCount_extend {c : ScopeChain} (hc : c.scopes ≠ []) (xs : List Symbol) :
    (c.extend xs).variableCount = c.variableCount + xs.countP Symbol.isVariable := by
  obtain ⟨_ | ⟨s, outer⟩, next⟩ := c
  · exact absurd rfl hc
  · simp [extend, variableCount]

@[simp] theorem countP_isVariable_slots (level slot : Nat) (names : List String) :
    (slots level slot names).countP Symbol.isVariable = names.length := by
  induction names generalizing slot with
  | nil => rfl
  | cons n names ih =>
      rw [slots, List.countP_cons_of_pos (by rfl), ih, List.length_cons]

theorem countP_isVariable_constants {w : Word} {cs : List Symbol} {k : Keyword}
    (h : Declarations k Constant w cs) : cs.countP Symbol.isVariable = 0 := by
  cases h with
  | none => rfl
  | some h =>
      induction h with
      | one h =>
          cases h
          rfl
      | more h _ ih =>
          cases h
          exact ih

/-- The scope of a block after its constants and variables. -/
theorem extend_declarations (outer : List Scope) (n : Nat) {w : Word} {cs : List Symbol}
    {k : Keyword} (h : Declarations k Constant w cs) (names : List String) :
    let c := extend ⟨.empty :: outer, n⟩ cs
    c.level = outer.length ∧ c.variableCount = 0 ∧
      c.extend (slots outer.length 0 names) =
        ⟨.declaring (cs ++ slots outer.length 0 names) :: outer, n⟩ := by
  refine ⟨by rw [level_extend]; rfl, ?_, by simp [extend, Scope.declaring]⟩
  rw [variableCount_extend (by simp), countP_isVariable_constants h]
  rfl

theorem variableCount_declarations (outer : List Scope) (n : Nat) {w : Word} {cs : List Symbol}
    {k : Keyword} (h : Declarations k Constant w cs) (level : Nat) (names : List String) :
    variableCount ⟨.declaring (cs ++ slots level 0 names) :: outer, n⟩ = names.length := by
  simp [variableCount, Scope.declaring, Scope.empty, countP_isVariable_constants h]

/-! ## Lists of declarations -/

/-- Items with commas between them that each declare a symbol, in a chain that grows with them. -/
inductive Declared (Item : ScopeChain → Word → Symbol → Prop) :
    ScopeChain → Word → List Symbol → Prop where
  | one {c w x} : Item c w x → Declared Item c w [x]
  | more {c w x p v xs} : Item c w x → Declared Item (c.extend [x]) v xs →
      Declared Item c (w ++ ⟨.mark .comma, p⟩ :: v) (x :: xs)

/-- A name that declares the next variable of the innermost scope. -/
def NextVariable (c : ScopeChain) (w : Word) (x : Symbol) : Prop :=
  ∃ n, Name w n ∧ x = ⟨n, .var c.level c.variableCount⟩

theorem declared_constant_iff {c : ScopeChain} {w : Word} {xs : List Symbol} :
    Declared (fun _ => Constant) c w xs ↔ Separated .comma Constant w xs := by
  constructor
  · intro h
    induction h with
    | one h => exact .one h
    | more h _ ih => exact .more h ih
  · intro h
    induction h generalizing c with
    | one h => exact .one h
    | more h _ ih => exact .more h ih

theorem declared_variable_iff {c : ScopeChain} (hc : c.scopes ≠ []) {w : Word} {xs : List Symbol} :
    Declared NextVariable c w xs ↔
      ∃ names, Separated .comma Name w names ∧ xs = slots c.level c.variableCount names := by
  constructor
  · intro h
    induction h with
    | one h =>
        obtain ⟨n, hn, rfl⟩ := h
        exact ⟨[n], .one hn, rfl⟩
    | @more c w x p v xs h _ ih =>
        obtain ⟨n, hn, rfl⟩ := h
        obtain ⟨names, hnames, rfl⟩ := ih (extend_ne_nil hc _)
        refine ⟨n :: names, .more hn hnames, ?_⟩
        simp [slots, variableCount_extend hc, Symbol.isVariable]
  · rintro ⟨names, h, rfl⟩
    induction h generalizing c with
    | one h => exact .one ⟨_, h, rfl⟩
    | @more w n p v names h _ ih =>
        refine .more ⟨n, h, rfl⟩ ?_
        have := ih (c := c.extend [⟨n, .var c.level c.variableCount⟩]) (extend_ne_nil hc _)
        simpa [variableCount_extend hc, Symbol.isVariable] using this

end ScopeChain

end PLZero
