import PLZero.Compiler.Error
import PLZero.Proofs.Compiled

/-!
# Misuses of names

The uses of names in a tree, in the order in which the compiler comes to them, and those among them that
are errors. In a tree of the grammar each use is a token of the source.
-/

namespace PLZero

open Grammar

/-- A use of a name at a place. -/
structure Occurrence where
  usage : Usage
  symbol : Symbol
  position : Position

namespace Occurrence

/-- A procedure as a value, an assignment to anything but a variable, or a call of anything but a
procedure. -/
def isMisuse (o : Occurrence) : Bool :=
  match o.usage, o.symbol.binding with
  | .value, .proc .. => true
  | .target, .const _ | .target, .proc .. => true
  | .callee, .var .. | .callee, .const _ => true
  | _, _ => false

def error (o : Occurrence) : CompileError :=
  match o.usage with
  | .value => .notAValue o.symbol o.position
  | .target => .notAssignable o.symbol o.position
  | .callee => .notCallable o.symbol o.position

/-- The identifier of the use is a token of the word. -/
def StandsIn (o : Occurrence) (w : Word) : Prop := ⟨.ident o.symbol.name, o.position⟩ ∈ w

end Occurrence

/-- The uses of names in an expression: operands from left to right. -/
def Expr.occurrences : Expr → List Occurrence
  | .binary _ lhs rhs _ => lhs.occurrences ++ rhs.occurrences
  | .unary _ operand _ => operand.occurrences
  | .literal _ => []
  | .name x position => [⟨.value, x, position⟩]

mutual

/-- The uses of names in a statement: a value before its target, a condition before what it decides. -/
def Stmt.occurrences : Stmt → List Occurrence
  | .assign target value position => value.occurrences ++ [⟨.target, target, position⟩]
  | .read targets => targets.map fun target => ⟨.target, target.value, target.position⟩
  | .write values => values.flatMap Expr.occurrences
  | .call callee position => [⟨.callee, callee, position⟩]
  | .ifThen condition body => condition.occurrences ++ body.occurrences
  | .ifElse condition body alternative =>
    condition.occurrences ++ (body.occurrences ++ alternative.occurrences)
  | .whileDo condition body => condition.occurrences ++ body.occurrences
  | .sequence body => Stmt.occurrencesIn body
  | .ret => []

def Stmt.occurrencesIn : List Stmt → List Occurrence
  | [] => []
  | s :: rest => s.occurrences ++ Stmt.occurrencesIn rest

end

/-- The uses of names in a program: the body of a block before its procedures. -/
def Block.occurrences (program : Block) : List Occurrence :=
  program.blocks.flatMap fun b => b.body.occurrences

def Block.misuses (program : Block) : List Occurrence := program.occurrences.filter Occurrence.isMisuse

/-! ## Blocks of a program -/

namespace Block

theorem map_proceduresIn (ps : List (Procedure Block)) :
    (Semantics.proceduresIn ps).map Prod.snd = ps.flatMap fun p => p.block.blocks := by
  induction ps with
  | nil => rfl
  | cons p rest ih =>
      obtain ⟨x, block, position⟩ := p
      simp [Semantics.proceduresIn, ih, blocks]

theorem blocks_eq (b : Block) : b.blocks = b :: b.procedures.flatMap fun p => p.block.blocks := by
  cases b with
  | mk => rw [blocks, Semantics.procedures, map_proceduresIn]

theorem occurrences_eq (b : Block) :
    b.occurrences = b.body.occurrences ++ b.procedures.flatMap fun p => p.block.occurrences := by
  rw [occurrences, blocks_eq, List.flatMap_cons, List.flatMap_assoc]
  rfl

theorem blocks_subset {b : Block} {p : Procedure Block} (hp : p ∈ b.procedures) : p.block.blocks ⊆ b.blocks := by
  intro t ht
  rw [blocks_eq]
  exact List.mem_cons_of_mem _ (List.mem_flatMap.mpr ⟨p, hp, ht⟩)

end Block

/-! ## Places of uses -/

theorem Occurrence.StandsIn.mono {o : Occurrence} {v w : Word} (h : o.StandsIn v)
    (hvw : ∀ t ∈ v, t ∈ w) : o.StandsIn w := hvw _ h

theorem Occurrence.standsIn_append {us vs : List Occurrence} {u v w : Word} (hu : ∀ o ∈ us, o.StandsIn u)
    (hv : ∀ o ∈ vs, o.StandsIn v) (huw : ∀ t ∈ u, t ∈ w) (hvw : ∀ t ∈ v, t ∈ w) :
    ∀ o ∈ us ++ vs, o.StandsIn w := by
  intro o ho
  rcases List.mem_append.mp ho with ho | ho
  · exact (hu o ho).mono huw
  · exact (hv o ho).mono hvw

namespace Grammar

theorem Denotes.name_eq {Γ : Context} {name : String} {x : Symbol} (h : Denotes Γ name x) : x.name = name := by
  obtain ⟨_, _, _, _, _, hname, _⟩ := h
  exact hname

theorem Denotes.standsIn {Γ : Context} {name : String} {x : Symbol} (h : Denotes Γ name x) (usage : Usage)
    {position : Position} {w : Word} (hw : ⟨.ident name, position⟩ ∈ w) :
    Occurrence.StandsIn ⟨usage, x, position⟩ w := by
  unfold Occurrence.StandsIn
  rw [h.name_eq]
  exact hw

variable {Γ : Context}

mutual

theorem Factor.standsIn {w : Word} {e : Expr} : Factor Γ w e → ∀ o ∈ e.occurrences, o.StandsIn w
  | .name h => by simpa [Expr.occurrences] using h.standsIn .value (by simp)
  | .number => by simp [Expr.occurrences]
  | .paren h => fun o ho => (h.standsIn o ho).mono fun _ ht => by simp [ht]

theorem Term.standsIn {w : Word} {e : Expr} : Term Γ w e → ∀ o ∈ e.occurrences, o.StandsIn w
  | .factor h => h.standsIn
  | .more h _ hf =>
      Occurrence.standsIn_append h.standsIn hf.standsIn (fun _ ht => by simp [ht]) fun _ ht => by simp [ht]

theorem Expression.standsIn {w : Word} {e : Expr} : Expression Γ w e → ∀ o ∈ e.occurrences, o.StandsIn w
  | .term h => h.standsIn
  | .plus h => fun o ho => (h.standsIn o ho).mono fun _ ht => by simp [ht]
  | .minus h => fun o ho => (h.standsIn o ho).mono fun _ ht => by simp [ht]
  | .more h _ ht =>
      Occurrence.standsIn_append h.standsIn ht.standsIn (fun _ ht => by simp [ht]) fun _ ht => by simp [ht]

end

theorem Condition.standsIn {w : Word} {e : Expr} (h : Condition Γ w e) : ∀ o ∈ e.occurrences, o.StandsIn w := by
  cases h with
  | odd h => exact fun o ho => (h.standsIn o ho).mono fun _ ht => by simp [ht]
  | comparison h _ hf =>
      exact Occurrence.standsIn_append h.standsIn hf.standsIn (fun _ ht => by simp [ht])
        fun _ ht => by simp [ht]

/-- What stands in the word of each item stands in the word of them all. -/
theorem Separated.standsIn {α : Type} {m : Mark} {Item : Word → α → Prop} {w : Word} {as : List α}
    (h : Separated m Item w as) {f : α → List Occurrence}
    (hitem : ∀ v a, Item v a → ∀ o ∈ f a, o.StandsIn v) : ∀ o ∈ as.flatMap f, o.StandsIn w := by
  induction h with
  | one h => simpa using hitem _ _ h
  | more h _ ih =>
      rw [List.flatMap_cons]
      exact Occurrence.standsIn_append (hitem _ _ h) ih (fun _ ht => by simp [ht]) fun _ ht => by simp [ht]

theorem Use.standsIn {w : Word} {target : Located Symbol} (h : Use Γ w target) :
    ∀ o ∈ [(⟨.target, target.value, target.position⟩ : Occurrence)], o.StandsIn w := by
  cases h with
  | mk h => simpa using h.standsIn .target (by simp)

mutual

theorem Statement.standsIn {w : Word} {s : Stmt} : Statement Γ w s → ∀ o ∈ s.occurrences, o.StandsIn w
  | .empty => by simp [Stmt.occurrences, Stmt.occurrencesIn]
  | .assign hx he => fun o ho => by
      rw [Stmt.occurrences, List.mem_append] at ho
      rcases ho with ho | ho
      · exact (he.standsIn o ho).mono fun _ ht => by simp [ht]
      · obtain rfl := List.mem_singleton.mp ho
        exact hx.standsIn .target (by simp)
  | .call hx => by simpa [Stmt.occurrences] using hx.standsIn .callee (by simp)
  | .read h => fun o ho => by
      rw [Stmt.occurrences, List.map_eq_flatMap] at ho
      exact (h.standsIn (fun _ _ h => h.standsIn) o ho).mono fun _ ht => by simp [ht]
  | .write h => fun o ho => by
      rw [Stmt.occurrences] at ho
      exact (h.standsIn (fun _ _ h => h.standsIn) o ho).mono fun _ ht => by simp [ht]
  | .sequence h => fun o ho => (h.standsIn o ho).mono fun _ ht => by simp [ht]
  | .ifThen hc h => by
      rw [Stmt.occurrences]
      exact Occurrence.standsIn_append hc.standsIn h.standsIn (fun _ ht => by simp [ht])
        fun _ ht => by simp [ht]
  | .ifElse hc h _ h' => fun o ho => by
      rw [Stmt.occurrences, List.mem_append, List.mem_append] at ho
      rcases ho with ho | ho | ho
      · exact (hc.standsIn o ho).mono fun _ ht => by simp [ht]
      · exact (h.standsIn o ho).mono fun _ ht => by simp [ht]
      · exact (h'.standsIn o ho).mono fun _ ht => by simp [ht]
  | .whileDo hc h => by
      rw [Stmt.occurrences]
      exact Occurrence.standsIn_append hc.standsIn h.standsIn (fun _ ht => by simp [ht])
        fun _ ht => by simp [ht]
  | .ret => by simp [Stmt.occurrences]

theorem Statements.standsIn {w : Word} {ss : List Stmt} :
    Statements Γ w ss → ∀ o ∈ Stmt.occurrencesIn ss, o.StandsIn w
  | .one h => fun o ho => h.standsIn o (by simpa [Stmt.occurrencesIn] using ho)
  | .more h hs => by
      rw [Stmt.occurrencesIn]
      exact Occurrence.standsIn_append h.standsIn hs.standsIn (fun _ ht => by simp [ht])
        fun _ ht => by simp [ht]

end

mutual

/-- Every use in a block is a token of its word. -/
theorem BlockAt.standsIn {Γ : Context} {n n' : Nat} {w : Word} {b : Block} :
    BlockAt Γ n w b n' → ∀ o ∈ b.occurrences, o.StandsIn w
  | .mk _ _ _ hps hbody => by
      rw [Block.occurrences_eq]
      exact Occurrence.standsIn_append hbody.standsIn hps.standsIn (fun _ ht => by simp [ht])
        fun _ ht => by simp [ht]

theorem ProceduresAt.standsIn {Γ : Context} {scope scope' : List Symbol} {n n' : Nat} {w : Word}
    {ps : List (Procedure Block)} : ProceduresAt Γ scope n w ps scope' n' →
    ∀ o ∈ ps.flatMap (fun p => p.block.occurrences), o.StandsIn w
  | .nil => by simp
  | .cons _ hblock hps => by
      rw [List.flatMap_cons]
      exact Occurrence.standsIn_append hblock.standsIn hps.standsIn (fun _ ht => by simp [ht])
        fun _ ht => by simp [ht]

end

mutual

/-- A block has a token at least for each level that it opens. -/
theorem BlockAt.level_le {Γ : Context} {n n' : Nat} {w : Word} {b : Block} :
    BlockAt Γ n w b n' → ∀ t ∈ b.blocks, t.level ≤ Γ.length + w.length
  | .mk _ _ _ hps _ => fun t ht => by
      rw [Block.blocks_eq] at ht
      rcases List.mem_cons.mp ht with rfl | ht
      · simp
      · have := hps.level_le t ht
        simp only [List.length_append]
        omega

theorem ProceduresAt.level_le {Γ : Context} {scope scope' : List Symbol} {n n' : Nat} {w : Word}
    {ps : List (Procedure Block)} : ProceduresAt Γ scope n w ps scope' n' →
    ∀ t ∈ ps.flatMap (fun p => p.block.blocks), t.level ≤ Γ.length + w.length
  | .nil => by simp
  | .cons _ hblock hps => fun t ht => by
      rw [List.flatMap_cons, List.mem_append] at ht
      simp only [List.length_append, List.length_cons]
      rcases ht with ht | ht
      · have := hblock.level_le t ht
        rw [List.length_cons] at this
        omega
      · have := hps.level_le t ht
        omega

end

end Grammar

end PLZero
