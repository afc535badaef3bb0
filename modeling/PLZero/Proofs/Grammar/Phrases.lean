import PLZero.Token

/-!
# Phrases

The grammar without its scopes: which lists of tokens are derived when places are left out and any name
may stand where a name can. An `else` may go with any `if` before it that has none. The lists come out
the same if it has to go with the nearest one, which is how phrases are read.
-/

namespace PLZero

/-- Tokens without their places. -/
abbrev Phrase := List Token

namespace Phrase

/-- One token of a class. -/
inductive One (T : Token → Prop) : Phrase → Prop where
  | mk {t} : T t → One T [t]

/-- `ident` -/
def Name : Phrase → Prop := One fun t => ∃ n, t = .ident n

/-- `{opener item}` -/
inductive Run (Opener : Token → Prop) (Item : Phrase → Prop) : Phrase → Prop where
  | nil : Run Opener Item []
  | cons {t v w} : Opener t → Item v → Run Opener Item w → Run Opener Item (t :: v ++ w)

/-- `item {separator item}` -/
inductive Separated (separator : Mark) (Item : Phrase → Prop) : Phrase → Prop where
  | one {w} : Item w → Separated separator Item w
  | more {w v} : Item w → Separated separator Item v →
      Separated separator Item (w ++ .mark separator :: v)

/-! ## Expressions -/

def IsMultiplication (t : Token) : Prop := t = .mark .star ∨ t = .mark .slash

def IsAddition (t : Token) : Prop := t = .mark .plus ∨ t = .mark .minus

mutual

/-- `ident | number | "(" expression ")"` -/
inductive Factor : Phrase → Prop where
  | name {n} : Factor [.ident n]
  | number {v} : Factor [.number v]
  | paren {w} : Expression w → Factor (.mark .lparen :: w ++ [.mark .rparen])

/-- `factor {("*" | "/") factor}` -/
inductive Term : Phrase → Prop where
  | mk {v w} : Factor v → Run IsMultiplication Factor w → Term (v ++ w)

/-- `["+" | "-"] term {("+" | "-") term}` -/
inductive Expression : Phrase → Prop where
  | plain {v w} : Term v → Run IsAddition Term w → Expression (v ++ w)
  | signed {t v w} : IsAddition t → Term v → Run IsAddition Term w → Expression (t :: v ++ w)

end

/-- `"odd" expression | expression relop expression` -/
inductive Condition : Phrase → Prop where
  | odd {w} : Expression w → Condition (.keyword .odd :: w)
  | comparison {w m v} : Expression w → Mark.isRelational m = true → Expression v →
      Condition (w ++ .mark m :: v)

/-! ## Statements -/

/-- A statement; it may be empty. -/
inductive Statement : Phrase → Prop where
  | empty : Statement []
  | assign {n w} : Expression w → Statement (.ident n :: .mark .assign :: w)
  | call {n} : Statement [.keyword .call, .ident n]
  | read {w} : Separated .comma Name w → Statement (.keyword .read :: w)
  | write {w} : Separated .comma Expression w → Statement (.keyword .write :: w)
  | sequence {w} : Separated .semicolon Statement w →
      Statement (.keyword .«begin» :: w ++ [.keyword .«end»])
  | ifThen {w v} : Condition w → Statement v →
      Statement (.keyword .«if» :: w ++ .keyword .«then» :: v)
  | ifElse {w v u} : Condition w → Statement v → Statement u →
      Statement (.keyword .«if» :: w ++ .keyword .«then» :: v ++ .keyword .«else» :: u)
  | whileDo {w v} : Condition w → Statement v →
      Statement (.keyword .«while» :: w ++ .keyword .«do» :: v)
  | ret : Statement [.keyword .«return»]

/-! ## Blocks -/

/-- `ident "=" number` -/
inductive Constant : Phrase → Prop where
  | mk {n v} : Constant [.ident n, .mark .eq, .number v]

/-- `[keyword item {"," item} ";"]` -/
inductive Declarations (keyword : Keyword) (Item : Phrase → Prop) : Phrase → Prop where
  | none : Declarations keyword Item []
  | some {w} : Separated .comma Item w →
      Declarations keyword Item (.keyword keyword :: w ++ [.mark .semicolon])

mutual

/-- Constants, variables, `{"procedure" procedure}` and a statement. -/
inductive Block : Phrase → Prop where
  | mk {c v p s} : Declarations .const Constant c → Declarations .var Name v →
      Run (· = .keyword .procedure) Procedure p → Statement s → Block (c ++ (v ++ (p ++ s)))

/-- `ident ";" block ";"` -/
inductive Procedure : Phrase → Prop where
  | mk {n w} : Block w → Procedure (.ident n :: .mark .semicolon :: w ++ [.mark .semicolon])

end

/-- `block "." EOF` -/
inductive Sentence : Phrase → Prop where
  | mk {w} : Block w → Sentence (w ++ [.mark .period, .eof])

/-! ## The nearest `if` -/

/-- Statements in which every `else` goes with the nearest `if` that has none yet. The flag says that
the statement ends in an `if` without `else`, which would take one that follows. -/
inductive Nearest : Bool → Phrase → Prop where
  | plain {w} : Statement w → w.head? ≠ some (.keyword .«if») → w.head? ≠ some (.keyword .«while») →
      Nearest false w
  | ifThen {w b v} : Condition w → Nearest b v →
      Nearest true (.keyword .«if» :: w ++ .keyword .«then» :: v)
  | ifElse {w v b u} : Condition w → Nearest false v → Nearest b u →
      Nearest b (.keyword .«if» :: w ++ .keyword .«then» :: v ++ .keyword .«else» :: u)
  | whileDo {w b v} : Condition w → Nearest b v →
      Nearest b (.keyword .«while» :: w ++ .keyword .«do» :: v)

/-- An `else` after a statement that ends in an `if` without one goes to that `if`. -/
theorem Nearest.attach {o b : Bool} {v u : Phrase} (h : Nearest o v) (ho : o = true) (hu : Nearest b u) :
    ∃ b', Nearest b' (v ++ .keyword .«else» :: u) := by
  induction h with
  | plain => cases ho
  | @ifThen w b₀ v hc hv ih =>
      cases b₀ with
      | false => exact ⟨b, .ifElse hc hv hu⟩
      | true =>
          obtain ⟨b', h⟩ := ih rfl
          exact ⟨true, by simpa using Nearest.ifThen hc h⟩
  | ifElse hc hv _ _ ih =>
      obtain ⟨b', h⟩ := ih ho
      exact ⟨b', by simpa using Nearest.ifElse hc hv h⟩
  | whileDo hc _ ih =>
      obtain ⟨b', h⟩ := ih ho
      exact ⟨b', by simpa using Nearest.whileDo hc h⟩

/-- Whichever `if` the `else`s of a statement go with, they can go with the nearest. -/
theorem Statement.exists_nearest {w : Phrase} (h : Statement w) : ∃ b, Nearest b w := by
  cases h with
  | ifThen hc hv =>
      obtain ⟨b, hv⟩ := hv.exists_nearest
      exact ⟨true, .ifThen hc hv⟩
  | @ifElse w v u hc hv hu =>
      obtain ⟨b, hu⟩ := hu.exists_nearest
      obtain ⟨o, hv⟩ := hv.exists_nearest
      cases o with
      | false => exact ⟨b, .ifElse hc hv hu⟩
      | true =>
          -- the `else` was read as one of the outer `if`, and the inner one takes it
          obtain ⟨b', h⟩ := hv.attach rfl hu
          exact ⟨true, by simpa using Nearest.ifThen hc h⟩
  | whileDo hc hv =>
      obtain ⟨b, hv⟩ := hv.exists_nearest
      exact ⟨b, .whileDo hc hv⟩
  | empty => exact ⟨false, .plain .empty (by simp) (by simp)⟩
  | assign he => exact ⟨false, .plain (.assign he) (by simp) (by simp)⟩
  | call => exact ⟨false, .plain .call (by simp) (by simp)⟩
  | read h => exact ⟨false, .plain (.read h) (by simp) (by simp)⟩
  | write h => exact ⟨false, .plain (.write h) (by simp) (by simp)⟩
  | sequence h => exact ⟨false, .plain (.sequence h) (by simp) (by simp)⟩
  | ret => exact ⟨false, .plain .ret (by simp) (by simp)⟩
termination_by w.length
decreasing_by all_goals simp +arith

end Phrase

end PLZero
