import PLZero.Proofs.Grammar.Soundness

/-!
# What is derived is read

Every word with a derivation is read as the tree of that derivation, whatever follows it, as long as
the token after it cannot go on with it. Bounds are large enough if they are at least the length of the
word.
-/

namespace PLZero.Parser

open Grammar

/-- Words of `R` of length at most `n` are read, before a token that `Next` allows. -/
def Complete {α : Type} (x : Parse α) (R : Context → Word → α → Prop) (n : Nat)
    (Next : α → Token → Prop) : Prop :=
  ∀ ⦃q : Parser⦄ ⦃w a⦄, R q.scopes.context w a → w.length ≤ n → q.scopes.Distinct →
    Next a q.current → x (q.unread w) = .ok a q

theorem declaredName_complete (n : Nat) : Complete declaredName Use n fun _ _ => True := by
  intro q w x h _ hq _
  exact (declaredName_eq_ok hq).mpr ⟨w, rfl, h⟩

theorem separated_complete {α : Type} {m : Mark} {item : Parse α} {R : Context → Word → α → Prop}
    {n : Nat} {Next : α → Token → Prop} (hitem : Complete item R n Next)
    (hnext : ∀ a, Next a (.mark m)) {q : Parser} {w : Word} {as : List α}
    (h : Separated m (R q.scopes.context) w as) {bound : Nat} (hbound : w.length ≤ bound)
    (hn : w.length ≤ n) (hq : q.scopes.Distinct) (hstop : q.current ≠ .mark m)
    (hlast : ∀ a, Next a q.current) : separated m item bound (q.unread w) = .ok as q := by
  induction h generalizing bound with
  | @one w a h =>
      have ha := hitem h hn hq (hlast a)
      cases bound with
      | zero =>
          unfold separated
          rw [Action.bind_of_ok ha]
          rfl
      | succ bound =>
          unfold separated
          rw [Action.bind_of_ok ha, Action.bind_of_ok (accept_eq_false.mpr ⟨rfl, hstop⟩)]
          rfl
  | @more w a p v as h hrest ih =>
      simp only [List.length_append, List.length_cons] at hbound hn
      obtain ⟨bound, rfl⟩ : ∃ b, bound = b + 1 := ⟨bound - 1, by omega⟩
      have ha : item ((q.unread (⟨.mark m, p⟩ :: v)).unread w) = .ok a _ :=
        hitem h (by omega) hq (hnext a)
      unfold separated
      rw [← unread_unread, Action.bind_of_ok ha, unread_cons,
        Action.bind_of_ok (accept_unread _ p (by simp)), if_pos rfl,
        Action.bind_of_ok (ih (by omega) (by omega))]
      rfl

/-! ## Expressions -/

/-- Operators and operands that extend an expression on the right, from left to right. -/
inductive Chain (Op : Token → Prop) (R : Word → Expr → Prop) : Expr → Word → Expr → Prop where
  | nil {e} : Chain Op R e [] e
  | cons {e t p v f w e'} : Op t → R v f → Chain Op R (.binary t e f p) w e' →
      Chain Op R e (⟨t, p⟩ :: v ++ w) e'

theorem Chain.snoc {Op : Token → Prop} {R : Word → Expr → Prop} {e w e' t p v f}
    (h : Chain Op R e w e') (ht : Op t) (hf : R v f) :
    Chain Op R e (w ++ ⟨t, p⟩ :: v) (.binary t e' f p) := by
  induction h with
  | nil => simpa using Chain.cons ht hf .nil
  | cons ht' hf' _ ih => simpa using Chain.cons ht' hf' ih

theorem term_chain {Γ : Context} {w : Word} {e : Expr} (h : Term Γ w e) :
    ∃ v f u, w = v ++ u ∧ Factor Γ v f ∧
      Chain (fun t => isMultiplicative t = true) (Factor Γ) f u e := by
  cases h with
  | factor h => exact ⟨w, e, [], by simp, h, .nil⟩
  | @more w' _ m p v' _ h hm hf =>
      obtain ⟨v, f, u, rfl, hv, hu⟩ := term_chain h
      refine ⟨v, f, u ++ ⟨.mark m, p⟩ :: v', by simp, hv, hu.snoc ?_ hf⟩
      rcases hm with rfl | rfl <;> rfl

/-- The first term of an expression, with the sign in front of it if there is one. -/
inductive FirstTerm (Γ : Context) : Word → Expr → Prop where
  | plain {w e} : Term Γ w e → FirstTerm Γ w e
  | plus {p w e} : Term Γ w e → FirstTerm Γ (⟨.mark .plus, p⟩ :: w) e
  | minus {p w e} : Term Γ w e →
      FirstTerm Γ (⟨.mark .minus, p⟩ :: w) (.binary (.mark .minus) (.literal 0) e p)

theorem expression_chain {Γ : Context} {w : Word} {e : Expr} (h : Expression Γ w e) :
    ∃ v f u, w = v ++ u ∧ FirstTerm Γ v f ∧ Chain (fun t => isAdditive t = true) (Term Γ) f u e := by
  cases h with
  | term h => exact ⟨w, e, [], by simp, .plain h, .nil⟩
  | @plus p v _ h => exact ⟨⟨.mark .plus, p⟩ :: v, _, [], by simp, .plus h, .nil⟩
  | @minus p v _ h => exact ⟨⟨.mark .minus, p⟩ :: v, _, [], by simp, .minus h, .nil⟩
  | @more _ _ m p v' _ h hm ht =>
      obtain ⟨v, f, u, rfl, hv, hu⟩ := expression_chain h
      refine ⟨v, f, u ++ ⟨.mark m, p⟩ :: v', by simp, hv, hu.snoc ?_ ht⟩
      rcases hm with rfl | rfl <;> rfl

theorem Chain.current {test : Token → Bool} {R : Word → Expr → Prop} {e w e'}
    (h : Chain (fun t => test t = true) R e w e') (q : Parser) :
    (q.unread w).current = q.current ∨ test (q.unread w).current = true := by
  cases h with
  | nil => exact .inl rfl
  | cons ht _ _ => exact .inr ht

theorem operations_complete {test : Token → Bool} {operand : Parse Expr}
    {R : Context → Word → Expr → Prop} {n : Nat} {Next : Token → Prop}
    (hoperand : Complete operand R n fun _ => Next) (hop : ∀ t, test t = true → Next t) {q : Parser}
    {lhs e : Expr} {w : Word} (h : Chain (fun t => test t = true) (R q.scopes.context) lhs w e)
    {bound : Nat} (hbound : w.length ≤ bound) (hn : w.length ≤ n) (hq : q.scopes.Distinct)
    (hstop : test q.current = false) (hnext : Next q.current) :
    operations test operand bound lhs (q.unread w) = .ok e q := by
  induction h generalizing bound with
  | nil =>
      cases bound with
      | zero => rfl
      | succ bound =>
          unfold operations
          rw [unread_nil, Action.bind_of_ok (peek_apply q), if_neg (by simp [hstop])]
          rfl
  | @cons e t p v f w e' ht hf hrest ih =>
      simp only [List.length_append, List.length_cons] at hbound hn
      obtain ⟨bound, rfl⟩ : ∃ b, bound = b + 1 := ⟨bound - 1, by omega⟩
      have hcurrent : Next (q.unread w).current := by
        rcases hrest.current q with h | h
        · exact h ▸ hnext
        · exact hop _ h
      have hv : operand ((q.unread w).unread v) = .ok f _ := hoperand hf (by omega) hq hcurrent
      unfold operations
      rw [← unread_unread, unread_cons, Action.bind_of_ok (peek_unread _ t p), if_pos ht,
        Action.bind_of_ok (position_unread _ t p), Action.bind_of_ok (advance_unread _ t p),
        Action.bind_of_ok hv]
      exact ih (by omega) (by omega)

def startsFactor : Token → Bool
  | .ident _ | .number _ | .mark .lparen => true
  | _ => false

theorem factor_head {Γ : Context} {w : Word} {e : Expr} (h : Factor Γ w e) :
    ∃ t v, w = t :: v ∧ startsFactor t.value = true := by
  cases h with
  | name => exact ⟨_, _, rfl, rfl⟩
  | number => exact ⟨_, _, rfl, rfl⟩
  | paren => exact ⟨_, _, rfl, rfl⟩

theorem term_head {Γ : Context} {w : Word} {e : Expr} (h : Term Γ w e) :
    ∃ t v, w = t :: v ∧ startsFactor t.value = true := by
  obtain ⟨v, f, u, rfl, hv, -⟩ := term_chain h
  obtain ⟨t, v, rfl, ht⟩ := factor_head hv
  exact ⟨t, v ++ u, rfl, ht⟩

theorem term_complete {bound n : Nat} {factor : Parse Expr} (hn : n ≤ bound)
    (hfactor : Complete factor Factor n fun _ _ => True) :
    Complete (term bound factor) Term n fun _ t => isMultiplicative t = false := by
  intro q w e h hw hq hnext
  obtain ⟨v, f, u, rfl, hv, hu⟩ := term_chain h
  rw [List.length_append] at hw
  have hf : factor ((q.unread u).unread v) = .ok f _ := hfactor hv (by omega) hq trivial
  unfold term
  rw [← unread_unread, Action.bind_of_ok hf]
  exact operations_complete hfactor (fun _ _ => trivial) hu (by omega) (by omega) hq hnext trivial

/-- A token that does not go on with an expression. -/
def endsExpression (t : Token) : Prop := isAdditive t = false ∧ isMultiplicative t = false

theorem sum_complete {bound n : Nat} {factor : Parse Expr} (hn : n ≤ bound)
    (hfactor : Complete factor Factor n fun _ _ => True) :
    Complete (sum bound factor) Expression n fun _ => endsExpression := by
  have hterm := term_complete hn hfactor
  intro q w e h hw hq hnext
  obtain ⟨v, f, u, rfl, hv, hu⟩ := expression_chain h
  rw [List.length_append] at hw
  -- a term is followed by an operator between terms or by what follows the expression
  have hcurrent : isMultiplicative (q.unread u).current = false := by
    rcases hu.current q with h | h
    · exact h ▸ hnext.2
    · obtain ⟨m, hm, rfl | rfl⟩ := isAdditive_iff.mp h <;> rw [hm] <;> rfl
  have hrest : operations isAdditive (term bound factor) bound f (q.unread u) = .ok e q := by
    refine operations_complete hterm (fun t ht => ?_) hu (by omega) (by omega) hq hnext.1 hnext.2
    obtain ⟨m, rfl, rfl | rfl⟩ := isAdditive_iff.mp ht <;> rfl
  unfold sum
  rw [← unread_unread]
  cases hv with
  | plain hv =>
      have ht : term bound factor ((q.unread u).unread v) = .ok f _ := hterm hv (by omega) hq hcurrent
      obtain ⟨⟨t, p⟩, v, rfl, hstart⟩ := term_head hv
      rw [unread_cons] at ht ⊢
      rw [Action.bind_of_ok (position_unread _ t p), Action.bind_of_ok (peek_unread _ t p)]
      split
      · cases hstart
      · cases hstart
      · rw [Action.bind_of_ok ht]
        exact hrest
  | @plus p v _ hv =>
      rw [List.length_cons] at hw
      have ht : term bound factor ((q.unread u).unread v) = .ok f _ := hterm hv (by omega) hq hcurrent
      rw [unread_cons, Action.bind_of_ok (position_unread _ _ p), Action.bind_of_ok (peek_unread _ _ p)]
      dsimp only
      rw [Action.bind_of_ok (advance_unread _ _ p), Action.bind_of_ok ht]
      exact hrest
  | @minus p v t hv =>
      rw [List.length_cons] at hw
      have ht : term bound factor ((q.unread u).unread v) = .ok t _ := hterm hv (by omega) hq hcurrent
      rw [unread_cons, Action.bind_of_ok (position_unread _ _ p), Action.bind_of_ok (peek_unread _ _ p)]
      dsimp only
      rw [Action.bind_of_ok (advance_unread _ _ p), Action.bind_of_ok ht]
      exact hrest

theorem atom_complete {q : Parser} {w : Word} {e : Expr} (h : Factor q.scopes.context w e)
    (hq : q.scopes.Distinct) (hparen : (q.unread w).current ≠ .mark .lparen) :
    atom (q.unread w) = .ok e q := by
  cases h with
  | @name n s p hd =>
      have hs := declaredName_complete 1 (Use.mk (p := p) hd) (by simp) hq trivial
      unfold atom
      rw [Action.bind_of_ok (peek_unread _ _ p)]
      dsimp only
      rw [Action.bind_of_ok hs]
      rfl
  | number => rfl
  | paren => exact absurd rfl hparen

theorem factor_complete (bound depth : Nat) (hd : depth ≤ bound) :
    Complete (factor bound depth) Factor depth fun _ _ => True := by
  induction depth with
  | zero =>
      intro q w e h hw
      obtain ⟨t, v, rfl, -⟩ := factor_head h
      simp at hw
  | succ depth ih =>
      intro q w e h hw hq _
      unfold factor
      by_cases hparen : (q.unread w).current = .mark .lparen
      · cases h with
        | name => simp at hparen
        | number => simp at hparen
        | @paren p w e a h =>
            simp only [List.length_append, List.length_cons, List.length_nil] at hw
            have he : sum bound (factor bound depth) ((q.unread [⟨.mark .rparen, a⟩]).unread w) = .ok e _ :=
              sum_complete (by omega) (ih (by omega)) h (by omega) hq ⟨rfl, rfl⟩
            rw [← unread_unread, unread_cons, Action.bind_of_ok (accept_unread _ p (by simp)),
              if_pos rfl, Action.bind_of_ok he, Action.bind_of_ok (expect_unread _ a (by simp))]
            rfl
      · rw [Action.bind_of_ok (accept_eq_false.mpr ⟨rfl, hparen⟩), if_neg (by simp)]
        exact atom_complete h hq hparen

theorem expression_complete (bound : Nat) :
    Complete (expression bound) Expression bound fun _ => endsExpression :=
  sum_complete (Nat.le_refl _) (factor_complete bound bound (Nat.le_refl _))

theorem expression_head {Γ : Context} {w : Word} {e : Expr} (h : Expression Γ w e) :
    ∃ t v, w = t :: v ∧ t.value ≠ .keyword .odd := by
  obtain ⟨v, f, u, rfl, hv, -⟩ := expression_chain h
  cases hv with
  | plain hv =>
      obtain ⟨t, v, rfl, ht⟩ := term_head hv
      refine ⟨t, v ++ u, rfl, ?_⟩
      intro hodd
      rw [hodd] at ht
      cases ht
  | plus => exact ⟨_, _, rfl, by simp⟩
  | minus => exact ⟨_, _, rfl, by simp⟩

theorem endsExpression_of_isRelational {m : Mark} (h : m.isRelational = true) :
    endsExpression (.mark m) := by
  cases m <;> simp_all [Mark.isRelational, endsExpression, isAdditive, isMultiplicative]

theorem condition_complete (bound : Nat) :
    Complete (condition bound) Condition bound fun _ => endsExpression := by
  intro q w e h hw hq hnext
  unfold condition
  rw [Action.bind_of_ok (position_apply _)]
  cases h with
  | @odd p w e h =>
      rw [List.length_cons] at hw
      rw [unread_cons, Action.bind_of_ok (accept_unread _ p (by simp)), if_pos rfl,
        Action.bind_of_ok (expression_complete bound h (by omega) hq hnext)]
      rfl
  | @comparison w e m p v f h hm hf =>
      simp only [List.length_append, List.length_cons] at hw
      have hl : expression bound ((q.unread (⟨.mark m, p⟩ :: v)).unread w) = .ok e _ :=
        expression_complete bound h (by omega) hq (endsExpression_of_isRelational hm)
      have hr : expression bound (q.unread v) = .ok f q :=
        expression_complete bound hf (by omega) hq hnext
      have hodd : ((q.unread (⟨.mark m, p⟩ :: v)).unread w).current ≠ .keyword .odd := by
        obtain ⟨t, u, rfl, ht⟩ := expression_head h
        exact ht
      rw [← unread_unread, Action.bind_of_ok (accept_eq_false.mpr ⟨rfl, hodd⟩), if_neg (by simp),
        Action.bind_of_ok hl, unread_cons, Action.bind_of_ok (position_unread _ _ p),
        Action.bind_of_ok (advance_unread _ _ p),
        if_pos (show (Token.mark m).isRelational = true from hm), Action.bind_of_ok hr]
      rfl

/-! ## Statements -/

/-- A token at which a statement can end. -/
def endsStatement : Token → Bool
  | .mark .semicolon | .keyword .«end» | .mark .period | .keyword .«else» => true
  | _ => false

/-- What may follow a statement: one that ends in an `if` without `else` would take an `else`. -/
def MayFollow (s : Stmt) (t : Token) : Prop :=
  endsStatement t = true ∧ (s.isOpen = true → t ≠ .keyword .«else»)

theorem endsExpression_of_endsStatement {t : Token} (h : endsStatement t = true) :
    endsExpression t := by
  cases t with
  | mark m => cases m <;> simp_all [endsStatement, endsExpression, isAdditive, isMultiplicative]
  | _ => simp_all [endsStatement, endsExpression, isAdditive, isMultiplicative]

theorem ne_comma_of_endsStatement {t : Token} (h : endsStatement t = true) : t ≠ .mark .comma := by
  rintro rfl
  simp [endsStatement] at h

theorem separated_of_statements {Γ : Context} {w : Word} {ss : List Stmt} (h : Statements Γ w ss) :
    Separated .semicolon (Statement Γ) w ss := by
  cases h with
  | one h => exact .one h
  | more h hs => exact .more h (separated_of_statements hs)

/-- A token that starts a statement with others in it. -/
def startsCompound : Token → Bool
  | .keyword .«begin» | .keyword .«if» | .keyword .«while» => true
  | _ => false

theorem startsCompound_eq_false {t : Token} (h : endsStatement t = true) : startsCompound t = false := by
  unfold startsCompound
  split
  · cases h
  · cases h
  · cases h
  · rfl

theorem statement_of_simple {bound depth : Nat} {p : Parser} (h : startsCompound p.current = false) :
    statement bound depth p = simpleStatement bound p := by
  cases depth with
  | zero => rfl
  | succ depth =>
      unfold statement
      rw [Action.bind_of_ok (peek_apply p)]
      generalize p.current = t at h
      split
      · simp [startsCompound] at h
      · simp [startsCompound] at h
      · simp [startsCompound] at h
      · rfl

theorem simpleStatement_complete {bound : Nat} {q : Parser} {w : Word} {s : Stmt}
    (h : Statement q.scopes.context w s) (hw : w.length ≤ bound) (hq : q.scopes.Distinct)
    (hnext : endsStatement q.current = true) (hsimple : startsCompound (q.unread w).current = false) :
    simpleStatement bound (q.unread w) = .ok s q := by
  have hexpr := endsExpression_of_endsStatement hnext
  have hcomma := ne_comma_of_endsStatement hnext
  unfold simpleStatement
  cases h with
  | empty =>
      rw [unread_nil, Action.bind_of_ok (peek_apply q)]
      generalize q.current = t at hnext
      unfold endsStatement at hnext
      split at hnext
      · rfl
      · rfl
      · rfl
      · rfl
      · cases hnext
  | @assign n x p a w e hd he =>
      simp only [List.length_cons] at hw
      have hx : declaredName ((q.unread (⟨.mark .assign, a⟩ :: w)).unread [⟨.ident n, p⟩]) = .ok ⟨x, p⟩ _ :=
        declaredName_complete 1 (.mk hd) (by simp) hq trivial
      rw [unread_cons, Action.bind_of_ok (peek_unread _ _ p)]
      dsimp only
      rw [Action.bind_of_ok hx, unread_cons, Action.bind_of_ok (expect_unread _ a (by simp)),
        Action.bind_of_ok (expression_complete bound he (by omega) hq hexpr)]
      rfl
  | @call n x p a hd =>
      have hx : declaredName (q.unread [⟨.ident n, p⟩]) = .ok ⟨x, p⟩ _ :=
        declaredName_complete 1 (.mk hd) (by simp) hq trivial
      rw [unread_cons, Action.bind_of_ok (peek_unread _ _ a)]
      dsimp only
      rw [Action.bind_of_ok (advance_unread _ _ a), Action.bind_of_ok hx]
      rfl
  | @read a w xs h =>
      rw [List.length_cons] at hw
      have hxs := separated_complete (declaredName_complete bound) (fun _ => trivial) h
        (Nat.le_of_succ_le hw) (by omega) hq hcomma (fun _ => trivial)
      rw [unread_cons, Action.bind_of_ok (peek_unread _ _ a)]
      dsimp only
      rw [Action.bind_of_ok (advance_unread _ _ a), Action.bind_of_ok hxs]
      rfl
  | @write a w es h =>
      rw [List.length_cons] at hw
      have hes := separated_complete (expression_complete bound) (fun _ => ⟨rfl, rfl⟩) h
        (Nat.le_of_succ_le hw) (by omega) hq hcomma (fun _ => hexpr)
      rw [unread_cons, Action.bind_of_ok (peek_unread _ _ a)]
      dsimp only
      rw [Action.bind_of_ok (advance_unread _ _ a), Action.bind_of_ok hes]
      rfl
  | ret => rfl
  | sequence => simp [startsCompound] at hsimple
  | ifThen => simp [startsCompound] at hsimple
  | ifElse => simp [startsCompound] at hsimple
  | whileDo => simp [startsCompound] at hsimple

theorem statement_complete (bound depth : Nat) (hd : depth ≤ bound) :
    Complete (statement bound depth) Statement depth MayFollow := by
  -- A statement within another is shorter by a token at least, so that the depth suffices for it.
  induction depth with
  | zero =>
      intro q w s h hw hq hnext
      obtain rfl : w = [] := by simpa using hw
      have hsimple : startsCompound (q.unread []).current = false := by
        rw [unread_nil]
        exact startsCompound_eq_false hnext.1
      exact simpleStatement_complete h (by simp) hq hnext.1 hsimple
  | succ depth ih =>
      intro q w s h hw hq hnext
      have ih := ih (by omega)
      by_cases hsimple : startsCompound (q.unread w).current = false
      · rw [statement_of_simple hsimple]
        exact simpleStatement_complete h (by omega) hq hnext.1 hsimple
      · unfold statement
        cases h with
        | empty =>
            rw [unread_nil] at hsimple
            exact absurd (startsCompound_eq_false hnext.1) hsimple
        | assign => simp [startsCompound] at hsimple
        | call => simp [startsCompound] at hsimple
        | read => simp [startsCompound] at hsimple
        | write => simp [startsCompound] at hsimple
        | ret => simp [startsCompound] at hsimple
        | @sequence p w body a h =>
            simp only [List.length_append, List.length_cons, List.length_nil] at hw
            have hbody := separated_complete (q := q.unread [⟨.keyword .«end», a⟩]) ih
              (fun s => ⟨rfl, by simp⟩) (separated_of_statements h) (show w.length ≤ bound by omega)
              (by omega) hq (by simp) (fun s => ⟨rfl, by simp⟩)
            rw [← unread_unread, unread_cons, Action.bind_of_ok (peek_unread _ _ p)]
            dsimp only
            rw [Action.bind_of_ok (advance_unread _ _ p), Action.bind_of_ok hbody,
              Action.bind_of_ok (expect_unread _ a (by simp))]
            rfl
        | @ifThen p w c a v s hc hs =>
            simp only [List.length_append, List.length_cons] at hw
            have hcond : condition bound ((q.unread (⟨.keyword .«then», a⟩ :: v)).unread w) = .ok c _ :=
              condition_complete bound hc (by omega) hq ⟨rfl, rfl⟩
            have hne : q.current ≠ .keyword .«else» := hnext.2 rfl
            have hbody : statement bound depth (q.unread v) = .ok s q :=
              ih hs (by omega) hq ⟨hnext.1, fun _ => hne⟩
            rw [← unread_unread, unread_cons, Action.bind_of_ok (peek_unread _ _ p)]
            dsimp only
            rw [Action.bind_of_ok (advance_unread _ _ p), Action.bind_of_ok hcond, unread_cons,
              Action.bind_of_ok (expect_unread _ a (by simp)), Action.bind_of_ok hbody,
              Action.bind_of_ok (accept_eq_false.mpr ⟨rfl, hne⟩)]
            rfl
        | @ifElse p w c a v s b u t hc hs hopen ht =>
            simp only [List.length_append, List.length_cons] at hw
            have hcond : condition bound
                (((q.unread (⟨.keyword .«else», b⟩ :: u)).unread (⟨.keyword .«then», a⟩ :: v)).unread w)
                = .ok c _ :=
              condition_complete bound hc (by omega) hq ⟨rfl, rfl⟩
            have hbody : statement bound depth ((q.unread (⟨.keyword .«else», b⟩ :: u)).unread v)
                = .ok s _ :=
              ih hs (by omega) hq ⟨rfl, by simp [hopen]⟩
            have halt : statement bound depth (q.unread u) = .ok t q :=
              ih ht (by omega) hq hnext
            rw [← unread_unread, ← unread_unread, unread_cons, Action.bind_of_ok (peek_unread _ _ p)]
            dsimp only
            rw [Action.bind_of_ok (advance_unread _ _ p), Action.bind_of_ok hcond, unread_cons,
              Action.bind_of_ok (expect_unread _ a (by simp)), Action.bind_of_ok hbody, unread_cons,
              Action.bind_of_ok (accept_unread _ b (by simp)), if_pos rfl, Action.bind_of_ok halt]
            rfl
        | @whileDo p w c a v s hc hs =>
            simp only [List.length_append, List.length_cons] at hw
            have hcond : condition bound ((q.unread (⟨.keyword .«do», a⟩ :: v)).unread w) = .ok c _ :=
              condition_complete bound hc (by omega) hq ⟨rfl, rfl⟩
            have hbody : statement bound depth (q.unread v) = .ok s q :=
              ih hs (by omega) hq hnext
            rw [← unread_unread, unread_cons, Action.bind_of_ok (peek_unread _ _ p)]
            dsimp only
            rw [Action.bind_of_ok (advance_unread _ _ p), Action.bind_of_ok hcond, unread_cons,
              Action.bind_of_ok (expect_unread _ a (by simp)), Action.bind_of_ok hbody]
            rfl

/-! ## Declarations -/

/-- Words of `Item` are read, and declare their symbol in the innermost scope. -/
def DeclaresAll (item : Parse Symbol) (Item : ScopeChain → Word → Symbol → Prop) : Prop :=
  ∀ ⦃c w x⦄, Item c w x → ∀ q : Parser, c.scopes ≠ [] → c.Distinct → (c.extend [x]).Distinct →
    item (q.backTo w c) = .ok x (q.backTo [] (c.extend [x]))

theorem constant_complete : DeclaresAll constant fun _ => Constant := by
  intro c w x h q hc hd hx
  cases h with
  | @mk n p a v r =>
      have hdefine : declare p (ScopeChain.defineConstant n v) (q.backTo [] c)
          = .ok ⟨n, .const v⟩ (q.backTo [] (c.extend [⟨n, .const v⟩])) :=
        declare_eq_ok.mpr ⟨c, rfl, (ScopeChain.define_eq_ok hd).mpr ⟨rfl, rfl, hc, hx⟩⟩
      exact hdefine

theorem variableName_complete : DeclaresAll variableName ScopeChain.NextVariable := by
  rintro c w x ⟨n, h, rfl⟩ q hc hd hx
  cases h with
  | @mk n p =>
      have hdefine : declare p (ScopeChain.defineVariable n) (q.backTo [] c)
          = .ok ⟨n, .var c.level c.variableCount⟩
            (q.backTo [] (c.extend [⟨n, .var c.level c.variableCount⟩])) :=
        declare_eq_ok.mpr ⟨c, rfl, (ScopeChain.define_eq_ok hd).mpr ⟨rfl, rfl, hc, hx⟩⟩
      exact hdefine

theorem separated_declared {item : Parse Symbol} {Item : ScopeChain → Word → Symbol → Prop}
    (hitem : DeclaresAll item Item) {c : ScopeChain} {w : Word} {xs : List Symbol}
    (h : ScopeChain.Declared Item c w xs) {bound : Nat} (hw : w.length ≤ bound) {q : Parser}
    (hc : c.scopes ≠ []) (hd : (c.extend xs).Distinct) (hstop : q.current ≠ .mark .comma) :
    separated .comma item bound (q.backTo w c) = .ok xs (q.backTo [] (c.extend xs)) := by
  induction h generalizing bound with
  | @one c w x h =>
      have hx := hitem h q hc (ScopeChain.distinct_of_extend hd) hd
      cases bound with
      | zero =>
          unfold separated
          rw [Action.bind_of_ok hx]
          rfl
      | succ bound =>
          unfold separated
          have hcomma : accept (.mark .comma) (q.backTo [] (c.extend [x])) = .ok false _ :=
            accept_eq_false.mpr ⟨rfl, hstop⟩
          rw [Action.bind_of_ok hx, Action.bind_of_ok hcomma]
          rfl
  | @more c w x p v xs h _ ih =>
      simp only [List.length_append, List.length_cons] at hw
      obtain ⟨bound, rfl⟩ : ∃ b, bound = b + 1 := ⟨bound - 1, by omega⟩
      rw [ScopeChain.extend_cons] at hd ⊢
      have hdx := ScopeChain.distinct_of_extend hd
      have hx := hitem h (q.unread (⟨.mark .comma, p⟩ :: v)) hc (ScopeChain.distinct_of_extend hdx) hdx
      rw [backTo_unread, backTo_unread] at hx
      unfold separated
      rw [Action.bind_of_ok hx, List.nil_append,
        Action.bind_of_ok (accept_backTo q p v (c.extend [x]) (by simp)), if_pos rfl,
        Action.bind_of_ok (ih (by omega) (ScopeChain.extend_ne_nil hc _) hd)]
      rfl

theorem declarations_complete {k : Keyword} {item : Parse Symbol}
    {Item : ScopeChain → Word → Symbol → Prop} (hitem : DeclaresAll item Item) {c : ScopeChain}
    {v : Word} {xs : List Symbol} (h : ScopeChain.Declared Item c v xs) {bound : Nat}
    (hv : v.length ≤ bound) (q : Parser) (a b : Position) (hc : c.scopes ≠ [])
    (hd : (c.extend xs).Distinct) :
    declarations k item bound (q.backTo (⟨.keyword k, a⟩ :: v ++ [⟨.mark .semicolon, b⟩]) c)
      = .ok xs (q.backTo [] (c.extend xs)) := by
  have hxs := separated_declared (q := q.unread [⟨.mark .semicolon, b⟩]) hitem h hv hc hd (by simp)
  rw [backTo_unread, backTo_unread, List.nil_append] at hxs
  unfold declarations
  rw [List.cons_append, Action.bind_of_ok (accept_backTo q a _ c (by simp)), if_pos rfl,
    Action.bind_of_ok hxs, Action.bind_of_ok (expect_backTo q b [] _ (by simp))]
  rfl

theorem declarations_none {k : Keyword} {item : Parse Symbol} {bound : Nat} {q : Parser}
    (h : q.current ≠ .keyword k) : declarations k item bound q = .ok [] q := by
  unfold declarations
  rw [Action.bind_of_ok (accept_eq_false.mpr ⟨rfl, h⟩)]
  rfl

theorem constants_complete {w : Word} {cs : List Symbol} (h : Declarations .const Constant w cs)
    {bound : Nat} (hw : w.length ≤ bound) (q : Parser) {c : ScopeChain} (hc : c.scopes ≠ [])
    (hd : (c.extend cs).Distinct) (hnext : q.current ≠ .keyword .const) :
    declarations .const constant bound (q.backTo w c) = .ok cs (q.backTo [] (c.extend cs)) := by
  cases h with
  | none => exact (declarations_none (q := q.backTo [] c) hnext).trans (by rw [ScopeChain.extend_nil])
  | some h =>
      simp only [List.length_append, List.length_cons] at hw
      exact declarations_complete constant_complete (ScopeChain.declared_constant_iff.mpr h) (by omega) q
        _ _ hc hd

theorem variables_complete {w : Word} {names : List String} (h : Declarations .var Name w names)
    {bound : Nat} (hw : w.length ≤ bound) (q : Parser) {c : ScopeChain} (hc : c.scopes ≠ [])
    (hd : (c.extend (slots c.level c.variableCount names)).Distinct)
    (hnext : q.current ≠ .keyword .var) :
    declarations .var variableName bound (q.backTo w c)
      = .ok (slots c.level c.variableCount names)
        (q.backTo [] (c.extend (slots c.level c.variableCount names))) := by
  cases h with
  | none =>
      exact (declarations_none (q := q.backTo [] c) hnext).trans (by rw [slots, ScopeChain.extend_nil])
  | some h =>
      simp only [List.length_append, List.length_cons] at hw
      exact declarations_complete variableName_complete
        ((ScopeChain.declared_variable_iff hc).mpr ⟨names, h, rfl⟩) (by omega) q _ _ hc hd

/-! ## Blocks -/

/-- Blocks of length at most `n` are read in an empty scope, before a token that ends a block. -/
def CompleteBlock (x : Parse Block) (n : Nat) : Prop :=
  ∀ ⦃k w b k' outer⦄, BlockAt (ScopeChain.context ⟨outer, k⟩) k w b k' → w.length ≤ n →
    ScopeChain.Distinct ⟨outer, k⟩ → ∀ q : Parser, q.current = .mark .semicolon ∨ q.current = .mark .period →
      ∃ s, x (q.backTo w ⟨.empty :: outer, k⟩) = .ok b (q.backTo [] ⟨s :: outer, k'⟩)

/-- Procedures of length at most `n` are read in the scope that they add to. -/
def CompleteProcedures (x : Parse (List (Procedure Block))) (n : Nat) : Prop :=
  ∀ ⦃scope k w ps scope' k' outer⦄,
    ProceduresAt (ScopeChain.context ⟨outer, k⟩) scope k w ps scope' k' → w.length ≤ n →
    ScopeChain.Distinct ⟨.declaring scope :: outer, k⟩ → ∀ q : Parser, q.current ≠ .keyword .procedure →
      x (q.backTo w ⟨.declaring scope :: outer, k⟩) = .ok ps (q.backTo [] ⟨.declaring scope' :: outer, k'⟩) ∧
        ScopeChain.Distinct ⟨.declaring scope' :: outer, k'⟩

theorem procedure_complete {block : Parse Block} {n : Nat} (hblock : CompleteBlock block n)
    {scope : List Symbol} {outer : List Scope} {k k' : Nat} {name : String} {w : Word} {b : Block}
    {x : Symbol} (hx : x = ⟨name, .proc outer.length k⟩) (hnew : Undeclared scope name)
    (h : BlockAt (ScopeChain.context ⟨.declaring (scope ++ [x]) :: outer, k + 1⟩) (k + 1) w b k')
    (hw : w.length ≤ n) (hd : ScopeChain.Distinct ⟨.declaring scope :: outer, k⟩) (q : Parser)
    (a p r t : Position) (v : Word) :
    procedure block (q.backTo (⟨.keyword .procedure, a⟩ :: ⟨.ident name, p⟩ :: ⟨.mark .semicolon, r⟩ ::
        (w ++ ⟨.mark .semicolon, t⟩ :: v)) ⟨.declaring scope :: outer, k⟩)
      = .ok ⟨x, b, p⟩ (q.backTo v ⟨.declaring (scope ++ [x]) :: outer, k'⟩) ∧
      ScopeChain.Distinct ⟨.declaring (scope ++ [x]) :: outer, k'⟩ := by
  have hnew' : Undeclared (Scope.declaring scope).symbols.reverse name := by simpa using hnew
  rw [← Scope.add_declaring] at h ⊢
  have hd' : ScopeChain.Distinct ⟨(Scope.declaring scope).add x :: outer, k + 1⟩ :=
    (ScopeChain.distinct_extend hd).mpr (hx ▸ hnew')
  have hdefine : declare p (ScopeChain.defineProcedure name)
      (q.backTo (⟨.mark .semicolon, r⟩ :: (w ++ ⟨.mark .semicolon, t⟩ :: v)) ⟨.declaring scope :: outer, k⟩)
      = .ok x (q.backTo (⟨.mark .semicolon, r⟩ :: (w ++ ⟨.mark .semicolon, t⟩ :: v))
          ⟨(Scope.declaring scope).add x :: outer, k + 1⟩) :=
    declare_eq_ok.mpr ⟨_, rfl, (ScopeChain.defineProcedure_eq_ok hd).mpr ⟨hx, rfl, hnew'⟩⟩
  obtain ⟨s, hb⟩ := hblock h hw hd' (q.unread (⟨.mark .semicolon, t⟩ :: v)) (.inl rfl)
  rw [backTo_unread, backTo_unread, List.nil_append] at hb
  refine ⟨?_, hd'⟩
  unfold procedure
  rw [Action.bind_of_ok (advance_backTo ..), Action.bind_of_ok (position_backTo ..),
    Action.bind_of_ok (identifier_backTo ..), Action.bind_of_ok hdefine,
    Action.bind_of_ok (expect_backTo q r _ _ (by simp)), Action.bind_of_ok (enterScope_backTo ..)]
  unfold ScopeChain.enter
  rw [Action.bind_of_ok hb, Action.bind_of_ok (leaveScope_backTo ..),
    Action.bind_of_ok (expect_backTo q t _ _ (by simp))]
  rfl

theorem CompleteProcedures.nil : CompleteProcedures (pure []) 0 := by
  intro scope k w ps scope' k' outer h hw hd q _
  obtain rfl : w = [] := List.length_eq_zero_iff.mp (Nat.le_zero.mp hw)
  cases h with
  | nil => exact ⟨rfl, hd⟩

theorem procedures_complete {block : Parse Block} {n : Nat} (hblock : CompleteBlock block n)
    {m bound : Nat} (hn : m ≤ n + 1) (hm : m ≤ bound) : CompleteProcedures (procedures block bound) m := by
  induction bound generalizing m with
  | zero =>
      obtain rfl := Nat.le_zero.mp hm
      exact .nil
  | succ bound ih =>
      intro scope k w ps scope' k' outer h hw hd q hnext
      unfold procedures
      rw [Action.bind_of_ok (peek_apply _)]
      cases h with
      | nil =>
          rw [if_neg (by exact hnext)]
          exact ⟨rfl, hd⟩
      | @cons _ _ _ name p a r t w b k₁ v ps _ _ hnew hb hps =>
          simp only [List.length_append, List.length_cons] at hw
          rw [ScopeChain.length_context] at hb hps ⊢
          obtain ⟨hproc, hd'⟩ := procedure_complete hblock rfl hnew
            (by simpa [ScopeChain.context] using hb) (by omega) hd q a p r t v
          have hps : ProceduresAt (ScopeChain.context ⟨outer, k₁⟩) _ k₁ v ps _ _ := hps
          have hps' := ih (show v.length ≤ n + 1 by omega) (by omega) hps (Nat.le_refl _)
            hd' q hnext
          refine ⟨?_, hps'.2⟩
          simp only [List.cons_append]
          rw [if_pos (by rfl), Action.bind_of_ok hproc, Action.bind_of_ok hps'.1]
          rfl

/-- A statement does not start like a declaration. -/
theorem statement_head {Γ : Context} {w : Word} {s : Stmt} (h : Statement Γ w s) {q : Parser}
    (hq : endsStatement q.current = true) :
    (q.unread w).current ≠ .keyword .const ∧ (q.unread w).current ≠ .keyword .var ∧
      (q.unread w).current ≠ .keyword .procedure := by
  cases h with
  | empty =>
      rw [unread_nil]
      refine ⟨?_, ?_, ?_⟩ <;> (intro h; rw [h] at hq; cases hq)
  | _ => simp

theorem procedures_head {Γ : Context} {scope : List Symbol} {k : Nat} {w : Word}
    {ps : List (Procedure Block)} {scope' : List Symbol} {k' : Nat}
    (h : ProceduresAt Γ scope k w ps scope' k') {q : Parser} {t : Token}
    (hq : q.current ≠ t) (ht : t ≠ .keyword .procedure) : (q.unread w).current ≠ t := by
  cases h with
  | nil => exact hq
  | cons => exact ht.symm

theorem declarations_head {α : Type} {k : Keyword} {Item : Word → α → Prop} {w : Word} {as : List α}
    (h : Declarations k Item w as) {q : Parser} {t : Token} (hq : q.current ≠ t)
    (ht : t ≠ .keyword k) : (q.unread w).current ≠ t := by
  cases h with
  | none => exact hq
  | some => exact ht.symm

theorem blockWith_complete {procs : Parse (List (Procedure Block))} {bound n : Nat}
    (hprocs : CompleteProcedures procs n) (hn : n ≤ bound) : CompleteBlock (blockWith bound procs) n := by
  intro k w b k' outer h hw hd q hnext
  have hends : endsStatement q.current = true := by
    rcases hnext with h | h <;> rw [h] <;> rfl
  have helse : q.current ≠ .keyword .«else» := by
    rcases hnext with h | h <;> simp [h]
  cases h with
  | @mk _ _ wc cs wv names wp ps scope _ ws body hcs hvs hnames hps hbody =>
      simp only [List.length_append] at hw
      rw [ScopeChain.length_context] at hnames hps ⊢
      obtain ⟨hc, hv, hp⟩ := statement_head hbody hends
      obtain ⟨hlevel, hcount, hscope⟩ := ScopeChain.extend_declarations outer k hcs names
      have hdecl : ScopeChain.Distinct ⟨.declaring (cs ++ slots outer.length 0 names) :: outer, k⟩ := by
        simp only [ScopeChain.Distinct, List.forall_mem_cons]
        rw [Scope.symbols_declaring, List.map_reverse]
        exact ⟨(List.reverse_perm _).nodup_iff.mpr hnames, hd⟩
      -- What comes after the constants, or the variables, does not start like another list of them.
      have hconst : (q.unread (wv ++ (wp ++ ws))).current ≠ .keyword .const := by
        rw [← unread_unread, ← unread_unread]
        exact declarations_head hvs (procedures_head hps hc (by simp)) (by simp)
      have hvar : (q.unread (wp ++ ws)).current ≠ .keyword .var := by
        rw [← unread_unread]
        exact procedures_head hps hv (by simp)
      have hwc : wc.length ≤ bound := by omega
      have hwv : wv.length ≤ bound := by omega
      have hconsts := constants_complete hcs hwc _ (List.cons_ne_nil _ _)
        (ScopeChain.distinct_of_extend (hscope ▸ hdecl)) hconst
      have hvars := variables_complete hvs hwv _ (ScopeChain.extend_ne_nil (List.cons_ne_nil _ _) _)
        (by rw [hlevel, hcount, hscope]; exact hdecl) hvar
      obtain ⟨hprocs, hd'⟩ := hprocs hps (by omega) hdecl (q.unread ws) hp
      have hbody : statement bound bound ((q.backTo [] ⟨.declaring scope :: outer, k'⟩).unread ws)
          = .ok body _ :=
        statement_complete bound bound (Nat.le_refl _) (by simpa [ScopeChain.context] using hbody)
          (by omega) hd' ⟨hends, fun _ => helse⟩
      simp only [hlevel, hcount, hscope, backTo_unread, List.nil_append] at hconsts hvars hprocs
      simp only [unread_backTo, List.append_nil] at hbody
      refine ⟨.declaring scope, ?_⟩
      unfold blockWith
      simp only [List.append_assoc]
      rw [Action.bind_of_ok hconsts, Action.bind_of_ok hvars, Action.bind_of_ok (Action.get_apply _),
        Action.bind_of_ok hprocs, Action.bind_of_ok hbody, scopes_backTo,
        ScopeChain.variableCount_declarations outer k hcs]
      rfl

theorem block_complete (bound depth : Nat) (hd : depth ≤ bound) :
    CompleteBlock (block bound depth) depth := by
  induction depth with
  | zero => exact blockWith_complete .nil (Nat.zero_le _)
  | succ depth ih =>
      exact blockWith_complete (procedures_complete (ih (by omega)) (Nat.le_refl _) hd) hd

theorem ofTokens_eq_backTo (w v : Word) :
    ofTokens (w ++ v) = Parser.backTo ⟨v, (ofTokens (w ++ v)).ending, .empty⟩ w .empty := rfl

theorem program_complete {tokens : Word} {b : Block} (h : Program tokens b) :
    ∃ q, program (.ofTokens tokens) = .ok b q := by
  cases h with
  | @mk w b n p a h =>
      have hlength : w.length ≤ (w ++ [⟨.mark .period, p⟩, ⟨.eof, a⟩] : Word).length := by simp
      have hdistinct : ScopeChain.empty.Distinct := by simp [ScopeChain.Distinct, ScopeChain.empty]
      have h : BlockAt (ScopeChain.context ⟨[], 0⟩) 0 w b n := h
      obtain ⟨s, hb⟩ := block_complete _ _ (Nat.le_refl _) h hlength hdistinct
        ⟨[⟨.mark .period, p⟩, ⟨.eof, a⟩], (ofTokens (w ++ [⟨.mark .period, p⟩, ⟨.eof, a⟩])).ending, .empty⟩
        (.inr rfl)
      unfold program
      rw [Action.bind_of_ok (Action.get_apply _), ofTokens_eq_backTo,
        Action.bind_of_ok (enterScope_backTo ..)]
      exact ⟨_, Action.bind_of_ok hb⟩

end PLZero.Parser

namespace PLZero

open Grammar

/-- A word with one derivation as a program has no other with another tree. -/
theorem Grammar.Program.tree_unique {tokens : Word} {b b' : Block} (h : Program tokens b)
    (h' : Program tokens b') : b = b' := by
  obtain ⟨q, hq⟩ := Parser.program_complete h
  obtain ⟨q', hq'⟩ := Parser.program_complete h'
  rw [hq] at hq'
  cases hq'
  rfl

/-- The end of the source stands at the end, and only there. -/
def Grammar.EndsOnce (tokens : Word) : Prop :=
  ∃ body p, tokens = body ++ [⟨.eof, p⟩] ∧ ∀ t ∈ body, t.value ≠ .eof

theorem Grammar.EndsOnce.rest_eq {w : Word} {t : Located Token} {rest : Word}
    (h : EndsOnce (w ++ t :: rest)) (ht : t.value ≠ .eof)
    (hrest : rest = [] ∨ ∃ a v, rest = ⟨.eof, a⟩ :: v) : ∃ a, rest = [⟨.eof, a⟩] := by
  obtain ⟨body, p, heq, hbody⟩ := h
  rcases List.eq_nil_or_concat rest with rfl | ⟨init, last, rfl⟩
  · obtain ⟨-, hlast⟩ := List.append_inj' heq rfl
    cases hlast
    exact absurd rfl ht
  · have heq' : (w ++ t :: init) ++ [last] = body ++ [⟨.eof, p⟩] := by simpa using heq
    obtain ⟨rfl, hlast⟩ := List.append_inj' heq' rfl
    cases hlast
    cases init with
    | nil => exact ⟨p, rfl⟩
    | cons u init =>
        rcases hrest with h | ⟨a, v, h⟩
        · simp at h
        · obtain rfl : u = ⟨.eof, a⟩ := (List.cons.inj h).1
          exact absurd rfl (hbody ⟨.eof, a⟩ (by simp))

theorem Block.program_of_parse {tokens : Word} {tree : Block} (htokens : EndsOnce tokens)
    (h : Block.parse tokens = .ok tree) : Program tokens tree := by
  unfold Block.parse at h
  split at h
  · next b q hb =>
    cases h
    obtain ⟨w, n, a, rest, rfl, hw, hrest⟩ := Parser.program_sound hb
    obtain ⟨p, rfl⟩ := htokens.rest_eq (by simp) hrest
    exact .mk hw
  · cases h

theorem Grammar.Program.parse {tokens : Word} {tree : Block} (h : Program tokens tree) :
    Block.parse tokens = .ok tree := by
  obtain ⟨q, hq⟩ := Parser.program_complete h
  rw [Block.parse, hq]

/-- A list of tokens is read as a tree exactly if it is a program of the grammar with that tree. -/
theorem Block.parse_eq_ok_iff {tokens : Word} (htokens : EndsOnce tokens) (tree : Block) :
    Block.parse tokens = .ok tree ↔ Program tokens tree :=
  ⟨Block.program_of_parse htokens, Grammar.Program.parse⟩

/-- `var x; if odd x then x := -x - 1.` is a program; its tree groups the difference to the left. -/
theorem Block.parse_eq_ok_iff_conditional :
    Program
      [⟨.keyword .var, ⟨1, 1⟩⟩, ⟨.ident "x", ⟨1, 5⟩⟩, ⟨.mark .semicolon, ⟨1, 6⟩⟩,
        ⟨.keyword .«if», ⟨1, 8⟩⟩, ⟨.keyword .odd, ⟨1, 11⟩⟩, ⟨.ident "x", ⟨1, 15⟩⟩,
        ⟨.keyword .«then», ⟨1, 17⟩⟩, ⟨.ident "x", ⟨1, 22⟩⟩, ⟨.mark .assign, ⟨1, 24⟩⟩,
        ⟨.mark .minus, ⟨1, 27⟩⟩, ⟨.ident "x", ⟨1, 28⟩⟩, ⟨.mark .minus, ⟨1, 30⟩⟩,
        ⟨.number 1, ⟨1, 32⟩⟩, ⟨.mark .period, ⟨1, 33⟩⟩, ⟨.eof, ⟨1, 34⟩⟩]
      { level := 0
        variableCount := 1
        consts := []
        vars := [⟨"x", .var 0 0⟩]
        procedures := []
        body := .ifThen
          (.unary (.keyword .odd) (.name ⟨"x", .var 0 0⟩ ⟨1, 15⟩) ⟨1, 11⟩)
          (.assign ⟨"x", .var 0 0⟩
            (.binary (.mark .minus)
              (.binary (.mark .minus) (.literal 0) (.name ⟨"x", .var 0 0⟩ ⟨1, 28⟩) ⟨1, 27⟩)
              (.literal 1) ⟨1, 30⟩)
            ⟨1, 22⟩) } := by
  refine (Block.parse_eq_ok_iff ?_ _).mp rfl
  exact ⟨_, ⟨1, 34⟩, (List.dropLast_concat_getLast (by simp)).symm, by decide⟩

end PLZero
