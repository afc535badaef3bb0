import PLZero.Proofs.Grammar.Reading

/-!
# What a parser reads is derived

Every word that a reading action accepts has a derivation, with the tree that the action returns. The
bounds play no part here: an action that runs into one refuses its input or stops earlier.

The one place that needs more than the grammar is the `if`: a statement that ends in an `if` without
`else` has stopped before a token other than `else`, so an `else` that is read belongs to the nearest
`if`.
-/

namespace PLZero.Parser

open Grammar

/-- What the action reads, it reads according to `R`, which may depend on the parser after it. -/
def Sound {α : Type} (x : Parse α) (R : Parser → Word → α → Prop) : Prop :=
  ∀ ⦃p a q⦄, x p = .ok a q → p.scopes.Distinct → ∃ w, p = q.unread w ∧ R q w a

/-- The words of the grammar in the scopes of a parser. -/
abbrev Here {α : Type} (R : Context → Word → α → Prop) : Parser → Word → α → Prop :=
  fun q => R q.scopes.context

theorem Sound.weaken {α : Type} {x : Parse α} {R R' : Parser → Word → α → Prop} (h : Sound x R)
    (hR : ∀ q w a, R q w a → R' q w a) : Sound x R' := by
  intro p a q hx hp
  obtain ⟨w, rfl, hw⟩ := h hx hp
  exact ⟨w, rfl, hR _ _ _ hw⟩

theorem declaredName_sound : Sound declaredName (Here Use) := by
  intro p a q h hp
  have hq : q.scopes.Distinct := by
    unfold declaredName at h
    rw [Action.bind_of_ok (position_apply p), Action.bind_eq_ok] at h
    obtain ⟨n, u, hn, h⟩ := h
    obtain ⟨b, rfl⟩ := identifier_eq_ok.mp hn
    rw [Action.bind_of_ok (Action.get_apply u)] at h
    cases hs : u.scopes.resolve n with
    | some s =>
        simp only [hs, Action.pure_eq_ok] at h
        exact h.2 ▸ hp
    | none => simp [hs] at h
  exact (declaredName_eq_ok hq).mp h

theorem separated_sound {α : Type} {m : Mark} {item : Parse α} {R : Context → Word → α → Prop}
    (hitem : Sound item (Here R)) (bound : Nat) :
    Sound (separated m item bound) (Here fun Γ => Separated m (R Γ)) := by
  induction bound with
  | zero =>
      intro p as q h hp
      unfold separated at h
      rw [Action.bind_eq_ok] at h
      obtain ⟨a, u, ha, h⟩ := h
      obtain ⟨rfl, rfl⟩ := Action.pure_eq_ok.mp h
      obtain ⟨w, rfl, hw⟩ := hitem ha hp
      exact ⟨w, rfl, .one hw⟩
  | succ bound ih =>
      intro p as q h hp
      unfold separated at h
      rw [Action.bind_eq_ok] at h
      obtain ⟨a, u, ha, h⟩ := h
      obtain ⟨w, rfl, hw⟩ := hitem ha hp
      rw [Action.bind_eq_ok] at h
      obtain ⟨b, v, hb, h⟩ := h
      cases b with
      | true =>
          obtain ⟨place, rfl⟩ := (accept_eq_true (by simp)).mp hb
          rw [if_pos rfl, Action.bind_eq_ok] at h
          obtain ⟨as', v', has, h⟩ := h
          obtain ⟨rfl, rfl⟩ := Action.pure_eq_ok.mp h
          obtain ⟨w', rfl, hw'⟩ := ih has hp
          exact ⟨w ++ ⟨.mark m, place⟩ :: w', by simp, .more hw hw'⟩
      | false =>
          obtain ⟨rfl, -⟩ := accept_eq_false.mp hb
          obtain ⟨rfl, rfl⟩ := Action.pure_eq_ok.mp h
          exact ⟨w, rfl, .one hw⟩

/-! ## Expressions -/

/-- Operators and operands after an operand extend it on the right, whatever the class `L` of words
that they extend. -/
theorem operations_sound (test : Token → Bool) {operand : Parse Expr}
    {L R : Context → Word → Expr → Prop} (hoperand : Sound operand (Here R))
    (htest : test .eof = false)
    (hmore : ∀ {Γ w e t p v f}, L Γ w e → test t = true → R Γ v f →
      L Γ (w ++ ⟨t, p⟩ :: v) (.binary t e f p)) (bound : Nat) :
    ∀ ⦃p q : Parser⦄ ⦃lhs e : Expr⦄, operations test operand bound lhs p = .ok e q → p.scopes.Distinct →
      ∃ w, p = q.unread w ∧ ∀ v, L q.scopes.context v lhs → L q.scopes.context (v ++ w) e := by
  induction bound with
  | zero =>
      intro p q lhs e h hp
      obtain ⟨rfl, rfl⟩ := Action.pure_eq_ok.mp h
      exact ⟨[], rfl, fun v hv => by simpa using hv⟩
  | succ bound ih =>
      intro p q lhs e h hp
      unfold operations at h
      rw [Action.bind_of_ok (peek_apply p)] at h
      cases ht : test p.current with
      | true =>
          generalize hc : p.current = t at ht
          have hne : t ≠ .eof := by
            rintro rfl
            simp [htest] at ht
          obtain ⟨a, u, rfl⟩ := exists_unread_of_current hc hne
          simp only [current_unread_cons, ht, ↓reduceIte] at h
          rw [Action.bind_of_ok (position_apply _), Action.bind_of_ok (advance_unread u t a),
            Action.bind_eq_ok] at h
          obtain ⟨f, u', hf, h⟩ := h
          obtain ⟨v, rfl, hv⟩ := hoperand hf hp
          obtain ⟨w, rfl, hw⟩ := ih h hp
          refine ⟨⟨t, a⟩ :: v ++ w, by simp, fun v' hv' => ?_⟩
          have hexpr := hw _ (hmore hv' ht hv)
          rw [List.append_assoc] at hexpr
          exact hexpr
      | false =>
          simp only [ht] at h
          obtain ⟨rfl, rfl⟩ := Action.pure_eq_ok.mp h
          exact ⟨[], rfl, fun v hv => by simpa using hv⟩

theorem term_sound (bound : Nat) {factor : Parse Expr} (hfactor : Sound factor (Here Factor)) :
    Sound (term bound factor) (Here Term) := by
  intro p e q h hp
  unfold term at h
  rw [Action.bind_eq_ok] at h
  obtain ⟨f, u, hf, h⟩ := h
  obtain ⟨v, rfl, hv⟩ := hfactor hf hp
  obtain ⟨w, rfl, hw⟩ := operations_sound (L := Term) isMultiplicative hfactor rfl
    (fun hl ht hr => by
      obtain ⟨m, rfl, hm⟩ := isMultiplicative_iff.mp ht
      exact .more hl hm hr) bound h hp
  exact ⟨v ++ w, by simp, hw _ (.factor hv)⟩

theorem sum_sound (bound : Nat) {factor : Parse Expr} (hfactor : Sound factor (Here Factor)) :
    Sound (sum bound factor) (Here Expression) := by
  have hterm := term_sound bound hfactor
  have hrest := operations_sound (L := Expression) isAdditive hterm rfl
    (fun hl ht hr => by
      obtain ⟨m, rfl, hm⟩ := isAdditive_iff.mp ht
      exact .more hl hm hr) bound
  intro p e q h hp
  unfold sum at h
  rw [Action.bind_of_ok (position_apply p), Action.bind_of_ok (peek_apply p)] at h
  generalize hc : p.current = t at h
  split at h
  · obtain ⟨a, u, rfl⟩ := exists_unread_of_current hc (by simp)
    rw [Action.bind_of_ok (advance_unread u _ a), Action.bind_eq_ok] at h
    obtain ⟨t, u', ht, h⟩ := h
    obtain ⟨v, rfl, hv⟩ := hterm ht hp
    rw [Action.bind_of_ok (Action.pure_apply _ _)] at h
    obtain ⟨w, rfl, hw⟩ := hrest h hp
    exact ⟨⟨.mark .minus, a⟩ :: v ++ w, by simp, hw _ (.minus hv)⟩
  · obtain ⟨a, u, rfl⟩ := exists_unread_of_current hc (by simp)
    rw [Action.bind_of_ok (advance_unread u _ a), Action.bind_eq_ok] at h
    obtain ⟨t, u', ht, h⟩ := h
    obtain ⟨v, rfl, hv⟩ := hterm ht hp
    obtain ⟨w, rfl, hw⟩ := hrest h hp
    exact ⟨⟨.mark .plus, a⟩ :: v ++ w, by simp, hw _ (.plus hv)⟩
  · rw [Action.bind_eq_ok] at h
    obtain ⟨t, u', ht, h⟩ := h
    obtain ⟨v, rfl, hv⟩ := hterm ht hp
    obtain ⟨w, rfl, hw⟩ := hrest h hp
    exact ⟨v ++ w, by simp, hw _ (.term hv)⟩

theorem atom_sound : Sound atom (Here Factor) := by
  intro p e q h hp
  unfold atom at h
  rw [Action.bind_of_ok (peek_apply p)] at h
  generalize hc : p.current = t at h
  split at h
  · rw [Action.bind_eq_ok] at h
    obtain ⟨x, u, hx, h⟩ := h
    obtain ⟨rfl, rfl⟩ := Action.pure_eq_ok.mp h
    obtain ⟨w, rfl, hw⟩ := declaredName_sound hx hp
    cases hw with
    | mk hd => exact ⟨_, rfl, .name hd⟩
  · rw [Action.bind_eq_ok] at h
    obtain ⟨v, u, hv, h⟩ := h
    obtain ⟨rfl, rfl⟩ := Action.pure_eq_ok.mp h
    obtain ⟨a, rfl⟩ := number_eq_ok.mp hv
    exact ⟨_, rfl, .number⟩
  · exact absurd h refuse_ne_ok

theorem factor_sound (bound depth : Nat) : Sound (factor bound depth) (Here Factor) := by
  induction depth with
  | zero => exact atom_sound
  | succ depth ih =>
      intro p e q h hp
      unfold factor at h
      rw [Action.bind_eq_ok] at h
      obtain ⟨b, u, hb, h⟩ := h
      cases b with
      | true =>
          obtain ⟨a, rfl⟩ := (accept_eq_true (by simp)).mp hb
          rw [if_pos rfl, Action.bind_eq_ok] at h
          obtain ⟨e', u', he, h⟩ := h
          obtain ⟨w, rfl, hw⟩ := sum_sound bound ih he hp
          rw [Action.bind_eq_ok] at h
          obtain ⟨_, v, hv, h⟩ := h
          obtain ⟨rfl, rfl⟩ := Action.pure_eq_ok.mp h
          obtain ⟨a', rfl⟩ := (expect_eq_ok (by simp)).mp hv
          refine ⟨⟨.mark .lparen, a⟩ :: w ++ [⟨.mark .rparen, a'⟩], ?_, ?_⟩
          · simp
          · exact .paren hw
      | false =>
          obtain ⟨rfl, -⟩ := accept_eq_false.mp hb
          exact atom_sound h hp

theorem expression_sound (bound : Nat) : Sound (expression bound) (Here Expression) :=
  sum_sound bound (factor_sound bound bound)

theorem condition_sound (bound : Nat) : Sound (condition bound) (Here Condition) := by
  intro p e q h hp
  unfold condition at h
  rw [Action.bind_of_ok (position_apply p), Action.bind_eq_ok] at h
  obtain ⟨b, u, hb, h⟩ := h
  cases b with
  | true =>
      obtain ⟨a, rfl⟩ := (accept_eq_true (by simp)).mp hb
      rw [if_pos rfl, Action.bind_eq_ok] at h
      obtain ⟨e', u', he, h⟩ := h
      obtain ⟨rfl, rfl⟩ := Action.pure_eq_ok.mp h
      obtain ⟨w, rfl, hw⟩ := expression_sound bound he hp
      exact ⟨⟨.keyword .odd, a⟩ :: w, by simp, .odd hw⟩
  | false =>
      obtain ⟨rfl, -⟩ := accept_eq_false.mp hb
      rw [if_neg (by simp), Action.bind_eq_ok] at h
      obtain ⟨l, u, hl, h⟩ := h
      obtain ⟨w, rfl, hw⟩ := expression_sound bound hl hp
      rw [Action.bind_of_ok (position_apply u)] at h
      cases hr : u.current.isRelational with
      | true =>
          obtain ⟨m, hc, hm⟩ := isRelational_iff.mp hr
          obtain ⟨a, u, rfl⟩ := exists_unread_of_current hc (by simp)
          rw [Action.bind_of_ok (advance_unread u _ a),
            if_pos (show (Token.mark m).isRelational = true from hm), Action.bind_eq_ok] at h
          obtain ⟨r, u', hr, h⟩ := h
          obtain ⟨rfl, rfl⟩ := Action.pure_eq_ok.mp h
          obtain ⟨v, rfl, hv⟩ := expression_sound bound hr hp
          exact ⟨w ++ ⟨.mark m, a⟩ :: v, by simp, .comparison hw hm hv⟩
      | false =>
          rw [Action.bind_of_ok (advance_apply u), hr] at h
          simp at h

/-! ## Statements -/

theorem statements_of_separated {Γ : Context} {w : Word} {ss : List Stmt}
    (h : Separated .semicolon (Statement Γ) w ss) : Statements Γ w ss := by
  induction h with
  | one h => exact .one h
  | more h _ ih => exact .more h ih

/-- The statement is derived, and if it ends in an `if` without `else`, no `else` follows. -/
def StatementBefore (q : Parser) (w : Word) (s : Stmt) : Prop :=
  Statement q.scopes.context w s ∧ (s.isOpen = true → q.current ≠ .keyword .«else»)

theorem simpleStatement_sound (bound : Nat) : Sound (simpleStatement bound) StatementBefore := by
  intro p s q h hp
  unfold simpleStatement at h
  rw [Action.bind_of_ok (peek_apply p)] at h
  generalize hc : p.current = t at h
  split at h
  -- a name, and so an assignment
  · rw [Action.bind_eq_ok] at h
    obtain ⟨x, u, hx, h⟩ := h
    obtain ⟨w, rfl, hw⟩ := declaredName_sound hx hp
    cases hw with
    | @mk n x a hd =>
        rw [Action.bind_eq_ok] at h
        obtain ⟨_, v, hv, h⟩ := h
        obtain ⟨a', rfl⟩ := (expect_eq_ok (by simp)).mp hv
        rw [Action.bind_eq_ok] at h
        obtain ⟨e, u, he, h⟩ := h
        obtain ⟨rfl, rfl⟩ := Action.pure_eq_ok.mp h
        obtain ⟨w, rfl, hw⟩ := expression_sound bound he hp
        exact ⟨⟨.ident n, a⟩ :: ⟨.mark .assign, a'⟩ :: w, by simp, .assign hd hw, by simp [Stmt.isOpen]⟩
  -- `call`
  · obtain ⟨a, u, rfl⟩ := exists_unread_of_current hc (by simp)
    rw [Action.bind_of_ok (advance_unread u _ a), Action.bind_eq_ok] at h
    obtain ⟨x, v, hx, h⟩ := h
    obtain ⟨rfl, rfl⟩ := Action.pure_eq_ok.mp h
    obtain ⟨w, rfl, hw⟩ := declaredName_sound hx hp
    cases hw with
    | @mk n x a' hd =>
        exact ⟨[⟨.keyword .call, a⟩, ⟨.ident n, a'⟩], by simp, .call hd, by simp [Stmt.isOpen]⟩
  -- `read`
  · obtain ⟨a, u, rfl⟩ := exists_unread_of_current hc (by simp)
    rw [Action.bind_of_ok (advance_unread u _ a), Action.bind_eq_ok] at h
    obtain ⟨xs, v, hx, h⟩ := h
    obtain ⟨rfl, rfl⟩ := Action.pure_eq_ok.mp h
    obtain ⟨w, rfl, hw⟩ := separated_sound declaredName_sound bound hx hp
    exact ⟨⟨.keyword .read, a⟩ :: w, by simp, .read hw, by simp [Stmt.isOpen]⟩
  -- `write`
  · obtain ⟨a, u, rfl⟩ := exists_unread_of_current hc (by simp)
    rw [Action.bind_of_ok (advance_unread u _ a), Action.bind_eq_ok] at h
    obtain ⟨es, v, he, h⟩ := h
    obtain ⟨rfl, rfl⟩ := Action.pure_eq_ok.mp h
    obtain ⟨w, rfl, hw⟩ := separated_sound (expression_sound bound) bound he hp
    exact ⟨⟨.keyword .write, a⟩ :: w, by simp, .write hw, by simp [Stmt.isOpen]⟩
  -- `return`
  · obtain ⟨a, u, rfl⟩ := exists_unread_of_current hc (by simp)
    rw [Action.bind_of_ok (advance_unread u _ a)] at h
    obtain ⟨rfl, rfl⟩ := Action.pure_eq_ok.mp h
    exact ⟨[⟨.keyword .«return», a⟩], rfl, .ret, by simp [Stmt.isOpen]⟩
  -- nothing, before each token that ends a statement
  · obtain ⟨rfl, rfl⟩ := Action.pure_eq_ok.mp h
    exact ⟨[], rfl, .empty, by simp [Stmt.isOpen]⟩
  · obtain ⟨rfl, rfl⟩ := Action.pure_eq_ok.mp h
    exact ⟨[], rfl, .empty, by simp [Stmt.isOpen]⟩
  · obtain ⟨rfl, rfl⟩ := Action.pure_eq_ok.mp h
    exact ⟨[], rfl, .empty, by simp [Stmt.isOpen]⟩
  · obtain ⟨rfl, rfl⟩ := Action.pure_eq_ok.mp h
    exact ⟨[], rfl, .empty, by simp [Stmt.isOpen]⟩
  -- any other token
  · exact absurd h refuse_ne_ok

theorem statement_sound (bound depth : Nat) : Sound (statement bound depth) StatementBefore := by
  induction depth with
  | zero => exact simpleStatement_sound bound
  | succ depth ih =>
      have hitem : Sound (statement bound depth) (Here Statement) := ih.weaken fun _ _ _ h => h.1
      intro p s q h hp
      unfold statement at h
      rw [Action.bind_of_ok (peek_apply p)] at h
      generalize hc : p.current = t at h
      split at h
      -- `begin`
      · obtain ⟨a, u, rfl⟩ := exists_unread_of_current hc (by simp)
        rw [Action.bind_of_ok (advance_unread u _ a), Action.bind_eq_ok] at h
        obtain ⟨body, u', hb, h⟩ := h
        obtain ⟨w, rfl, hw⟩ := separated_sound hitem bound hb hp
        rw [Action.bind_eq_ok] at h
        obtain ⟨_, v, hv, h⟩ := h
        obtain ⟨rfl, rfl⟩ := Action.pure_eq_ok.mp h
        obtain ⟨a', rfl⟩ := (expect_eq_ok (by simp)).mp hv
        refine ⟨⟨.keyword .«begin», a⟩ :: w ++ [⟨.keyword .«end», a'⟩], ?_, ?_, ?_⟩
        · simp
        · exact .sequence (statements_of_separated hw)
        · simp [Stmt.isOpen]
      -- `if`
      · obtain ⟨a, u, rfl⟩ := exists_unread_of_current hc (by simp)
        rw [Action.bind_of_ok (advance_unread u _ a), Action.bind_eq_ok] at h
        obtain ⟨c, u', hcond, h⟩ := h
        obtain ⟨w, rfl, hw⟩ := condition_sound bound hcond hp
        rw [Action.bind_eq_ok] at h
        obtain ⟨_, v, hv, h⟩ := h
        obtain ⟨a', rfl⟩ := (expect_eq_ok (by simp)).mp hv
        rw [Action.bind_eq_ok] at h
        obtain ⟨s₁, u, hs₁, h⟩ := h
        obtain ⟨w₁, rfl, hw₁, hopen₁⟩ := ih hs₁ hp
        rw [Action.bind_eq_ok] at h
        obtain ⟨b, u', hb, h⟩ := h
        cases b with
        | true =>
            obtain ⟨a'', rfl⟩ := (accept_eq_true (by simp)).mp hb
            rw [if_pos rfl, Action.bind_eq_ok] at h
            obtain ⟨s₂, u, hs₂, h⟩ := h
            obtain ⟨rfl, rfl⟩ := Action.pure_eq_ok.mp h
            obtain ⟨w₂, rfl, hw₂, hopen₂⟩ := ih hs₂ hp
            -- An open statement is not read up to an `else`.
            have hclosed : s₁.isOpen = false := by
              simpa using hopen₁
            refine ⟨⟨.keyword .«if», a⟩ :: w ++ ⟨.keyword .«then», a'⟩ :: w₁
              ++ ⟨.keyword .«else», a''⟩ :: w₂, ?_, ?_, ?_⟩
            · simp
            · exact .ifElse hw hw₁ hclosed hw₂
            · simpa [Stmt.isOpen] using hopen₂
        | false =>
            obtain ⟨rfl, hne⟩ := accept_eq_false.mp hb
            obtain ⟨rfl, rfl⟩ := Action.pure_eq_ok.mp h
            refine ⟨⟨.keyword .«if», a⟩ :: w ++ ⟨.keyword .«then», a'⟩ :: w₁, ?_, ?_, ?_⟩
            · simp
            · exact .ifThen hw hw₁
            · exact fun _ => hne
      -- `while`
      · obtain ⟨a, u, rfl⟩ := exists_unread_of_current hc (by simp)
        rw [Action.bind_of_ok (advance_unread u _ a), Action.bind_eq_ok] at h
        obtain ⟨c, u', hcond, h⟩ := h
        obtain ⟨w, rfl, hw⟩ := condition_sound bound hcond hp
        rw [Action.bind_eq_ok] at h
        obtain ⟨_, v, hv, h⟩ := h
        obtain ⟨a', rfl⟩ := (expect_eq_ok (by simp)).mp hv
        rw [Action.bind_eq_ok] at h
        obtain ⟨s₁, u, hs₁, h⟩ := h
        obtain ⟨rfl, rfl⟩ := Action.pure_eq_ok.mp h
        obtain ⟨w₁, rfl, hw₁, hopen₁⟩ := ih hs₁ hp
        refine ⟨⟨.keyword .«while», a⟩ :: w ++ ⟨.keyword .«do», a'⟩ :: w₁, ?_, ?_, ?_⟩
        · simp
        · exact .whileDo hw hw₁
        · simpa [Stmt.isOpen] using hopen₁
      -- a statement that holds no other
      · exact simpleStatement_sound bound h hp

/-! ## Declarations -/

/-- What the action reads is an item, and it declares the symbol that it returns. -/
def Declares (x : Parse Symbol) (Item : ScopeChain → Word → Symbol → Prop) : Prop :=
  ∀ ⦃p a q⦄, x p = .ok a q → p.scopes.Distinct → ∃ w c, p = q.backTo w c ∧ Item c w a ∧
    c.scopes ≠ [] ∧ q.scopes = c.extend [a] ∧ q.scopes.Distinct

theorem constant_declares : Declares constant fun _ => Constant := by
  intro p x q h hp
  unfold constant at h
  rw [Action.bind_of_ok (position_apply p), Action.bind_eq_ok] at h
  obtain ⟨n, u, hn, h⟩ := h
  obtain ⟨a, rfl⟩ := identifier_eq_ok.mp hn
  rw [Action.bind_eq_ok] at h
  obtain ⟨_, v, hv, h⟩ := h
  obtain ⟨a', rfl⟩ := (expect_eq_ok (by simp)).mp hv
  rw [Action.bind_eq_ok] at h
  obtain ⟨value, u, hvalue, h⟩ := h
  obtain ⟨a'', rfl⟩ := number_eq_ok.mp hvalue
  obtain ⟨c, rfl, hd⟩ := declare_eq_ok.mp h
  obtain ⟨rfl, hq, hc, hdistinct⟩ := (ScopeChain.define_eq_ok hp).mp hd
  exact ⟨[⟨.ident n, a⟩, ⟨.mark .eq, a'⟩, ⟨.number value, a''⟩], c, by simp, .mk, hc, hq.symm, hq ▸ hdistinct⟩

theorem variableName_declares : Declares variableName ScopeChain.NextVariable := by
  intro p x q h hp
  unfold variableName at h
  rw [Action.bind_of_ok (position_apply p), Action.bind_eq_ok] at h
  obtain ⟨n, u, hn, h⟩ := h
  obtain ⟨a, rfl⟩ := identifier_eq_ok.mp hn
  obtain ⟨c, rfl, hd⟩ := declare_eq_ok.mp h
  obtain ⟨rfl, hq, hc, hdistinct⟩ := (ScopeChain.define_eq_ok hp).mp hd
  exact ⟨[⟨.ident n, a⟩], c, by simp, ⟨n, .mk, rfl⟩, hc, hq.symm, hq ▸ hdistinct⟩

theorem separated_declares {item : Parse Symbol} {Item : ScopeChain → Word → Symbol → Prop}
    (hitem : Declares item Item) (bound : Nat) :
    ∀ ⦃p xs q⦄, separated .comma item bound p = .ok xs q → p.scopes.Distinct →
      ∃ w c, p = q.backTo w c ∧ ScopeChain.Declared Item c w xs ∧ c.scopes ≠ [] ∧
        q.scopes = c.extend xs ∧ q.scopes.Distinct := by
  induction bound with
  | zero =>
      intro p xs q h hp
      unfold separated at h
      rw [Action.bind_eq_ok] at h
      obtain ⟨x, u, hx, h⟩ := h
      obtain ⟨rfl, rfl⟩ := Action.pure_eq_ok.mp h
      obtain ⟨w, c, rfl, hw, hrest⟩ := hitem hx hp
      exact ⟨w, c, rfl, .one hw, hrest⟩
  | succ bound ih =>
      intro p xs q h hp
      unfold separated at h
      rw [Action.bind_eq_ok] at h
      obtain ⟨x, u, hx, h⟩ := h
      obtain ⟨w, c, rfl, hw, hc, hu, hdistinct⟩ := hitem hx hp
      rw [Action.bind_eq_ok] at h
      obtain ⟨b, v, hb, h⟩ := h
      cases b with
      | true =>
          obtain ⟨a, rfl⟩ := (accept_eq_true (by simp)).mp hb
          rw [if_pos rfl, Action.bind_eq_ok] at h
          obtain ⟨xs', v', hxs, h⟩ := h
          obtain ⟨rfl, rfl⟩ := Action.pure_eq_ok.mp h
          obtain ⟨w', c', rfl, hw', hc', hv', hdistinct'⟩ := ih hxs hdistinct
          obtain rfl : c' = c.extend [x] := hu
          refine ⟨w ++ ⟨.mark .comma, a⟩ :: w', c, by simp, .more hw hw', hc, ?_, hdistinct'⟩
          simpa using hv'
      | false =>
          obtain ⟨rfl, -⟩ := accept_eq_false.mp hb
          obtain ⟨rfl, rfl⟩ := Action.pure_eq_ok.mp h
          exact ⟨w, c, rfl, .one hw, hc, hu, hdistinct⟩

/-- A list of declarations after its keyword, or nothing. -/
theorem declarations_sound {k : Keyword} {item : Parse Symbol}
    {Item : ScopeChain → Word → Symbol → Prop} (hitem : Declares item Item) (bound : Nat)
    {p q : Parser} {xs : List Symbol} (h : declarations k item bound p = .ok xs q)
    (hp : p.scopes.Distinct) :
    ∃ w c, p = q.backTo w c ∧ q.scopes = c.extend xs ∧ q.scopes.Distinct ∧
      (w = [] ∧ xs = [] ∨ c.scopes ≠ [] ∧ ∃ a v a', ScopeChain.Declared Item c v xs ∧
        w = ⟨.keyword k, a⟩ :: v ++ [⟨.mark .semicolon, a'⟩]) := by
  unfold declarations at h
  rw [Action.bind_eq_ok] at h
  obtain ⟨b, u, hb, h⟩ := h
  cases b with
  | true =>
      obtain ⟨a, rfl⟩ := (accept_eq_true (by simp)).mp hb
      rw [if_pos rfl, Action.bind_eq_ok] at h
      obtain ⟨xs', u', hxs, h⟩ := h
      obtain ⟨v, c, rfl, hv, hc, hu, hdistinct⟩ := separated_declares hitem bound hxs hp
      rw [Action.bind_eq_ok] at h
      obtain ⟨_, u, hend, h⟩ := h
      obtain ⟨rfl, rfl⟩ := Action.pure_eq_ok.mp h
      obtain ⟨a', rfl⟩ := (expect_eq_ok (by simp)).mp hend
      exact ⟨⟨.keyword k, a⟩ :: v ++ [⟨.mark .semicolon, a'⟩], c, by simp, hu, hdistinct,
        .inr ⟨hc, a, v, a', hv, rfl⟩⟩
  | false =>
      obtain ⟨rfl, -⟩ := accept_eq_false.mp hb
      obtain ⟨rfl, rfl⟩ := Action.pure_eq_ok.mp h
      exact ⟨[], p.scopes, rfl, by simp, hp, .inl ⟨rfl, rfl⟩⟩

theorem constants_sound {bound : Nat} {p q : Parser} {xs : List Symbol}
    (h : declarations .const constant bound p = .ok xs q) (hp : p.scopes.Distinct) :
    ∃ w c, p = q.backTo w c ∧ q.scopes = c.extend xs ∧ q.scopes.Distinct ∧
      Declarations .const Constant w xs := by
  obtain ⟨w, c, rfl, hq, hdistinct, hw⟩ := declarations_sound constant_declares bound h hp
  refine ⟨w, c, rfl, hq, hdistinct, ?_⟩
  rcases hw with ⟨rfl, rfl⟩ | ⟨-, a, v, a', hv, rfl⟩
  · exact .none
  · exact .some (ScopeChain.declared_constant_iff.mp hv)

theorem variables_sound {bound : Nat} {p q : Parser} {xs : List Symbol}
    (h : declarations .var variableName bound p = .ok xs q) (hp : p.scopes.Distinct) :
    ∃ w c names, p = q.backTo w c ∧ q.scopes = c.extend xs ∧ q.scopes.Distinct ∧
      Declarations .var Name w names ∧ xs = slots c.level c.variableCount names := by
  obtain ⟨w, c, rfl, hq, hdistinct, hw⟩ := declarations_sound variableName_declares bound h hp
  rcases hw with ⟨rfl, rfl⟩ | ⟨hc, a, v, a', hv, rfl⟩
  · exact ⟨[], c, [], rfl, hq, hdistinct, .none, rfl⟩
  · obtain ⟨names, hnames, rfl⟩ := (ScopeChain.declared_variable_iff hc).mp hv
    exact ⟨_, c, names, rfl, hq, hdistinct, .some hnames, rfl⟩

/-! ## Blocks -/

/-- What the action reads is a block of the innermost scope, which is empty at first. -/
def SoundBlock (x : Parse Block) : Prop :=
  ∀ ⦃p b q⦄, x p = .ok b q → p.scopes.Distinct → ∀ ⦃outer n⦄, p.scopes = ⟨.empty :: outer, n⟩ →
    ∃ w s n', p = q.backTo w ⟨.empty :: outer, n⟩ ∧ q.scopes = ⟨s :: outer, n'⟩ ∧
      BlockAt (ScopeChain.context ⟨outer, n⟩) n w b n'

/-- A procedure, its keyword apart. -/
theorem procedure_sound {block : Parse Block} (hblock : SoundBlock block) {u v : Parser} {a : Position}
    {proc : Procedure Block} (h : procedure block (u.unread [⟨.keyword .procedure, a⟩]) = .ok proc v)
    (hu : u.scopes.Distinct) {s : Scope} {outer : List Scope} {n : Nat}
    (hs : u.scopes = ⟨s :: outer, n⟩) :
    ∃ name p r t w n', ∃ x : Symbol, x = ⟨name, .proc outer.length n⟩ ∧
      u = v.backTo (⟨.ident name, p⟩ :: ⟨.mark .semicolon, r⟩ :: w ++ [⟨.mark .semicolon, t⟩])
        ⟨s :: outer, n⟩ ∧
      v.scopes = ⟨s.add x :: outer, n'⟩ ∧ v.scopes.Distinct ∧
      Undeclared s.symbols.reverse name ∧
      BlockAt (ScopeChain.context ⟨s.add x :: outer, n + 1⟩) (n + 1) w proc.block n' ∧
      proc.symbol = x ∧ proc.position = p := by
  unfold procedure at h
  rw [Action.bind_of_ok (advance_unread u _ a), Action.bind_of_ok (position_apply u),
    Action.bind_eq_ok] at h
  obtain ⟨name, u, hname, h⟩ := h
  obtain ⟨p, rfl⟩ := identifier_eq_ok.mp hname
  rw [Action.bind_eq_ok] at h
  obtain ⟨x, u', hx, h⟩ := h
  obtain ⟨c, rfl, hd⟩ := declare_eq_ok.mp hx
  obtain rfl : c = ⟨s :: outer, n⟩ := hs
  obtain ⟨rfl, hc, hnew⟩ := (ScopeChain.defineProcedure_eq_ok hu).mp hd
  rw [Action.bind_eq_ok] at h
  obtain ⟨_, v', hv, h⟩ := h
  obtain ⟨r, rfl⟩ := (expect_eq_ok (by simp)).mp hv
  have hv' : v'.scopes = ⟨s.add ⟨name, .proc outer.length n⟩ :: outer, n + 1⟩ := hc
  have hdistinct : v'.scopes.Distinct := by
    rw [hv']
    exact (ScopeChain.distinct_extend hu).mpr hnew
  -- The block has a scope of its own, which is closed again before the last semicolon.
  rw [Action.bind_of_ok (enterScope_apply v'), Action.bind_eq_ok] at h
  obtain ⟨b, u, hb, h⟩ := h
  obtain ⟨w, s', n', hw, hu', hat⟩ := hblock hb (ScopeChain.distinct_enter hdistinct)
    (show v'.scopes.enter = ⟨.empty :: s.add _ :: outer, n + 1⟩ by rw [hv']; rfl)
  rw [Action.bind_of_ok (leaveScope_apply u), Action.bind_eq_ok] at h
  obtain ⟨_, u₂, hend, h⟩ := h
  obtain ⟨t, hu₂⟩ := (expect_eq_ok (by simp)).mp hend
  obtain ⟨rfl, rfl⟩ := Action.pure_eq_ok.mp h
  have hv₂ : u₂.scopes = ⟨s.add ⟨name, .proc outer.length n⟩ :: outer, n'⟩ := by
    have hscopes : u.scopes.leave = u₂.scopes := congrArg Parser.scopes hu₂
    rw [← hscopes, hu']
    rfl
  refine ⟨name, p, r, t, w, n', _, rfl, ?_, hv₂, ?_, hnew, hat, rfl, rfl⟩
  · have hrest := congrArg Parser.rest hw
    have hending := congrArg Parser.ending hw
    have hrest₂ := congrArg Parser.rest hu₂
    have hending₂ := congrArg Parser.ending hu₂
    simp only [backTo, unread] at hrest hending hrest₂ hending₂
    simp [backTo, unread, hrest, hending, hrest₂, hending₂]
  · rw [hv'] at hdistinct
    rw [hv₂]
    exact hdistinct

def SoundProcedures (x : Parse (List (Procedure Block))) : Prop :=
  ∀ ⦃p ps q⦄, x p = .ok ps q → p.scopes.Distinct → ∀ ⦃s outer n⦄, p.scopes = ⟨s :: outer, n⟩ →
    ∃ w s' n', p = q.backTo w ⟨s :: outer, n⟩ ∧ q.scopes = ⟨s' :: outer, n'⟩ ∧ q.scopes.Distinct ∧
      ProceduresAt (ScopeChain.context ⟨outer, n⟩) s.symbols.reverse n w ps s'.symbols.reverse n'

theorem SoundProcedures.nil : SoundProcedures (pure []) := by
  intro p ps q h hp s outer n hs
  obtain ⟨rfl, rfl⟩ := Action.pure_eq_ok.mp h
  exact ⟨[], s, n, by rw [← hs]; rfl, hs, hp, .nil⟩

theorem procedures_sound {block : Parse Block} (hblock : SoundBlock block) (bound : Nat) :
    SoundProcedures (procedures block bound) := by
  induction bound with
  | zero => exact .nil
  | succ bound ih =>
      intro p ps q h hp s outer n hs
      unfold procedures at h
      rw [Action.bind_of_ok (peek_apply p)] at h
      by_cases hc : p.current = .keyword .procedure
      · obtain ⟨a, u, rfl⟩ := exists_unread_of_current hc (by simp)
        rw [if_pos hc, Action.bind_eq_ok] at h
        obtain ⟨proc, v, hproc, h⟩ := h
        rw [Action.bind_eq_ok] at h
        obtain ⟨rest, v', hrest, h⟩ := h
        obtain ⟨rfl, rfl⟩ := Action.pure_eq_ok.mp h
        obtain ⟨name, b, r, t, w, n', x, rfl, rfl, hv, hdistinct, hnew, hat, hx, hb⟩ :=
          procedure_sound hblock hproc hp hs
        obtain ⟨w', s', n'', rfl, hv', hdistinct', hat'⟩ := ih hrest hdistinct hv
        obtain ⟨symbol, block, position⟩ := proc
        obtain rfl : symbol = _ := hx
        obtain rfl : position = _ := hb
        refine ⟨⟨.keyword .procedure, a⟩ :: ⟨.ident name, position⟩ :: ⟨.mark .semicolon, r⟩ :: w
          ++ ⟨.mark .semicolon, t⟩ :: w', s', n'', by simp, hv', hdistinct', ?_⟩
        have hlevel : (ScopeChain.context ⟨outer, n⟩).length = outer.length := by simp
        rw [← hlevel] at hat hat' ⊢
        rw [ScopeChain.context_cons, Scope.add, List.reverse_cons] at hat
        rw [Scope.add, List.reverse_cons] at hat'
        exact .cons hnew hat hat'
      · rw [if_neg hc] at h
        exact SoundProcedures.nil h hp hs

theorem blockWith_sound {bound : Nat} {procs : Parse (List (Procedure Block))}
    (hprocs : SoundProcedures procs) : SoundBlock (blockWith bound procs) := by
  intro p b q h hp outer n hs
  unfold blockWith at h
  rw [Action.bind_eq_ok] at h
  obtain ⟨cs, u, hcs, h⟩ := h
  obtain ⟨wc, c, rfl, hu, hdu, hwc⟩ := constants_sound hcs hp
  obtain rfl : c = ⟨.empty :: outer, n⟩ := hs
  rw [Action.bind_eq_ok] at h
  obtain ⟨vs, u, hvs, h⟩ := h
  obtain ⟨wv, c, names, rfl, hu', hdu', hwv, rfl⟩ := variables_sound hvs hdu
  obtain rfl : c = _ := hu
  obtain ⟨hlevel, hcount, hscope⟩ := ScopeChain.extend_declarations outer n hwc names
  rw [hlevel, hcount] at h hu'
  rw [hscope] at hu'
  rw [Action.bind_of_ok (Action.get_apply u), Action.bind_eq_ok] at h
  obtain ⟨ps, v, hps, h⟩ := h
  obtain ⟨wp, s', n', rfl, hv, hdv, hat⟩ := hprocs hps hdu' hu'
  rw [Action.bind_eq_ok] at h
  obtain ⟨body, v', hbody, h⟩ := h
  obtain ⟨rfl, rfl⟩ := Action.pure_eq_ok.mp h
  obtain ⟨ws, rfl, hws, -⟩ := statement_sound bound bound hbody hdv
  refine ⟨wc ++ wv ++ wp ++ ws, s', n', by simp, hv, ?_⟩
  have hnodup : ((cs ++ slots outer.length 0 names).map Symbol.name).Nodup := by
    have hscope := hdu' (.declaring (cs ++ slots outer.length 0 names)) (by simp)
    rw [Scope.symbols_declaring, List.map_reverse] at hscope
    exact (List.reverse_perm _).nodup_iff.mp hscope
  have hstmt : Statement (s'.symbols.reverse :: ScopeChain.context ⟨outer, n⟩) ws body := by
    rw [← ScopeChain.context_cons s' outer n' n, ← hv]
    exact hws
  rw [Scope.symbols_declaring, List.reverse_reverse] at hat
  rw [scopes_backTo, ScopeChain.variableCount_declarations outer n hwc]
  exact .ofLevel (ScopeChain.length_context _) hwc hwv hnodup hat hstmt

theorem block_sound (bound depth : Nat) : SoundBlock (block bound depth) := by
  induction depth with
  | zero => exact blockWith_sound .nil
  | succ depth ih => exact blockWith_sound (procedures_sound ih bound)

/-- What is accepted as a program is a block and a period, and then the source ends. -/
theorem program_sound {tokens : Word} {b : Block} {q : Parser}
    (h : program (.ofTokens tokens) = .ok b q) :
    ∃ w n a rest, tokens = w ++ ⟨.mark .period, a⟩ :: rest ∧ BlockAt [] 0 w b n ∧
      (rest = [] ∨ ∃ a' rest', rest = ⟨.eof, a'⟩ :: rest') := by
  unfold program at h
  rw [Action.bind_of_ok (Action.get_apply _), Action.bind_of_ok (enterScope_apply _),
    Action.bind_eq_ok] at h
  obtain ⟨b', u, hb, h⟩ := h
  have hdistinct : ScopeChain.empty.enter.Distinct := by
    simp [ScopeChain.Distinct, ScopeChain.empty, ScopeChain.enter, Scope.empty]
  obtain ⟨w, s, n, hw, hu, hat⟩ := block_sound _ _ hb hdistinct rfl
  rw [Action.bind_of_ok (leaveScope_apply u), Action.bind_eq_ok] at h
  obtain ⟨_, v, hv, h⟩ := h
  obtain ⟨a, hv⟩ := (expect_eq_ok (by simp)).mp hv
  rw [Action.bind_eq_ok] at h
  obtain ⟨_, v', hv', h⟩ := h
  obtain ⟨rfl, rfl⟩ := Action.pure_eq_ok.mp h
  have hrest := congrArg Parser.rest hw
  have hrest' := congrArg Parser.rest hv
  simp only [backTo, unread, ofTokens] at hrest hrest'
  refine ⟨w, n, a, v.rest, by rw [hrest, hrest']; rfl, hat, ?_⟩
  have hend := current_of_expect hv'
  cases hr : v.rest with
  | nil => exact .inl rfl
  | cons t rest =>
      simp only [current, hr] at hend
      exact .inr ⟨t.position, rest, by rw [← hend]⟩

end PLZero.Parser
