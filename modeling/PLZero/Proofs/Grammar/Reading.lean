import PLZero.Proofs.Action
import PLZero.Proofs.Grammar.Scoping
import PLZero.Tree.Parser

/-!
# Reading words

A parser that reads a word ends in one from which the word can be put back. What the basic actions
accept is said in these terms.
-/

namespace PLZero.Parser

open Grammar

/-! ## Putting words back -/

/-- The parser before it has read a word. -/
def unread (p : Parser) (w : Word) : Parser := { p with rest := w ++ p.rest }

@[simp] theorem unread_nil (p : Parser) : p.unread [] = p := rfl

@[simp] theorem unread_unread (p : Parser) (v w : Word) :
    (p.unread v).unread w = p.unread (w ++ v) := by
  simp [unread]

theorem unread_cons (p : Parser) (t : Located Token) (w : Word) :
    p.unread (t :: w) = (p.unread w).unread [t] := rfl

@[simp] theorem current_unread_cons (p : Parser) (t : Located Token) (w : Word) :
    (p.unread (t :: w)).current = t.value := rfl

/-- The parser before it has read a word and changed the scopes that were open then. -/
def backTo (p : Parser) (w : Word) (c : ScopeChain) : Parser := ⟨w ++ p.rest, p.ending, c⟩

@[simp] theorem backTo_backTo (p : Parser) (v w : Word) (c d : ScopeChain) :
    (p.backTo v d).backTo w c = p.backTo (w ++ v) c := by
  simp [backTo]

@[simp] theorem backTo_unread (p : Parser) (v w : Word) (c : ScopeChain) :
    (p.unread v).backTo w c = p.backTo (w ++ v) c := by
  simp [backTo, unread]

@[simp] theorem unread_backTo (p : Parser) (v w : Word) (c : ScopeChain) :
    (p.backTo v c).unread w = p.backTo (w ++ v) c := by
  simp [backTo, unread]

@[simp] theorem scopes_backTo (p : Parser) (w : Word) (c : ScopeChain) : (p.backTo w c).scopes = c := rfl

/-- A parser before a token that is not the end has that token in its input. -/
theorem exists_unread_of_current {p : Parser} {t : Token} (h : p.current = t) (ht : t ≠ .eof) :
    ∃ a q, p = Parser.unread q [⟨t, a⟩] := by
  obtain ⟨rest, ending, scopes⟩ := p
  cases rest with
  | nil => exact absurd h.symm ht
  | cons t' rest =>
      subst h
      exact ⟨t'.position, ⟨rest, ending, scopes⟩, rfl⟩

/-! ## Basic actions -/

theorem peek_apply (p : Parser) : peek p = .ok p.current p := rfl

theorem peek_unread (p : Parser) (t : Token) (a : Position) :
    peek (p.unread [⟨t, a⟩]) = .ok t (p.unread [⟨t, a⟩]) := rfl

theorem position_apply (p : Parser) : position p = .ok p.place p := rfl

theorem position_unread (p : Parser) (t : Token) (a : Position) :
    position (p.unread [⟨t, a⟩]) = .ok a (p.unread [⟨t, a⟩]) := rfl

theorem advance_apply (p : Parser) : advance p = .ok p.current { p with rest := p.rest.tail } := rfl

theorem advance_unread (p : Parser) (t : Token) (a : Position) :
    advance (p.unread [⟨t, a⟩]) = .ok t p := rfl

theorem refuse_ne_ok {α : Type} {cause : Token → SyntaxError.Cause} {p q : Parser} {a : α} :
    refuse cause p ≠ .ok a q := by
  simp [refuse, Action.bind_eq_ok]

theorem accept_apply (t : Token) (p : Parser) :
    accept t p = if p.current = t then .ok true { p with rest := p.rest.tail } else .ok false p := by
  unfold accept
  rw [Action.bind_of_ok (peek_apply p)]
  split <;> rfl

theorem accept_eq_true {t : Token} {p q : Parser} (ht : t ≠ .eof) :
    accept t p = .ok true q ↔ ∃ a, p = q.unread [⟨t, a⟩] := by
  rw [accept_apply]
  constructor
  · intro h
    split at h
    · next hc =>
      obtain ⟨a, u, rfl⟩ := exists_unread_of_current hc ht
      cases h
      exact ⟨a, rfl⟩
    · cases h
  · rintro ⟨a, rfl⟩
    rw [if_pos (current_unread_cons q ⟨t, a⟩ [])]
    rfl

theorem accept_eq_false {t : Token} {p q : Parser} :
    accept t p = .ok false q ↔ p = q ∧ q.current ≠ t := by
  rw [accept_apply]
  constructor
  · intro h
    split at h
    · cases h
    · next hc =>
      cases h
      exact ⟨rfl, hc⟩
  · rintro ⟨rfl, hc⟩
    rw [if_neg hc]

theorem current_of_expect {t : Token} {p q : Parser} (h : expect t p = .ok () q) : p.current = t := by
  unfold expect at h
  rw [Action.bind_eq_ok] at h
  obtain ⟨b, u, hb, h⟩ := h
  cases b with
  | true =>
      rw [accept_apply] at hb
      split at hb
      · next hc => exact hc
      · cases hb
  | false => exact absurd h refuse_ne_ok

theorem expect_eq_ok {t : Token} {p q : Parser} (ht : t ≠ .eof) :
    expect t p = .ok () q ↔ ∃ a, p = q.unread [⟨t, a⟩] := by
  rw [← accept_eq_true ht]
  unfold expect
  rw [Action.bind_eq_ok]
  constructor
  · rintro ⟨b, u, hb, h⟩
    cases b with
    | true =>
        simp only [↓reduceIte, Action.pure_eq_ok, true_and] at h
        rw [hb, h]
    | false => exact absurd h refuse_ne_ok
  · intro h
    exact ⟨true, q, h, by simp⟩

theorem accept_unread (p : Parser) {t : Token} (a : Position) (ht : t ≠ .eof) :
    accept t (p.unread [⟨t, a⟩]) = .ok true p :=
  (accept_eq_true ht).mpr ⟨a, rfl⟩

theorem expect_unread (p : Parser) {t : Token} (a : Position) (ht : t ≠ .eof) :
    expect t (p.unread [⟨t, a⟩]) = .ok () p :=
  (expect_eq_ok ht).mpr ⟨a, rfl⟩

theorem accept_backTo (p : Parser) {t : Token} (a : Position) (w : Word) (c : ScopeChain)
    (ht : t ≠ .eof) : accept t (p.backTo (⟨t, a⟩ :: w) c) = .ok true (p.backTo w c) :=
  accept_unread (p.backTo w c) a ht

theorem expect_backTo (p : Parser) {t : Token} (a : Position) (w : Word) (c : ScopeChain)
    (ht : t ≠ .eof) : expect t (p.backTo (⟨t, a⟩ :: w) c) = .ok () (p.backTo w c) :=
  expect_unread (p.backTo w c) a ht

theorem identifier_eq_ok {n : String} {p q : Parser} :
    identifier p = .ok n q ↔ ∃ a, p = q.unread [⟨.ident n, a⟩] := by
  unfold identifier
  rw [Action.bind_of_ok (peek_apply p)]
  constructor
  · intro h
    cases hm : p.current with
    | ident m =>
        simp only [hm] at h
        obtain ⟨a, u, rfl⟩ := exists_unread_of_current hm (by simp)
        rw [Action.bind_of_ok (advance_unread u _ a), Action.pure_eq_ok] at h
        obtain ⟨rfl, rfl⟩ := h
        exact ⟨a, rfl⟩
    | _ =>
        simp only [hm] at h
        exact absurd h refuse_ne_ok
  · rintro ⟨a, rfl⟩
    rfl

theorem number_eq_ok {v : Int64} {p q : Parser} :
    number p = .ok v q ↔ ∃ a, p = q.unread [⟨.number v, a⟩] := by
  unfold number
  rw [Action.bind_of_ok (peek_apply p)]
  constructor
  · intro h
    cases hm : p.current with
    | number m =>
        simp only [hm] at h
        obtain ⟨a, u, rfl⟩ := exists_unread_of_current hm (by simp)
        rw [Action.bind_of_ok (advance_unread u _ a), Action.pure_eq_ok] at h
        obtain ⟨rfl, rfl⟩ := h
        exact ⟨a, rfl⟩
    | _ =>
        simp only [hm] at h
        exact absurd h refuse_ne_ok
  · rintro ⟨a, rfl⟩
    rfl

theorem enterScope_apply (p : Parser) :
    enterScope p = .ok () { p with scopes := p.scopes.enter } := rfl

theorem leaveScope_apply (p : Parser) :
    leaveScope p = .ok () { p with scopes := p.scopes.leave } := rfl

theorem advance_backTo (p : Parser) (t : Token) (a : Position) (w : Word) (c : ScopeChain) :
    advance (p.backTo (⟨t, a⟩ :: w) c) = .ok t (p.backTo w c) := rfl

theorem position_backTo (p : Parser) (t : Token) (a : Position) (w : Word) (c : ScopeChain) :
    position (p.backTo (⟨t, a⟩ :: w) c) = .ok a (p.backTo (⟨t, a⟩ :: w) c) := rfl

theorem identifier_backTo (p : Parser) (n : String) (a : Position) (w : Word) (c : ScopeChain) :
    identifier (p.backTo (⟨.ident n, a⟩ :: w) c) = .ok n (p.backTo w c) := rfl

theorem enterScope_backTo (p : Parser) (w : Word) (c : ScopeChain) :
    enterScope (p.backTo w c) = .ok () (p.backTo w c.enter) := rfl

theorem leaveScope_backTo (p : Parser) (w : Word) (c : ScopeChain) :
    leaveScope (p.backTo w c) = .ok () (p.backTo w c.leave) := rfl

theorem declare_eq_ok {place : Position} {definition : ScopeChain.Update Symbol} {p q : Parser}
    {x : Symbol} :
    declare place definition p = .ok x q ↔
      ∃ c, p = q.backTo [] c ∧ definition c = .ok x q.scopes := by
  obtain ⟨rest, ending, scopes⟩ := p
  obtain ⟨rest', ending', scopes'⟩ := q
  unfold declare
  cases hd : definition scopes with
  | ok y c =>
      simp only [backTo, EStateM.Result.ok.injEq, Parser.mk.injEq, List.nil_append]
      constructor
      · rintro ⟨rfl, rfl, rfl, rfl⟩
        exact ⟨scopes, ⟨rfl, rfl, rfl⟩, hd⟩
      · rintro ⟨c', ⟨rfl, rfl, rfl⟩, h⟩
        rw [hd] at h
        cases h
        exact ⟨rfl, rfl, rfl, rfl⟩
  | error e c =>
      simp only [backTo, reduceCtorEq, Parser.mk.injEq, List.nil_append, false_iff, not_exists, not_and]
      rintro c' ⟨rfl, rfl, rfl⟩ h
      rw [hd] at h
      cases h

/-- A name that is used is one that the open scopes declare. -/
theorem declaredName_eq_ok {p q : Parser} {x : Located Symbol} (hq : q.scopes.Distinct) :
    declaredName p = .ok x q ↔ ∃ w, p = q.unread w ∧ Use q.scopes.context w x := by
  unfold declaredName
  rw [Action.bind_of_ok (position_apply p), Action.bind_eq_ok]
  constructor
  · rintro ⟨n, u, hn, h⟩
    obtain ⟨a, rfl⟩ := identifier_eq_ok.mp hn
    rw [Action.bind_of_ok (Action.get_apply u)] at h
    cases hs : u.scopes.resolve n with
    | some s =>
        simp only [hs, Action.pure_eq_ok] at h
        obtain ⟨rfl, rfl⟩ := h
        exact ⟨_, rfl, .mk ((ScopeChain.resolve_eq_some hq).mp hs)⟩
    | none => simp [hs] at h
  · rintro ⟨w, rfl, h⟩
    cases h with
    | @mk n s a hd =>
        refine ⟨n, q, identifier_eq_ok.mpr ⟨a, rfl⟩, ?_⟩
        rw [Action.bind_of_ok (Action.get_apply q), (ScopeChain.resolve_eq_some hq).mpr hd]
        rfl

/-! ## Classes of tokens -/

theorem isMultiplicative_iff {t : Token} :
    isMultiplicative t = true ↔ ∃ m, t = .mark m ∧ (m = .star ∨ m = .slash) := by
  cases t with
  | mark m => cases m <;> simp [isMultiplicative]
  | _ => simp [isMultiplicative]

theorem isAdditive_iff {t : Token} :
    isAdditive t = true ↔ ∃ m, t = .mark m ∧ (m = .plus ∨ m = .minus) := by
  cases t with
  | mark m => cases m <;> simp [isAdditive]
  | _ => simp [isAdditive]

theorem isRelational_iff {t : Token} :
    t.isRelational = true ↔ ∃ m, t = .mark m ∧ m.isRelational = true := by
  cases t <;> simp [Token.isRelational]

end PLZero.Parser
