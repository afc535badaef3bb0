import PLZero.Proofs.Grammar.Kinds

/-!
# Where a list of tokens is refused

A list of tokens that is no program is refused at the first token that no program has there, unless
one of its names is at fault.
-/

namespace PLZero

open Grammar (Word)
open Phrase (IsMultiplication IsAddition)

/-! ## Expressions -/

namespace Parser

theorem multiplicative_iff {t : Token} : isMultiplicative t = true ↔ IsMultiplication t := by
  rw [isMultiplicative_iff, IsMultiplication]
  constructor
  · rintro ⟨m, rfl, rfl | rfl⟩ <;> simp
  · rintro (rfl | rfl) <;> simp

theorem additive_iff {t : Token} : isAdditive t = true ↔ IsAddition t := by
  rw [isAdditive_iff, IsAddition]
  constructor
  · rintro ⟨m, rfl, rfl | rfl⟩ <;> simp
  · rintro (rfl | rfl) <;> simp

theorem endsExpression_iff {t : Token} : endsExpression t ↔ ¬ IsAddition t ∧ ¬ IsMultiplication t := by
  simp [endsExpression, ← additive_iff, ← multiplicative_iff]

end Parser

namespace Kind

open PLZero.Parser (startsFactor endsExpression endsExpression_iff)

def factor : Kind := before Phrase.Factor (fun _ => True) ⟨[.number 0], .number⟩

def term : Kind := before Phrase.Term (¬ IsMultiplication ·) ⟨[.number 0], .mk .number .nil⟩

theorem exists_expression : ∃ w, Phrase.Expression w :=
  ⟨[.number 0], .plain (.mk .number .nil) .nil⟩

def expression : Kind := before Phrase.Expression endsExpression exists_expression

def condition : Kind :=
  before Phrase.Condition endsExpression <| by
    obtain ⟨w, hw⟩ := exists_expression
    exact ⟨_, .odd hw⟩

theorem not_multiplicative_of_additive {t : Token} (h : IsAddition t) : ¬ IsMultiplication t := by
  rcases h with rfl | rfl <;> simp [IsMultiplication]

theorem factor_headD {w : Phrase} (h : Phrase.Factor w) (t : Token) :
    startsFactor (w.headD t) = true := by
  cases h with
  | name => rfl
  | number => rfl
  | paren => rfl

theorem term_headD {w : Phrase} (h : Phrase.Term w) (t : Token) : startsFactor (w.headD t) = true := by
  cases h with
  | mk hv =>
      rw [headD_append]
      exact factor_headD hv _

theorem expression_headD {w : Phrase} (h : Phrase.Expression w) (t : Token) :
    IsAddition (w.headD t) ∨ startsFactor (w.headD t) = true := by
  cases h with
  | plain hv =>
      rw [headD_append]
      exact .inr (term_headD hv _)
  | signed hs => exact .inl hs

/-- The first term of an expression and the other ones. -/
def terms : Kind := term.seq (term.run IsAddition)

theorem terms_ends {v w : Phrase} {t : Token} (hv : Phrase.Term v)
    (hw : Phrase.Run IsAddition Phrase.Term w) (ht : endsExpression t) : terms.ends (v ++ w) t := by
  rw [endsExpression_iff] at ht
  have hnext : ¬ IsMultiplication (w.headD t) := headD_of_run hw ht.2 not_multiplicative_of_additive
  exact seq_ends ⟨hv, hnext⟩
    (runEnds_of_run term (¬ IsMultiplication ·) .intro not_multiplicative_of_additive hw ht.2 ht.1)

theorem serves_signed {c : Token} {h : ∃ t, IsAddition t} (hc : IsAddition c) :
    ((token IsAddition h).seq terms).Serves expression c := by
  refine ⟨?_, ?_⟩
  · rintro _ ⟨_, _, rfl, ⟨ht⟩, v, w, rfl, hv, hw⟩
    exact Phrase.Expression.signed (v := v) ht hv hw
  · rintro _ t ⟨hw, ht⟩ rfl
    cases hw with
    | @plain v w hv hw =>
        have hstart := term_headD hv (w.headD t)
        rw [headD_append] at hc
        rcases hc with hc | hc <;> rw [hc] at hstart <;> cases hstart
    | signed hs hv hw => exact token_seq_ends hs (terms_ends hv hw ht)

theorem serves_plain {c : Token} (hc : ¬ IsAddition c) : terms.Serves expression c := by
  refine ⟨?_, ?_⟩
  · rintro _ ⟨v, w, rfl, hv, hw⟩
    exact .plain hv hw
  · rintro _ t ⟨hw, ht⟩ rfl
    cases hw with
    | plain hv hw => exact terms_ends hv hw ht
    | signed hs => exact absurd hs hc

end Kind

namespace Parser

variable {tokens : Word} {p : Parser} {n bound : Nat}

namespace Reads

theorem operations {k : Kind} {test : Token → Bool} {Opener : Token → Prop} {operand : Parse Expr}
    (hopener : ∀ {t}, test t = true ↔ Opener t) (heof : test .eof = false) (hp : p.Live tokens)
    (hn : p.rest.length ≤ n) (hbound : p.rest.length ≤ bound)
    (hoperand : ∀ q, q.Live tokens → q.rest.length ≤ n → Reads tokens operand q k) (lhs : Expr) :
    Reads tokens (operations test operand bound lhs) p (k.run Opener) := by
  induction bound generalizing p lhs with
  | zero => exact absurd hp.length_pos (by omega)
  | succ bound ih =>
      unfold Parser.operations
      refine after_ok (peek_apply p) ?_
      by_cases htest : test p.current = true
      · have hne : p.current ≠ .eof := by
          intro h
          simp [h, heof] at htest
        rw [if_pos htest]
        exact mono (after_ok (position_apply p) (advance_bind (h := ⟨_, hopener.mp htest⟩) hp hne
          (hopener.mp htest) fun q hq hlt => bind (hoperand q hq (by omega)) fun rhs r hr hle =>
            ih hr (by omega) (by omega) _)) (Kind.serves_run_cons (hopener.mp htest))
      · rw [if_neg htest]
        exact mono (of_pure hp lhs) (Kind.serves_run_nil fun h => htest (hopener.mpr h))

theorem term {factor : Parse Expr} (hp : p.Live tokens) (hn : p.rest.length ≤ n)
    (hbound : p.rest.length ≤ bound)
    (hfactor : ∀ q, q.Live tokens → q.rest.length ≤ n → Reads tokens factor q .factor) :
    Reads tokens (term bound factor) p .term := by
  refine mono (bind (hfactor p hp hn) fun e q hq hle => operations multiplicative_iff rfl hq
    (Nat.le_trans hle hn) (Nat.le_trans hle hbound) hfactor e) ⟨?_, ?_⟩
  · rintro _ ⟨v, w, rfl, hv, hw⟩
    exact .mk hv hw
  · rintro _ t ⟨⟨hv, hw⟩, hne⟩ -
    exact Kind.seq_ends ⟨hv, trivial⟩
      (Kind.runEnds_of_run .factor (fun _ => True) .intro (fun _ => trivial) hw trivial hne)

theorem sum {factor : Parse Expr} (hp : p.Live tokens) (hn : p.rest.length ≤ n)
    (hbound : p.rest.length ≤ bound)
    (hfactor : ∀ q, q.Live tokens → q.rest.length ≤ n → Reads tokens factor q .factor) :
    Reads tokens (sum bound factor) p .expression := by
  have hterm : ∀ q, q.Live tokens → q.rest.length ≤ p.rest.length →
      Reads tokens (Parser.term bound factor) q .term := fun q hq hle =>
    term hq (Nat.le_trans hle hn) (Nat.le_trans hle hbound) hfactor
  -- the terms after the first one
  have hrest : ∀ q, q.Live tokens → q.rest.length ≤ p.rest.length → ∀ lhs,
      Reads tokens (Parser.operations isAdditive (Parser.term bound factor) bound lhs) q
        (Kind.term.run IsAddition) := fun q hq hle lhs =>
    operations additive_iff rfl hq hle (Nat.le_trans hle hbound) hterm lhs
  unfold Parser.sum
  refine after_ok (position_apply p) (after_ok (peek_apply p) ?_)
  split
  · next hc =>
    exact mono (advance_bind (h := ⟨_, .inr rfl⟩) hp (by simp [hc]) (.inr hc) fun q hq hlt =>
      bind (hterm q hq (Nat.le_of_lt hlt)) fun e r hr hle =>
        after_ok (Action.pure_apply _ r) (hrest r hr (by omega) _)) (Kind.serves_signed (.inr hc))
  · next hc =>
    exact mono (advance_bind (h := ⟨_, .inl rfl⟩) hp (by simp [hc]) (.inl hc) fun q hq hlt =>
      bind (hterm q hq (Nat.le_of_lt hlt)) fun e r hr hle => hrest r hr (by omega) e)
      (Kind.serves_signed (.inl hc))
  · next hminus hplus =>
    refine mono (bind (hterm p hp (Nat.le_refl _)) fun e q hq hle => hrest q hq hle e)
      (Kind.serves_plain ?_)
    rintro (h | h)
    · exact hplus h
    · exact hminus h

theorem atom (hp : p.Live tokens) (hc : p.current ≠ .mark .lparen) :
    Reads tokens atom p .factor := by
  refine after_ok (peek_apply p) ?_
  split
  · next n hn =>
    refine mono (map (declaredName hp) _) ⟨?_, ?_⟩
    · rintro _ ⟨n, rfl⟩
      exact .name
    · rintro w t ⟨hw, -⟩ hhead
      cases hw with
      | name => exact Kind.name_ends
      | _ => simp [hn] at hhead
  · next v hv =>
    refine mono (map (number hp) _) ⟨?_, ?_⟩
    · rintro _ ⟨v, rfl⟩
      exact .number
    · rintro w t ⟨hw, -⟩ hhead
      cases hw with
      | number => exact Kind.token_ends ⟨_, rfl⟩
      | _ => simp [hv] at hhead
  · next hname hnumber =>
    refine refuse hp ?_
    rintro w t ⟨hw, -⟩ hhead
    cases hw with
    | name => exact hname _ hhead.symm
    | number => exact hnumber _ hhead.symm
    | paren => exact hc hhead.symm

/-- Less is left after each parenthesis, so that the depth is not met. -/
theorem factor {depth : Nat} (hp : p.Live tokens) (hdepth : p.rest.length ≤ depth)
    (hbound : p.rest.length ≤ bound) : Reads tokens (factor bound depth) p .factor := by
  induction depth generalizing p with
  | zero => exact absurd hp.length_pos (by omega)
  | succ depth ih =>
      unfold Parser.factor
      refine mono (accept_bind (by simp) hp (fun q hq hlt =>
        bind (sum hq (Nat.le_refl _) (by omega) fun r hr hle => ih hr (by omega) (by omega))
          fun e r hr _ => map (expect (by simp) hr) _) fun hc => atom hp hc) ⟨?_, ?_⟩
      · rintro _ (⟨_, rfl, w, _, rfl, hw, ⟨rfl⟩⟩ | hw)
        · exact .paren hw
        · exact hw
      · rintro w t ⟨hw, -⟩ -
        cases hw with
        | name => exact .inr ⟨by simp, .name, trivial⟩
        | number => exact .inr ⟨by simp, .number, trivial⟩
        | paren hw => exact .inl ⟨_, rfl, Kind.seq_ends ⟨hw, rfl, rfl⟩ (Kind.token_ends rfl)⟩

theorem expression (hp : p.Live tokens) (hbound : p.rest.length ≤ bound) :
    Reads tokens (expression bound) p .expression :=
  sum hp (Nat.le_refl _) hbound fun q hq hle => factor hq (by omega) (by omega)

theorem condition (hp : p.Live tokens) (hbound : p.rest.length ≤ bound) :
    Reads tokens (condition bound) p .condition := by
  refine after_ok (position_apply p) ?_
  refine mono (accept_bind (by simp) hp (fun q hq hlt => map (expression hq (by omega)) _) fun _ =>
    bind (expression hp hbound) fun lhs q hq hle => after_ok (position_apply q) (advance_if
      Token.isRelational (h := ⟨.mark .eq, rfl⟩) hq rfl rfl fun r hr hlt =>
        map (expression hr (Nat.le_trans (Nat.le_of_lt hlt) (Nat.le_trans hle hbound))) _)) ⟨?_, ?_⟩
  · rintro _ (⟨w, rfl, hw⟩ | ⟨w, _, rfl, hw, _, v, rfl, ⟨ht⟩, hv⟩)
    · exact .odd hw
    · obtain ⟨m, rfl, hm⟩ := isRelational_iff.mp ht
      exact .comparison hw hm hv
  · rintro u t ⟨hu, ht⟩ -
    cases hu with
    | @odd w hw => exact .inl ⟨w, rfl, hw, ht⟩
    | @comparison w m v hw hm hv =>
        have hodd : w.headD (.mark m) ≠ .keyword .odd := by
          intro h
          rcases Kind.expression_headD hw (.mark m) with hstart | hstart
          · rw [h] at hstart
            rcases hstart with hstart | hstart <;> cases hstart
          · rw [h] at hstart
            cases hstart
        refine .inr ⟨?_, Kind.seq_ends ⟨hw, endsExpression_of_isRelational hm⟩
          (Kind.token_seq_ends hm ⟨hv, ht⟩)⟩
        rwa [Kind.headD_append]

end Reads

/-! ## Statements -/

/-- A token that starts a statement which is not empty. -/
def startsStatement : Token → Bool
  | .ident _ | .keyword .call | .keyword .read | .keyword .write | .keyword .«begin» | .keyword .«if»
  | .keyword .«while» | .keyword .«return» => true
  | _ => false

end Parser

namespace Kind

open PLZero.Parser (startsStatement endsStatement)

/-- A statement is whole before a token that can end one, but for an `else` that goes with it. -/
def statement : Kind where
  phrase := Phrase.Statement
  ends w t := ∃ b, Phrase.Nearest b w ∧ endsStatement t = true ∧ (b = true → t ≠ .keyword .«else»)
  inhabited := ⟨[], .empty⟩

/-- What comes after the first token of a statement. -/
def body : Token → Kind
  | .ident _ => (one (.mark .assign)).seq expression
  | .keyword .call => name
  | .keyword .read => name.separated .comma
  | .keyword .write => expression.separated .comma
  | .keyword .«begin» => (statement.separated .semicolon).seq (one (.keyword .«end»))
  | .keyword .«if» => condition.seq ((one (.keyword .«then»)).seq
      (statement.seq (either (.keyword .«else») statement empty)))
  | .keyword .«while» => condition.seq ((one (.keyword .«do»)).seq statement)
  | _ => empty

theorem statement_of_body {t : Token} {w : Phrase} (ht : startsStatement t = true)
    (hw : (body t).phrase w) : Phrase.Statement (t :: w) := by
  unfold startsStatement at ht
  split at ht
  · obtain ⟨_, w, rfl, ⟨rfl⟩, hw⟩ := hw
    exact .assign hw
  · obtain ⟨n, rfl⟩ := hw
    exact .call
  · exact .read hw
  · exact .write hw
  · obtain ⟨w, _, rfl, hw, ⟨rfl⟩⟩ := hw
    exact .sequence hw
  · obtain ⟨w, _, rfl, hw, _, _, rfl, ⟨rfl⟩, v, _, rfl, hv, ⟨u, rfl, hu⟩ | rfl⟩ := hw
    · simpa using Phrase.Statement.ifElse hw hv hu
    · simpa using Phrase.Statement.ifThen hw hv
  · obtain ⟨w, _, rfl, hw, _, v, rfl, ⟨rfl⟩, hv⟩ := hw
    exact .whileDo hw hv
  · obtain rfl := hw
    exact .ret
  · cases ht

theorem not_endsStatement_of_starts {t : Token} (h : startsStatement t = true) :
    endsStatement t = false := by
  unfold endsStatement
  split <;> first | cases h | rfl

/-- A statement that is part of another is whole before any token but `else`. -/
theorem statement_ends {w : Phrase} {t : Token} (h : Phrase.Statement w) (ht : endsStatement t = true)
    (hne : t ≠ .keyword .«else») : statement.ends w t := by
  obtain ⟨b, hb⟩ := h.exists_nearest
  exact ⟨b, hb, ht, fun _ => hne⟩

/-- A whole statement is empty, or what its first token asks for comes after that token. -/
theorem statement_ends_cases {w : Phrase} {t : Token} (h : statement.ends w t) :
    w = [] ∧ endsStatement t = true ∨
      ∃ s v, w = s :: v ∧ startsStatement s = true ∧ (body s).ends v t := by
  obtain ⟨b, hw, ht, hb⟩ := h
  have hcomma := Parser.ne_comma_of_endsStatement ht
  have hexpr := Parser.endsExpression_of_endsStatement ht
  cases hw with
  | @ifThen w b v hc hv =>
      have hv : statement.ends v t := ⟨b, hv, ht, fun _ => hb rfl⟩
      exact .inr ⟨_, _, rfl, rfl, seq_ends ⟨hc, rfl, rfl⟩ (token_seq_ends rfl
        ⟨v, [], by simp, hv, .inr ⟨hb rfl, rfl, trivial⟩⟩)⟩
  | @ifElse w v b u hc hv hu =>
      have hv : statement.ends v (.keyword .«else») := ⟨false, hv, rfl, by simp⟩
      have hu : statement.ends u t := ⟨b, hu, ht, hb⟩
      refine .inr ⟨.keyword .«if», w ++ .keyword .«then» :: (v ++ .keyword .«else» :: u), by simp, rfl, ?_⟩
      exact seq_ends ⟨hc, rfl, rfl⟩ (token_seq_ends rfl (seq_ends hv (.inl ⟨u, rfl, hu⟩)))
  | @whileDo w b v hc hv =>
      have hv : statement.ends v t := ⟨b, hv, ht, hb⟩
      exact .inr ⟨_, _, rfl, rfl, seq_ends ⟨hc, rfl, rfl⟩ (token_seq_ends rfl hv)⟩
  | plain hs hif hwhile =>
      cases hs with
      | empty => exact .inl ⟨rfl, ht⟩
      | assign he => exact .inr ⟨_, _, rfl, rfl, token_seq_ends rfl ⟨he, hexpr⟩⟩
      | call => exact .inr ⟨_, _, rfl, rfl, name_ends⟩
      | read hs =>
          exact .inr ⟨_, _, rfl, rfl,
            separatedEnds_of_separated name (fun _ => True) .intro trivial hs trivial hcomma⟩
      | write hs =>
          exact .inr ⟨_, _, rfl, rfl,
            separatedEnds_of_separated expression _ .intro ⟨rfl, rfl⟩ hs hexpr hcomma⟩
      | sequence hs =>
          refine .inr ⟨_, _, rfl, rfl, seq_ends (separatedEnds_of_separated statement
            (fun t => t = .mark .semicolon ∨ t = .keyword .«end») ?_ (.inl rfl) hs (.inr rfl) (by simp))
            (token_ends rfl)⟩
          rintro w t hw (rfl | rfl)
          · exact statement_ends hw rfl (by simp)
          · exact statement_ends hw rfl (by simp)
      | ret => exact .inr ⟨_, _, rfl, rfl, rfl, trivial⟩
      | ifThen => simp at hif
      | ifElse => simp at hif
      | whileDo => simp at hwhile

theorem serves_statement {T : Token → Prop} {h : ∃ t, T t} {k : Kind} {c : Token}
    (hT : ∀ t, T t → startsStatement t = true ∧ body t = k) (hc : T c) :
    ((token T h).seq k).Serves statement c := by
  refine ⟨?_, ?_⟩
  · rintro _ ⟨_, w, rfl, ⟨ht⟩, hw⟩
    obtain ⟨hstart, rfl⟩ := hT _ ht
    exact statement_of_body hstart hw
  · rintro w t hw rfl
    obtain ⟨hstart, rfl⟩ := hT _ hc
    rcases statement_ends_cases hw with ⟨rfl, ht⟩ | ⟨s, v, rfl, -, hv⟩
    · exact absurd (ht.symm.trans (not_endsStatement_of_starts hstart)) (by simp)
    · exact token_seq_ends hc hv

theorem serves_keyword {t c : Token} (hc : c = t) (ht : startsStatement t = true) :
    ((one t).seq (body t)).Serves statement c := by
  refine serves_statement ?_ hc
  rintro _ rfl
  exact ⟨ht, rfl⟩

theorem serves_nothing {c : Token} (hc : endsStatement c = true) : empty.Serves statement c := by
  refine ⟨?_, ?_⟩
  · rintro _ rfl
    exact .empty
  · rintro w t hw rfl
    rcases statement_ends_cases hw with ⟨rfl, -⟩ | ⟨s, v, rfl, hs, -⟩
    · exact ⟨rfl, trivial⟩
    · exact absurd hc (by simp [not_endsStatement_of_starts hs])

end Kind

namespace Parser.Reads

variable {tokens : Word} {p : Parser} {bound : Nat}

theorem simpleStatement (hp : p.Live tokens) (hbound : p.rest.length ≤ bound)
    (hc : startsCompound p.current = false) : Reads tokens (simpleStatement bound) p .statement := by
  unfold Parser.simpleStatement
  refine after_ok (peek_apply p) ?_
  split
  · next n hn =>
    refine mono (bind (declaredName hp) fun target q hq hle => bind (expect (by simp) hq) fun _ r hr hle' =>
      map (expression hr (by omega)) _) (Kind.serves_statement ?_ ⟨n, hn⟩)
    rintro _ ⟨n, rfl⟩
    exact ⟨rfl, rfl⟩
  · next h =>
    exact mono (advance_one hp h (by simp) fun q hq _ => map (declaredName hq) _)
      (Kind.serves_keyword h rfl)
  · next h =>
    exact mono (advance_one hp h (by simp) fun q hq hlt =>
      map (separated hq (Nat.le_refl _) (by omega) fun r hr _ => declaredName hr) _)
      (Kind.serves_keyword h rfl)
  · next h =>
    exact mono (advance_one hp h (by simp) fun q hq hlt =>
      map (separated hq (Nat.le_refl _) (by omega) fun r hr hle => expression hr (by omega)) _)
      (Kind.serves_keyword h rfl)
  · next h =>
    exact mono (advance_one hp h (by simp) fun q hq _ => of_pure hq _) (Kind.serves_keyword h rfl)
  · next h => exact mono (of_pure hp _) (Kind.serves_nothing (h ▸ rfl))
  · next h => exact mono (of_pure hp _) (Kind.serves_nothing (h ▸ rfl))
  · next h => exact mono (of_pure hp _) (Kind.serves_nothing (h ▸ rfl))
  · next h => exact mono (of_pure hp _) (Kind.serves_nothing (h ▸ rfl))
  · refine refuse hp ?_
    rintro w t hw hhead
    rcases Kind.statement_ends_cases hw with ⟨rfl, ht⟩ | ⟨s, v, rfl, hs, -⟩
    · unfold endsStatement at ht
      split at ht <;> simp_all
    · have hhead : p.current = s := hhead.symm
      unfold startsStatement at hs
      split at hs <;> simp_all [startsCompound]

theorem statement {depth : Nat} (hp : p.Live tokens) (hdepth : p.rest.length ≤ depth)
    (hbound : p.rest.length ≤ bound) : Reads tokens (statement bound depth) p .statement := by
  induction depth generalizing p with
  | zero => exact absurd hp.length_pos (by omega)
  | succ depth ih =>
      by_cases hc : startsCompound p.current = false
      · exact congr (simpleStatement hp hbound hc) (statement_of_simple hc)
      unfold Parser.statement
      refine after_ok (peek_apply p) ?_
      split
      · next h =>
        exact mono (advance_one hp h (by simp) fun q hq hlt =>
          bind (separated hq (Nat.le_refl _) (by omega) fun r hr hle => ih hr (by omega) (by omega))
            fun body r hr _ => map (expect (by simp) hr) _) (Kind.serves_keyword h rfl)
      · next h =>
        exact mono (advance_one hp h (by simp) fun q hq hlt =>
          bind (condition hq (by omega)) fun test q₁ hq₁ hle₁ =>
          bind (expect (by simp) hq₁) fun _ q₂ hq₂ hle₂ =>
          bind (ih hq₂ (by omega) (by omega)) fun body q₃ hq₃ hle₃ =>
          accept_bind (by simp) hq₃ (fun q₄ hq₄ hlt₄ => map (ih hq₄ (by omega) (by omega)) _)
            fun _ => of_pure hq₃ _) (Kind.serves_keyword h rfl)
      · next h =>
        exact mono (advance_one hp h (by simp) fun q hq hlt =>
          bind (condition hq (by omega)) fun test q₁ hq₁ hle₁ =>
          bind (expect (by simp) hq₁) fun _ q₂ hq₂ hle₂ => map (ih hq₂ (by omega) (by omega)) _)
          (Kind.serves_keyword h rfl)
      · next hbegin hif hwhile =>
        refine absurd ?_ hc
        unfold startsCompound
        split <;> simp_all

end Parser.Reads

/-! ## Blocks -/

theorem ScopeChain.adds_define (symbol : Symbol) : Adds (define symbol) := by
  rintro ⟨scopes, next⟩ hc
  cases scopes with
  | nil => exact absurd rfl hc
  | cons scope outer =>
      by_cases h : (scope.find? symbol.name).isSome = true
      · exact .of_error (if_pos h) ⟨_, rfl⟩
      · exact .of_ok (if_neg h) rfl

theorem ScopeChain.adds_defineProcedure (name : String) : Adds (defineProcedure name) :=
  fun c hc => adds_define _ { c with nextProcedure := c.nextProcedure + 1 } hc

theorem ScopeChain.adds_defineVariable (name : String) : Adds (defineVariable name) :=
  fun c hc => adds_define _ c hc

namespace Kind

def constant : Kind := before Phrase.Constant (fun _ => True) ⟨_, .mk (n := "") (v := 0)⟩

def declarations (keyword : Keyword) (k : Kind) : Kind :=
  either (.keyword keyword) ((k.separated .comma).seq (one (.mark .semicolon))) empty

def block : Kind :=
  before Phrase.Block (fun t => t = .mark .semicolon ∨ t = .mark .period)
    ⟨_, .mk .none .none .nil .empty⟩

/-- A procedure after its keyword. -/
def procedure : Kind :=
  before Phrase.Procedure (fun _ => True) <| by
    obtain ⟨w, hw⟩ := block.inhabited
    exact ⟨_, .mk (n := "") hw⟩

theorem declarations_of_phrase {keyword : Keyword} {k : Kind} {w : Phrase}
    (h : (k.declarations keyword).phrase w) : Phrase.Declarations keyword k.phrase w := by
  rcases h with ⟨_, rfl, w, _, rfl, hw, ⟨rfl⟩⟩ | rfl
  · exact .some hw
  · exact .none

/-- Items that are whole before any token make up a whole list of declarations. -/
theorem declarations_ends {keyword : Keyword} {k : Kind} {w : Phrase} {t : Token}
    (hk : ∀ {w t}, k.phrase w → k.ends w t) (h : Phrase.Declarations keyword k.phrase w)
    (ht : t ≠ .keyword keyword) : (k.declarations keyword).ends w t := by
  cases h with
  | none => exact .inr ⟨ht, rfl, trivial⟩
  | some hw =>
      exact .inl ⟨_, rfl, seq_ends (separatedEnds_of_separated k (fun _ => True) (fun hw _ => hk hw) trivial
        hw trivial (by simp)) (token_ends rfl)⟩

theorem headD_of_declarations {keyword : Keyword} {Item : Phrase → Prop} {P : Token → Prop} {w : Phrase}
    {t : Token} (h : Phrase.Declarations keyword Item w) (ht : P t) (hP : P (.keyword keyword)) :
    P (w.headD t) := by
  cases h with
  | none => exact ht
  | some => exact hP

/-- A statement does not start like a declaration. -/
theorem statement_headD {w : Phrase} {t : Token} (h : statement.ends w t) :
    w.headD t ≠ .keyword .const ∧ w.headD t ≠ .keyword .var ∧ w.headD t ≠ .keyword .procedure := by
  rcases statement_ends_cases h with ⟨rfl, ht⟩ | ⟨s, v, rfl, hs, -⟩
  · refine ⟨?_, ?_, ?_⟩ <;> (rintro rfl; cases ht)
  · refine ⟨?_, ?_, ?_⟩ <;> (rintro rfl; cases hs)

theorem serves_block {c : Token} :
    ((constant.declarations .const).seq ((name.declarations .var).seq
      ((procedure.run (· = .keyword .procedure)).seq statement))).Serves block c := by
  refine ⟨?_, ?_⟩
  · rintro _ ⟨_, _, rfl, hc, _, _, rfl, hv, _, _, rfl, hp, hs⟩
    exact .mk (declarations_of_phrase hc) (declarations_of_phrase hv) hp hs
  · rintro _ t ⟨@⟨c, v, p, s, hc, hv, hp, hs⟩, ht⟩ -
    have hs : statement.ends s t := by
      rcases ht with rfl | rfl
      · exact statement_ends hs rfl (by simp)
      · exact statement_ends hs rfl (by simp)
    obtain ⟨hconst, hvar, hproc⟩ := statement_headD hs
    -- what comes after the constants, or the variables, does not start like another list of them
    have hvar' : (p ++ s).headD t ≠ .keyword .var := by
      rw [headD_append]
      exact headD_of_run (P := (· ≠ .keyword .var)) hp hvar (by simp)
    have hconst' : (v ++ (p ++ s)).headD t ≠ .keyword .const := by
      rw [headD_append, headD_append]
      exact headD_of_declarations (P := (· ≠ .keyword .const)) hv
        (headD_of_run (P := (· ≠ .keyword .const)) hp hconst (by simp)) (by simp)
    exact seq_ends (declarations_ends (fun h => ⟨h, trivial⟩) hc hconst')
      (seq_ends (declarations_ends (fun h => ⟨h, trivial⟩) hv hvar') (seq_ends
        (runEnds_of_run procedure (fun _ => True) .intro (fun _ => trivial) hp trivial hproc) hs))

end Kind

namespace Parser.Reads

variable {tokens : Word} {p : Parser} {n bound : Nat}

theorem constant (hp : p.Live tokens) : Reads tokens constant p .constant := by
  refine after_ok (position_apply p) ?_
  refine mono (bind (identifier hp) fun n q hq _ => bind (expect (by simp) hq) fun _ r hr _ =>
    bind (number hr) fun v u hu _ => declare hu hp.exists_place (ScopeChain.adds_define _)) ⟨?_, ?_⟩
  · rintro _ ⟨_, _, rfl, ⟨n, rfl⟩, _, _, rfl, ⟨rfl⟩, _, _, rfl, ⟨v, rfl⟩, rfl⟩
    exact .mk
  · rintro _ t ⟨⟨⟩, -⟩ -
    exact Kind.token_seq_ends ⟨_, rfl⟩ (Kind.token_seq_ends rfl (Kind.token_seq_ends ⟨_, rfl⟩
      ⟨rfl, trivial⟩))

theorem variableName (hp : p.Live tokens) : Reads tokens variableName p .name := by
  refine after_ok (position_apply p) ?_
  exact mono (bind (identifier hp) fun n q hq _ =>
    declare hq hp.exists_place (ScopeChain.adds_defineVariable n)) Kind.serves_seq_empty

theorem declarations {k : Kind} {keyword : Keyword} {declaration : Parse Symbol} (hp : p.Live tokens)
    (hbound : p.rest.length ≤ bound)
    (hitem : ∀ q, q.Live tokens → Reads tokens declaration q k) :
    Reads tokens (declarations keyword declaration bound) p (k.declarations keyword) :=
  accept_bind (by simp) hp (fun q hq hlt =>
    bind (separated hq (Nat.le_refl _) (by omega) fun r hr _ => hitem r hr) fun symbols r hr _ =>
      map (expect (by simp) hr) _) fun _ => of_pure hp _

theorem procedure {block : Parse Block} (hp : p.Live tokens) (hc : p.current = .keyword .procedure)
    (hblock : ∀ q, q.Live tokens → q.rest.length < p.rest.length → Reads tokens block q .block) :
    Reads tokens (procedure block) p ((Kind.one (.keyword .procedure)).seq .procedure) := by
  refine advance_one hp hc (by simp) fun q hq hlt => ?_
  refine after_ok (position_apply q) ?_
  refine mono (bind (identifier hq) fun n q₁ hq₁ hle₁ =>
    bind (declare hq₁ hq.exists_place (ScopeChain.adds_defineProcedure n)) fun symbol q₂ hq₂ hle₂ =>
    bind (expect (by simp) hq₂) fun _ q₃ hq₃ hle₃ =>
    scope_bind hq₃ (hblock _ ⟨hq₃.suffix, hq₃.once, List.cons_ne_nil _ _⟩ (by dsimp only; omega))
      fun b q₄ hq₄ _ => map (expect (by simp) hq₄) _) ⟨?_, ?_⟩
  · rintro _ ⟨_, _, rfl, ⟨n, rfl⟩, _, _, rfl, rfl, _, _, rfl, ⟨rfl⟩, w, _, rfl, hw, ⟨rfl⟩⟩
    exact .mk hw
  · rintro _ t ⟨@⟨n, w, hw⟩, -⟩ -
    have hend : (Kind.block.seq (.one (.mark .semicolon))).ends (w ++ [.mark .semicolon]) t :=
      Kind.seq_ends ⟨hw, .inl rfl⟩ (Kind.token_ends rfl)
    exact Kind.token_seq_ends ⟨n, rfl⟩ ⟨[], _, rfl, ⟨rfl, trivial⟩, Kind.token_seq_ends rfl hend⟩

theorem procedures {block : Parse Block} (hp : p.Live tokens) (hn : p.rest.length ≤ n + 1)
    (hbound : p.rest.length ≤ bound)
    (hblock : ∀ q, q.Live tokens → q.rest.length ≤ n → Reads tokens block q .block) :
    Reads tokens (procedures block bound) p (Kind.procedure.run (· = .keyword .procedure)) := by
  induction bound generalizing p with
  | zero => exact absurd hp.length_pos (by omega)
  | succ bound ih =>
      unfold Parser.procedures
      refine after_ok (peek_apply p) ?_
      by_cases hc : p.current = .keyword .procedure
      · rw [if_pos hc]
        refine mono (mono (bind_of_phrase (procedure hp hc fun q hq hlt => hblock q hq (by omega))
          fun proc q w hrest hw hq => map (ih hq ?_ ?_) _) Kind.seq_assoc) (Kind.serves_run_cons hc)
        all_goals
          obtain ⟨_, v, hvalues, ⟨-⟩, -⟩ := hw
          have hlength : w.length = v.length + 1 := by
            simpa [values] using congrArg List.length hvalues
          have hrest := congrArg List.length hrest
          rw [List.length_append] at hrest
          omega
      · rw [if_neg hc]
        exact mono (of_pure hp _) (Kind.serves_run_nil hc)

theorem blockWith {procs : Parse (List (Procedure Block))} (hp : p.Live tokens)
    (hbound : p.rest.length ≤ bound)
    (hprocs : ∀ q, q.Live tokens → q.rest.length ≤ p.rest.length →
      Reads tokens procs q (Kind.procedure.run (· = .keyword .procedure))) :
    Reads tokens (blockWith bound procs) p .block :=
  mono (bind (declarations hp hbound fun q hq => constant hq) fun consts q hq hle =>
    bind (declarations hq (by omega) fun r hr => variableName hr) fun vars q₁ hq₁ hle₁ =>
    after_ok (Action.get_apply q₁) (bind (hprocs q₁ hq₁ (by omega)) fun procs q₂ hq₂ hle₂ =>
      map (statement hq₂ (by omega) (by omega)) _)) Kind.serves_block

theorem block {depth : Nat} (hp : p.Live tokens) (hdepth : p.rest.length ≤ depth)
    (hbound : p.rest.length ≤ bound) : Reads tokens (block bound depth) p .block := by
  induction depth generalizing p with
  | zero => exact absurd hp.length_pos (by omega)
  | succ depth ih =>
      refine blockWith hp hbound fun q hq hle => procedures (n := p.rest.length - 1) hq ?_ (by omega) ?_
      · omega
      · intro r hr hle'
        exact ih hr (by omega) (by omega)

end Parser.Reads

/-! ## Programs -/

/-- The phrase is the start of a sentence. -/
def Phrase.Viable (w : Phrase) : Prop := ∃ z, Sentence z ∧ w <+: z

/-- After a block that the next token settles, a sentence has nothing but a period and the end. -/
theorem Kind.Settles.ending {w : Phrase} {t : Token} (h : Kind.block.Settles w t) {r : Phrase}
    (hr : Phrase.Viable (w ++ t :: r)) : t :: r <+: [.mark .period, .eof] := by
  obtain ⟨_, ⟨hu⟩, z, hz⟩ := hr
  rw [List.append_assoc, List.cons_append] at hz
  obtain rfl := h _ ⟨.mark .period, [.eof], _, ⟨hu, .inr rfl⟩, hz.symm⟩
  exact ⟨z, List.append_cancel_left hz⟩

theorem Kind.Breaks.viable {w : Phrase} {t : Token} (h : Kind.block.Breaks w t) :
    Phrase.Viable w ∧ ¬ Phrase.Viable (w ++ [t]) := by
  obtain ⟨⟨v, hv⟩, hnone⟩ := h
  refine ⟨⟨_, .mk hv, v ++ [.mark .period, .eof], by simp⟩, ?_⟩
  rintro ⟨_, ⟨hu⟩, z, hz⟩
  rw [List.append_assoc, List.singleton_append] at hz
  exact hnone _ ⟨.mark .period, [.eof], z, ⟨hu, .inr rfl⟩, hz.symm⟩

namespace Parser

open PLZero.Action (Yields)

theorem expect_yields (t : Token) (p : Parser) :
    Yields (expect t) p (fun _ q => p.current = t ∧ q = p.tail)
      fun e _ => p.current ≠ t ∧ e.position = p.place := by
  have haccept := accept_apply t p
  by_cases hc : p.current = t
  · rw [if_pos hc] at haccept
    exact .of_ok (Action.bind_of_ok haccept) ⟨hc, rfl⟩
  · rw [if_neg hc] at haccept
    exact .of_error (e := ⟨.expected t p.current, p.place⟩) (t := p) (Action.bind_of_ok haccept) ⟨hc, rfl⟩

/-- A list of tokens is refused at a name, or at the first token that no sentence has there. -/
theorem program_refuses {tokens : Word} (htokens : Grammar.EndsOnce tokens) :
    Yields program (.ofTokens tokens) (fun _ _ => True) fun e _ => Misnamed tokens e ∨
      ∃ w t r, tokens = w ++ t :: r ∧ t.position = e.position ∧ Phrase.Viable (values w) ∧
        ¬ Phrase.Viable (values w ++ [t.value]) := by
  have hblock : Reads tokens (block tokens.length tokens.length)
      ⟨tokens, (ofTokens tokens).ending, ScopeChain.empty.enter⟩ .block :=
    .block ⟨List.suffix_rfl, htokens, List.cons_ne_nil _ _⟩ (Nat.le_refl _) (Nat.le_refl _)
  refine .bind (.of_ok (Action.get_apply _) (.bind (.of_ok (enterScope_apply _) (.bind
    (hblock.imp ?_ ?_)))))
  · rintro b q ⟨w, hw⟩
    obtain ⟨t, r, hrest, hvalue, hplace⟩ := hw.live.exists_rest
    have htokens : tokens = w ++ t :: r := hrest ▸ hw.rest
    refine .bind (.of_ok (leaveScope_apply q) (.bind ((expect_yields _ _).imp ?_ ?_)))
    · -- the period is there, and something other than the end comes after it
      rintro _ _ ⟨hperiod, rfl⟩
      refine .bind ((expect_yields _ _).imp (fun _ _ _ => .of_ok (Action.pure_apply _ _) trivial) ?_)
      rintro e _ ⟨hc, he⟩
      have hperiod : q.current = .mark .period := hperiod
      obtain ⟨t', r', hrest', hvalue', hplace'⟩ := (hw.live.tail (by simp [hperiod])).exists_rest
      refine .inr ⟨w ++ [t], t', r', ?_, hplace'.trans he.symm, ?_, ?_⟩
      · simpa [htokens, tail, hrest] using hrest'
      · exact ⟨_, .mk hw.phrase, [.eof], by simp [values, hvalue, hperiod]⟩
      · intro h
        rw [values_append, List.append_assoc, values_cons, hvalue, hvalue'] at h
        obtain ⟨z, hz⟩ := hw.settles.ending h
        exact hc (List.cons.inj (List.cons.inj hz).2).1
    · rintro e _ ⟨hc, he⟩
      refine .inr ⟨w, t, r, htokens, hplace.trans he.symm, ⟨_, .mk hw.phrase, _, rfl⟩, ?_⟩
      intro h
      rw [hvalue] at h
      obtain ⟨z, hz⟩ := hw.settles.ending h
      exact hc (List.cons.inj hz).1
  · rintro e _ (he | ⟨w, t, r, hrest, hplace, hbreaks⟩)
    · exact .inl he
    · exact .inr ⟨w, t, r, hrest, hplace, hbreaks.viable⟩

end Parser

/-- A place comes before another in the text. -/
def Position.Before (p q : Position) : Prop := p.line < q.line ∨ p.line = q.line ∧ p.column < q.column

/-- At places that increase, no two tokens stand at the same one. -/
theorem place_unique {tokens : Word} (h : tokens.Pairwise fun s t => s.position.Before t.position)
    {i : Nat} {p : Position} (hi : tokens[i]?.map Located.position = some p) (j : Nat) :
    tokens[j]?.map Located.position = some p ↔ j = i := by
  have hnodup : (tokens.map Located.position).Nodup := by
    refine List.pairwise_map.mpr (h.imp ?_)
    intro s t hst heq
    rw [heq] at hst
    simp [Position.Before] at hst
  rw [← List.getElem?_map] at hi ⊢
  constructor
  · intro hj
    obtain ⟨hlt, -⟩ := List.getElem?_eq_some_iff.mp hj
    exact (List.getElem?_inj hlt hnodup).mp (hj.trans hi.symm)
  · rintro rfl
    exact hi

/-- A list of tokens that is refused is refused at one of them, and but for an error about a name this
is the first that no sentence has there: what comes before it is the start of a sentence, and with it
no longer. -/
theorem Block.parse_error_place {tokens : Word} (htokens : Grammar.EndsOnce tokens)
    (hplaces : tokens.Pairwise fun s t => s.position.Before t.position) {e : SyntaxError}
    (h : Block.parse tokens = .error e) :
    ∃ i, (∀ j, tokens[j]?.map Located.position = some e.position ↔ j = i) ∧
      (¬ e.value.IsScoping →
        Phrase.Viable (values (tokens.take i)) ∧ ¬ Phrase.Viable (values (tokens.take (i + 1)))) := by
  unfold Block.parse at h
  split at h
  · cases h
  · next e' q hq =>
    cases h
    rcases (Parser.program_refuses htokens).error hq with ⟨hscoping, t, ht, hplace⟩ |
      ⟨w, t, r, rfl, hplace, hviable⟩
    · obtain ⟨i, hi⟩ := List.getElem?_of_mem ht
      exact ⟨i, place_unique hplaces (by rw [hi, ← hplace]; rfl), fun hnot => absurd hscoping hnot⟩
    · refine ⟨w.length, place_unique hplaces (by simp [hplace]), fun _ => ?_⟩
      rw [List.take_left, List.take_length_add_append]
      simpa [values] using hviable

/-- In `if odd 1 then return else return else.` the second `else` goes with no `if`. -/
theorem Block.parse_error_place_secondElse :
    let tokens : Word :=
      [⟨.keyword .«if», ⟨1, 1⟩⟩, ⟨.keyword .odd, ⟨1, 4⟩⟩, ⟨.number 1, ⟨1, 8⟩⟩,
        ⟨.keyword .«then», ⟨1, 10⟩⟩, ⟨.keyword .«return», ⟨1, 15⟩⟩, ⟨.keyword .«else», ⟨1, 22⟩⟩,
        ⟨.keyword .«return», ⟨1, 27⟩⟩, ⟨.keyword .«else», ⟨1, 34⟩⟩, ⟨.mark .period, ⟨1, 38⟩⟩,
        ⟨.eof, ⟨1, 39⟩⟩]
    Block.parse tokens = .error ⟨.expected (.mark .period) (.keyword .«else»), ⟨1, 34⟩⟩ ∧
      Phrase.Viable (values (tokens.take 7)) ∧ ¬ Phrase.Viable (values (tokens.take 8)) := by
  intro tokens
  have htokens : Grammar.EndsOnce tokens :=
    ⟨_, ⟨1, 39⟩, (List.dropLast_concat_getLast (by simp [tokens])).symm, by decide⟩
  have hplaces : tokens.Pairwise fun s t => s.position.Before t.position := by
    simp [tokens, Position.Before]
  have hparse : Block.parse tokens
      = .error ⟨.expected (.mark .period) (.keyword .«else»), ⟨1, 34⟩⟩ := rfl
  obtain ⟨i, hi, hviable⟩ := Block.parse_error_place htokens hplaces hparse
  obtain rfl := (hi 7).mp rfl
  exact ⟨hparse, hviable id⟩

end PLZero
