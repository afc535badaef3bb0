import PLZero.Proofs.Compiled

/-!
# What a parser accepts

A fresh parser that accepts a program hands out a well-resolved tree, and it has closed every scope that it
opened.
-/

namespace PLZero

open Grammar

theorem Parser.scopes_of_expect {t : Token} {p q : Parser} (h : Parser.expect t p = .ok () q) :
    q.scopes = p.scopes := by
  unfold expect at h
  rw [Action.bind_eq_ok] at h
  obtain ⟨b, u, hb, h⟩ := h
  cases b with
  | true =>
      obtain ⟨-, rfl⟩ := Action.pure_eq_ok.mp h
      rw [accept_apply] at hb
      split at hb <;> cases hb
      rfl
  | false => exact absurd h refuse_ne_ok

/-- A parser that has read a program has closed every scope. -/
theorem Parser.scopes_of_program {tokens : Word} {b : Block} {q : Parser}
    (h : Parser.program (.ofTokens tokens) = .ok b q) : q.scopes.scopes = [] := by
  unfold program at h
  rw [Action.bind_of_ok (Action.get_apply _), Action.bind_of_ok (enterScope_apply _),
    Action.bind_eq_ok] at h
  obtain ⟨b', u, hb, h⟩ := h
  have hdistinct : ScopeChain.empty.enter.Distinct := by
    simp [ScopeChain.Distinct, ScopeChain.empty, ScopeChain.enter, Scope.empty]
  obtain ⟨w, s, n, -, hu, -⟩ := block_sound _ _ hb hdistinct rfl
  rw [Action.bind_of_ok (leaveScope_apply u), Action.bind_eq_ok] at h
  obtain ⟨_, v, hv, h⟩ := h
  rw [Action.bind_eq_ok] at h
  obtain ⟨_, v', hv', h⟩ := h
  obtain ⟨-, rfl⟩ := Action.pure_eq_ok.mp h
  rw [scopes_of_expect hv', scopes_of_expect hv]
  simp [hu, ScopeChain.leave, ScopeChain.close, ofTokens, ScopeChain.empty]

/-- What a fresh parser accepts is a well-resolved tree whose procedures have ids of their own, and the
parser is left without an open scope. -/
theorem Parser.program_wellResolved {tokens : Word} {tree : Block} {parser : Parser}
    (h : Parser.program (.ofTokens tokens) = .ok tree parser) :
    tree.WellResolved [] ∧ ((Semantics.procedures tree).map fun p => p.1.procedureId).Nodup ∧
      parser.scopes.scopes = [] := by
  obtain ⟨w, n, a, rest, -, hw, -⟩ := Parser.program_sound h
  refine ⟨hw.wellResolved .nil, ?_, Parser.scopes_of_program h⟩
  rw [← Block.map_places 0 tree, List.map_map]
  exact hw.nodup_ids

/-- `var x; procedure p; var x; procedure q; x := 1; call q; call p.` -/
def Shadowing.tokens : Word :=
  [⟨.keyword .var, ⟨1, 1⟩⟩, ⟨.ident "x", ⟨1, 5⟩⟩, ⟨.mark .semicolon, ⟨1, 6⟩⟩,
    ⟨.keyword .procedure, ⟨1, 8⟩⟩, ⟨.ident "p", ⟨1, 18⟩⟩, ⟨.mark .semicolon, ⟨1, 19⟩⟩,
    ⟨.keyword .var, ⟨1, 21⟩⟩, ⟨.ident "x", ⟨1, 25⟩⟩, ⟨.mark .semicolon, ⟨1, 26⟩⟩,
    ⟨.keyword .procedure, ⟨1, 28⟩⟩, ⟨.ident "q", ⟨1, 38⟩⟩, ⟨.mark .semicolon, ⟨1, 39⟩⟩,
    ⟨.ident "x", ⟨1, 41⟩⟩, ⟨.mark .assign, ⟨1, 43⟩⟩, ⟨.number 1, ⟨1, 46⟩⟩, ⟨.mark .semicolon, ⟨1, 47⟩⟩,
    ⟨.keyword .call, ⟨1, 49⟩⟩, ⟨.ident "q", ⟨1, 54⟩⟩, ⟨.mark .semicolon, ⟨1, 55⟩⟩,
    ⟨.keyword .call, ⟨1, 57⟩⟩, ⟨.ident "p", ⟨1, 62⟩⟩, ⟨.mark .period, ⟨1, 63⟩⟩, ⟨.eof, ⟨1, 64⟩⟩]

/-- The inner procedure sees the inner variable, which is at level one. -/
theorem Parser.program_wellResolved_shadowing :
    ∃ tree parser, Parser.program (.ofTokens Shadowing.tokens) = .ok tree parser ∧ tree.WellResolved [] ∧
      parser.scopes.scopes = [] ∧ (Semantics.procedures tree).map (fun p => p.1.procedureId) = [0, 1] ∧
      (Semantics.procedures tree).map (fun p => p.2.vars) = [[⟨"x", .var 1 0⟩], []] := by
  obtain ⟨tree, parser, h⟩ : ∃ tree parser,
      Parser.program (.ofTokens Shadowing.tokens) = .ok tree parser := ⟨_, _, rfl⟩
  obtain ⟨hresolved, -, hscopes⟩ := Parser.program_wellResolved h
  refine ⟨tree, parser, h, hresolved, hscopes, ?_⟩
  cases h
  exact ⟨rfl, rfl⟩

end PLZero
