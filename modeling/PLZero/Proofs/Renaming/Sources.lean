import Mathlib
import PLZero.Proofs.Compiled
import PLZero.Proofs.Grammar.Completeness
import PLZero.Proofs.Lexing
import PLZero.Proofs.Renaming.Compilation

/-!
# Renamed programs

Two lists of tokens of which one is the other with its identifiers renamed, each name to one of its own,
are both programs or neither is, and they compile alike. So do two sources that differ in nothing else
but their blanks.
-/

namespace PLZero

open Relator (BiUnique)

/-- A token with another name, if it has one. -/
def Token.rename (ρ : String → String) : Token → Token
  | .ident name => .ident (ρ name)
  | token => token

theorem Token.alike_rename {R : String → String → Prop} {ρ : String → String} {t : Token}
    (h : ∀ n, t = .ident n → R n (ρ n)) : t.Alike R (t.rename ρ) := by
  cases t with
  | ident n => exact .ident (h n rfl)
  | number | keyword | mark | eof => exact .same (by simp)

namespace Grammar

/-- The names in a word. -/
def names (w : Word) : List String :=
  w.filterMap fun t => match t.value with
    | .ident name => some name
    | _ => none

theorem mem_names {w : Word} {t : Located Token} {n : String} (ht : t ∈ w) (hn : t.value = .ident n) :
    n ∈ names w :=
  List.mem_filterMap.mpr ⟨t, ht, by rw [hn]⟩

/-- One word is the other with its names renamed, distinct ones to distinct ones, and at any places. -/
structure Renamed (ρ : String → String) (w w' : Word) : Prop where
  values : w'.map Located.value = w.map fun t => t.value.rename ρ
  injective : ∀ m ∈ names w, ∀ n ∈ names w, ρ m = ρ n → m = n

/-- A name of the word and what it becomes. -/
def Becomes (ρ : String → String) (w : Word) (m n : String) : Prop := m ∈ names w ∧ ρ m = n

variable {R : String → String → Prop} {ρ : String → String} {w w' : Word}

theorem Renamed.biUnique (h : Renamed ρ w w') : BiUnique (Becomes ρ w) := by
  constructor
  · rintro m n _ ⟨hm, rfl⟩ ⟨hn, heq⟩
    exact h.injective m hm n hn heq.symm
  · rintro m _ _ ⟨-, rfl⟩ ⟨-, rfl⟩
    rfl

theorem Renamed.alike (h : Renamed ρ w w') : WordAlike (Becomes ρ w) w w' := by
  have halike : List.Forall₂ (fun t v => t.value.Alike (Becomes ρ w) v) w (w'.map Located.value) := by
    rw [h.values, List.forall₂_map_right_iff, List.forall₂_same]
    exact fun t ht => Token.alike_rename fun n hn => ⟨mem_names ht hn, rfl⟩
  exact List.forall₂_map_right_iff.mp halike

/-! ## Programs -/

theorem EndsOnce.alike (h : EndsOnce w) (hw : WordAlike R w w') : EndsOnce w' := by
  obtain ⟨body, p, rfl, hbody⟩ := h
  obtain ⟨body', _, rfl, hbody', hend⟩ := hw.append
  obtain ⟨p', rfl⟩ := hend.single (by simp)
  refine ⟨body', p', rfl, fun t' ht' heof => ?_⟩
  obtain ⟨t, ht, htt'⟩ := exists_mem_of_forall₂ (List.Forall₂.flip hbody') ht'
  have htoken : t.value.Alike R t'.value := htt'
  rw [heof] at htoken
  exact hbody t ht htoken.eq_eof

theorem Program.alike (hR : BiUnique R) {tree : Block} (h : Program w tree) (hw : WordAlike R w w') :
    ∃ tree', Program w' tree' ∧ tree.Alike R tree' := by
  cases h with
  | mk h =>
      obtain ⟨v, _, rfl, hblock, hrest⟩ := hw.append
      obtain ⟨p', _, rfl, hend⟩ := hrest.cons (by simp)
      obtain ⟨q', rfl⟩ := hend.single (by simp)
      obtain ⟨tree', h', halike⟩ := h.alike hR .nil hblock
      exact ⟨tree', .mk h', halike⟩

end Grammar

open Grammar

/-- The counterpart of a program is one too. -/
theorem Block.parse_alike {R : String → String → Prop} (hR : BiUnique R) {tokens tokens' : Word}
    {tree : Block} (htokens : EndsOnce tokens) (hwords : WordAlike R tokens tokens')
    (h : Block.parse tokens = .ok tree) : ∃ tree', Block.parse tokens' = .ok tree' ∧ tree.Alike R tree' := by
  obtain ⟨tree', htree', halike⟩ := (Block.program_of_parse htokens h).alike hR hwords
  exact ⟨tree', htree'.parse, halike⟩

/-- Alike words are both programs, with alike trees and alike outcomes of their compilation, or neither is. -/
theorem Block.outcomes_alike {R : String → String → Prop} (hR : BiUnique R) {tokens tokens' : Word}
    (htokens : EndsOnce tokens) (hwords : WordAlike R tokens tokens') :
    (∃ e e', Block.parse tokens = .error e ∧ Block.parse tokens' = .error e') ∨
      ∃ tree tree', Block.parse tokens = .ok tree ∧ Block.parse tokens' = .ok tree' ∧ tree.Alike R tree' ∧
        ((∃ code, tree.compile = .ok code ∧ tree'.compile = .ok code) ∨
          ∃ e e', tree.compile = .error e ∧ tree'.compile = .error e' ∧ e.Alike R e') := by
  cases hparse : Block.parse tokens with
  | ok tree =>
      obtain ⟨tree', hparse', halike⟩ := Block.parse_alike hR htokens hwords hparse
      exact .inr ⟨tree, tree', rfl, hparse', halike, Block.compile_alike halike⟩
  | error e =>
      cases hparse' : Block.parse tokens' with
      | error e' => exact .inl ⟨e, e', rfl, rfl⟩
      | ok tree' =>
          -- The names are also related the other way, so the first list would be a program too.
          have hflip : BiUnique (flip R) := ⟨fun _ _ _ h h' => hR.2 h h', hR.1.flip⟩
          obtain ⟨tree, hback, -⟩ := Block.parse_alike hflip (htokens.alike hwords) hwords.flip hparse'
          rw [hparse] at hback
          cases hback

/-! ## Sources -/

theorem Spells.endsOnce {p : Position} {text : List Char} {tokens : Word} (h : Spells p text tokens) :
    EndsOnce tokens := by
  induction h with
  | done _ => exact ⟨[], _, rfl, by simp⟩
  | lexeme _ hl _ ih =>
      obtain ⟨body, q, rfl, hbody⟩ := ih
      refine ⟨_ :: body, q, rfl, List.forall_mem_cons.mpr ⟨?_, hbody⟩⟩
      cases hl <;> simp

theorem Source.compile_eq_ok_of_lex {source : String} {tokens : Word} {code : Code}
    (hlex : Token.lex source = .ok tokens) :
    (Source.compile source).1 = .ok code ↔
      ∃ tree, Block.parse tokens = .ok tree ∧ tree.compile = .ok code := by
  constructor
  · intro h
    obtain ⟨tokens', tree, hlex', hparse, hcompile⟩ := Source.exists_of_compile h
    rw [hlex] at hlex'
    cases hlex'
    exact ⟨tree, hparse, hcompile⟩
  · rintro ⟨tree, hparse, hcompile⟩
    unfold Block.compile at hcompile
    unfold Source.compile
    simp only [hlex, hparse]
    split at hcompile
    · next hrun =>
      cases hcompile
      rw [hrun]
    · cases hcompile

/-- A list of tokens is a program if and only if it is one after renaming, with the same tree up to names
and places, and the same code or the same error up to names and places. Sources that spell such lists,
with any blanks, have the same code. -/
theorem Grammar.Renamed.same_code {ρ : String → String} {tokens tokens' : Word}
    (h : Renamed ρ tokens tokens') :
    (EndsOnce tokens →
      (∃ e e', Block.parse tokens = .error e ∧ Block.parse tokens' = .error e') ∨
      ∃ tree tree', Block.parse tokens = .ok tree ∧ Block.parse tokens' = .ok tree' ∧
        tree.Alike (Becomes ρ tokens) tree' ∧
        ((∃ code, tree.compile = .ok code ∧ tree'.compile = .ok code) ∨
          ∃ e e', tree.compile = .error e ∧ tree'.compile = .error e' ∧
            e.Alike (Becomes ρ tokens) e')) ∧
    ∀ source source', Spells .start source.toList tokens → Spells .start source'.toList tokens' →
      ∀ code, (Source.compile source).1 = .ok code ↔ (Source.compile source').1 = .ok code := by
  constructor
  · intro htokens
    exact Block.outcomes_alike h.biUnique htokens h.alike
  · intro source source' hsource hsource' code
    rw [Source.compile_eq_ok_of_lex (Token.lex_eq_ok.mpr hsource),
      Source.compile_eq_ok_of_lex (Token.lex_eq_ok.mpr hsource')]
    rcases Block.outcomes_alike h.biUnique hsource.endsOnce h.alike with
      ⟨e, e', he, he'⟩ | ⟨tree, tree', htree, htree', -, ⟨code', hcode, hcode'⟩ | ⟨e, e', he, he', -⟩⟩
    · simp [he, he']
    · simp [htree, htree', hcode, hcode']
    · simp [htree, htree', he, he']

/-! A variable and a procedure that exchange their names, in another layout. -/

namespace Exchange

def rename : String → String
  | "x" => "p"
  | "p" => "x"
  | name => name

def source : String := "var x; procedure p; x := 2; call p."

def renamed : String := "var p;\nprocedure x;\n  p := 02;\ncall x .\n"

def tokens : Word := [
  ⟨.keyword .var, ⟨1, 1⟩⟩, ⟨.ident "x", ⟨1, 5⟩⟩, ⟨.mark .semicolon, ⟨1, 6⟩⟩,
  ⟨.keyword .procedure, ⟨1, 8⟩⟩, ⟨.ident "p", ⟨1, 18⟩⟩, ⟨.mark .semicolon, ⟨1, 19⟩⟩,
  ⟨.ident "x", ⟨1, 21⟩⟩, ⟨.mark .assign, ⟨1, 23⟩⟩, ⟨.number 2, ⟨1, 26⟩⟩, ⟨.mark .semicolon, ⟨1, 27⟩⟩,
  ⟨.keyword .call, ⟨1, 29⟩⟩, ⟨.ident "p", ⟨1, 34⟩⟩, ⟨.mark .period, ⟨1, 35⟩⟩, ⟨.eof, ⟨1, 36⟩⟩]

def renamedTokens : Word := [
  ⟨.keyword .var, ⟨1, 1⟩⟩, ⟨.ident "p", ⟨1, 5⟩⟩, ⟨.mark .semicolon, ⟨1, 6⟩⟩,
  ⟨.keyword .procedure, ⟨2, 1⟩⟩, ⟨.ident "x", ⟨2, 11⟩⟩, ⟨.mark .semicolon, ⟨2, 12⟩⟩,
  ⟨.ident "p", ⟨3, 3⟩⟩, ⟨.mark .assign, ⟨3, 5⟩⟩, ⟨.number 2, ⟨3, 8⟩⟩, ⟨.mark .semicolon, ⟨3, 10⟩⟩,
  ⟨.keyword .call, ⟨4, 1⟩⟩, ⟨.ident "x", ⟨4, 6⟩⟩, ⟨.mark .period, ⟨4, 8⟩⟩, ⟨.eof, ⟨5, 1⟩⟩]

def code : Code := #[
  ⟨.enter, 0, 4⟩, ⟨.call, 0, 3⟩, .operate .ret,
  ⟨.enter, 0, 3⟩, ⟨.loadConst, 0, 2⟩, ⟨.storeVar, 1, 0⟩, .operate .ret]

end Exchange

theorem Grammar.Renamed.same_code_exchange :
    Renamed Exchange.rename Exchange.tokens Exchange.renamedTokens ∧ EndsOnce Exchange.tokens ∧
      (∃ tree tree', Block.parse Exchange.tokens = .ok tree ∧ Block.parse Exchange.renamedTokens = .ok tree' ∧
        tree.Alike (Becomes Exchange.rename Exchange.tokens) tree' ∧
        tree.compile = .ok Exchange.code ∧ tree'.compile = .ok Exchange.code) ∧
      Spells .start Exchange.source.toList Exchange.tokens ∧
      Spells .start Exchange.renamed.toList Exchange.renamedTokens ∧
      (Source.compile Exchange.renamed).1 = .ok Exchange.code := by
  have hrenamed : Renamed Exchange.rename Exchange.tokens Exchange.renamedTokens := ⟨by decide, by decide⟩
  have hends : EndsOnce Exchange.tokens := ⟨Exchange.tokens.dropLast, ⟨1, 36⟩, rfl, by decide⟩
  have hsource : Spells .start Exchange.source.toList Exchange.tokens := Token.lex_eq_ok.mp (by cbv)
  have hspells : Spells .start Exchange.renamed.toList Exchange.renamedTokens := Token.lex_eq_ok.mp (by cbv)
  have hcompile : (Source.compile Exchange.source).1 = .ok Exchange.code := by cbv
  obtain ⟨hparse, hsources⟩ := Grammar.Renamed.same_code hrenamed
  obtain ⟨tree, hok, hcode⟩ := (Source.compile_eq_ok_of_lex (Token.lex_eq_ok.mpr hsource)).mp hcompile
  refine ⟨hrenamed, hends, ?_, hsource, hspells, (hsources _ _ hsource hspells _).mp hcompile⟩
  rcases hparse hends with ⟨e, e', he, -⟩ | ⟨_, tree', htree, htree', halike, hcompiled⟩
  · rw [hok] at he
    cases he
  · rw [hok] at htree
    cases htree
    rcases hcompiled with ⟨code, hc, hc'⟩ | ⟨e, e', he, -, -⟩
    · rw [hcode] at hc
      cases hc
      exact ⟨tree, tree', hok, htree', halike, hcode, hc'⟩
    · rw [hcode] at he
      cases he

end PLZero
