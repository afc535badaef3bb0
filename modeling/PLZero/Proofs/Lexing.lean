import Mathlib
import PLZero.Token.Lexer

/-!
# Lexemes

How a text is made up of blanks and lexemes, apart from how it is scanned. A lexeme goes as far as it
can: what follows does not start with a character that would extend it.
-/

namespace PLZero

/-- The text does not start with a character of the class. -/
def Stops (p : Char → Bool) (text : List Char) : Prop := ∀ c ∈ text.head?, p c = false

/-- No longer mark starts where this one does if `rest` follows it. -/
def Mark.Longest (m : Mark) (rest : List Char) : Prop :=
  ∀ m' : Mark, m'.spelling.toList <+: m.spelling.toList ++ rest → m'.spelling.length ≤ m.spelling.length

/-- A text is a lexeme of a token where `rest` follows it. -/
inductive Lexeme (rest : List Char) : List Char → Token → Prop where
  | keyword {k : Keyword} : Stops Scanner.isWordPart rest → Lexeme rest k.spelling.toList (.keyword k)
  | ident {c word} : Scanner.isWordStart c → (∀ d ∈ word, Scanner.isWordPart d) →
      (∀ k : Keyword, k.spelling ≠ String.ofList (c :: word)) → Stops Scanner.isWordPart rest →
      Lexeme rest (c :: word) (.ident (String.ofList (c :: word)))
  | number {c digits} : (∀ d ∈ c :: digits, d.isDigit) → Decimal.value (c :: digits) < Decimal.int64Bound →
      Stops Char.isDigit rest →
      Lexeme rest (c :: digits) (.number (Int64.ofNat (Decimal.value (c :: digits))))
  | mark {m : Mark} : m.Longest rest → Lexeme rest m.spelling.toList (.mark m)

/-- A text that starts at a place is made up of blanks and the lexemes of these tokens, each at its place,
and the end. -/
inductive Spells : Position → List Char → List (Located Token) → Prop where
  | done {p blanks} : (∀ c ∈ blanks, Text.isBlank c) → Spells p blanks [⟨.eof, p.after blanks⟩]
  | lexeme {p blanks text rest t tokens} : (∀ c ∈ blanks, Text.isBlank c) → Lexeme rest text t →
      Spells ((p.after blanks).after text) rest tokens →
      Spells p (blanks ++ (text ++ rest)) (⟨t, p.after blanks⟩ :: tokens)

/-! ## Classes of characters -/

theorem Stops.takeWhile_append {p : Char → Bool} {text rest : List Char} (hrest : Stops p rest)
    (htext : ∀ c ∈ text, p c) : (text ++ rest).takeWhile p = text := by
  rw [List.takeWhile_append_of_pos htext]
  cases rest with
  | nil => simp
  | cons c rest => simp [hrest c rfl]

theorem Stops.append_inj {p : Char → Bool} {text text' rest rest' : List Char} (htext : ∀ c ∈ text, p c)
    (htext' : ∀ c ∈ text', p c) (hrest : Stops p rest) (hrest' : Stops p rest')
    (h : text ++ rest = text' ++ rest') : text = text' ∧ rest = rest' := by
  have heq : text = text' := by
    rw [← hrest.takeWhile_append htext, h, hrest'.takeWhile_append htext']
  subst heq
  exact ⟨rfl, List.append_cancel_left h⟩

theorem Text.isBlank_eq_false {c : Char} (hlow : 0x20 < c.toNat) (hhigh : c.toNat < 0x80) :
    Text.isBlank c = false := by
  simp [Text.isBlank, Text.blankRanges]
  omega

theorem Scanner.isWordPart_of_isWordStart {c : Char} (h : isWordStart c) : isWordPart c := by
  simp only [isWordStart, Bool.or_eq_true] at h
  rcases h with h | h <;> simp [isWordPart, Char.isAlphanum, h]

theorem Scanner.isWordPart_of_isDigit {c : Char} (h : c.isDigit) : isWordPart c := by
  simp [isWordPart, Char.isAlphanum, h]

theorem Scanner.isDigit_of_isWordStart {c : Char} (h : isWordStart c) : c.isDigit = false := by
  simp [isWordStart, Char.isAlpha, Char.isUpper, Char.isLower, Char.ext_iff, UInt32.le_iff_toNat_le,
    ← UInt32.toNat_inj] at h
  simp [Char.isDigit, UInt32.le_iff_toNat_le]
  omega

theorem Scanner.isBlank_of_isWordPart {c : Char} (h : isWordPart c) : Text.isBlank c = false := by
  simp [isWordPart, Char.isAlphanum, Char.isAlpha, Char.isUpper, Char.isLower, Char.isDigit,
    UInt32.le_iff_toNat_le, Char.ext_iff, ← UInt32.toNat_inj] at h
  exact Text.isBlank_eq_false (by omega) (by omega)

/-! ## The scanner reads lexemes -/

theorem Scanner.wordToken_spelling (k : Keyword) : wordToken k.spelling.toList = .keyword k := by
  simp [wordToken, Keyword.ofSpelling?_spelling]

theorem Scanner.wordToken_of_ne {word : List Char} (h : ∀ k : Keyword, k.spelling ≠ String.ofList word) :
    wordToken word = .ident (String.ofList word) := by
  rw [wordToken, Keyword.ofSpelling?_eq_none.mpr h]

theorem Scanner.lexeme_word {c : Char} {word rest : List Char} (hc : isWordStart c)
    (hword : ∀ d ∈ word, isWordPart d) (hrest : Stops isWordPart rest) :
    lexeme c (word ++ rest) = (.ok (wordToken (c :: word)), (c :: word).length) := by
  simp [lexeme, isDigit_of_isWordStart hc, hc, hrest.takeWhile_append hword]

theorem Scanner.lexeme_number {c : Char} {digits rest : List Char} (hdigits : ∀ d ∈ c :: digits, d.isDigit)
    (hrest : Stops Char.isDigit rest) :
    lexeme c (digits ++ rest) = (numberToken (c :: digits), (c :: digits).length) := by
  obtain ⟨hc, hdigits⟩ := List.forall_mem_cons.mp hdigits
  simp [lexeme, hc, hrest.takeWhile_append hdigits]

theorem Mark.Longest.head?_ne {m : Mark} {rest : List Char} (h : m.Longest rest) (m' : Mark)
    (hm : m'.spelling.toList = m.spelling.toList ++ ['=']) : rest.head? ≠ some '=' := by
  intro heq
  obtain ⟨tail, rfl⟩ := List.head?_eq_some_iff.mp heq
  have hle := h m' ⟨tail, by simp [hm]⟩
  rw [← String.length_toList, ← String.length_toList, hm, List.length_append, List.length_singleton] at hle
  omega

theorem Scanner.markToken_of_ne {following : Option Char} (h : following ≠ some '=') :
    markToken '<' following = .ok (.lt, 1) ∧ markToken '>' following = .ok (.gt, 1) := by
  cases following with
  | none => exact ⟨rfl, rfl⟩
  | some d => simp_all [markToken]

theorem Scanner.lexeme_mark {m : Mark} {rest : List Char} (h : m.Longest rest) :
    ∃ c following, m.spelling.toList ++ rest = c :: following ∧ Text.isBlank c = false ∧
      lexeme c following = (.ok (.mark m), m.spelling.toList.length) := by
  cases m with
  | lt =>
      obtain ⟨hmark, -⟩ := markToken_of_ne (h.head?_ne .ltEq rfl)
      exact ⟨'<', rest, rfl, rfl, by simp [lexeme, isWordStart, hmark, Mark.spelling]⟩
  | gt =>
      obtain ⟨-, hmark⟩ := markToken_of_ne (h.head?_ne .gtEq rfl)
      exact ⟨'>', rest, rfl, rfl, by simp [lexeme, isWordStart, hmark, Mark.spelling]⟩
  | _ => exact ⟨_, _, rfl, rfl, rfl⟩

theorem Scanner.exists_of_spelling (k : Keyword) :
    ∃ c word, k.spelling.toList = c :: word ∧ isWordStart c ∧ ∀ d ∈ word, isWordPart d := by
  cases k <;> exact ⟨_, _, rfl, rfl, List.all_eq_true.mp rfl⟩

/-- A lexeme does not start with a blank, and the scanner takes it whole. -/
theorem Lexeme.exists_cons {rest text : List Char} {t : Token} (h : Lexeme rest text t) :
    ∃ c following, text ++ rest = c :: following ∧ Text.isBlank c = false ∧
      Scanner.lexeme c following = (.ok t, text.length) := by
  cases h with
  | @keyword k hrest =>
      obtain ⟨c, word, hk, hc, hword⟩ := Scanner.exists_of_spelling k
      refine ⟨c, word ++ rest, by rw [hk]; rfl,
        Scanner.isBlank_of_isWordPart (Scanner.isWordPart_of_isWordStart hc), ?_⟩
      rw [Scanner.lexeme_word hc hword hrest, ← hk, Scanner.wordToken_spelling]
  | @ident c word hc hword hne hrest =>
      refine ⟨c, word ++ rest, rfl, Scanner.isBlank_of_isWordPart (Scanner.isWordPart_of_isWordStart hc), ?_⟩
      rw [Scanner.lexeme_word hc hword hrest, Scanner.wordToken_of_ne hne]
  | @number c digits hdigits hvalue hrest =>
      have hc : c.isDigit := hdigits c List.mem_cons_self
      refine ⟨c, digits ++ rest, rfl, Scanner.isBlank_of_isWordPart (Scanner.isWordPart_of_isDigit hc), ?_⟩
      rw [Scanner.lexeme_number hdigits hrest, Scanner.numberToken, if_pos hvalue]
  | mark hm => exact Scanner.lexeme_mark hm

namespace Scanner

theorem skipBlanks_append {blanks rest : List Char} (p : Position) (hblanks : ∀ c ∈ blanks, Text.isBlank c)
    (hrest : Stops Text.isBlank rest) : skipBlanks ⟨blanks ++ rest, p⟩ = ⟨rest, p.after blanks⟩ := by
  simp [skipBlanks, advance, hrest.takeWhile_append hblanks]

theorem tokenize_done {s : Scanner} {p : Position} (h : s.skipBlanks = ⟨[], p⟩) :
    s.tokenize = (.ok [⟨.eof, p⟩], ⟨[], p⟩) := by
  unfold tokenize
  split
  · next q hq =>
    rw [h] at hq
    cases hq
    rfl
  · next hq =>
    rw [h] at hq
    cases hq

theorem tokenize_lexeme {s s' : Scanner} {c : Char} {following : List Char} {p : Position} {t : Token}
    {n : Nat} {tokens : List (Located Token)} (h : s.skipBlanks = ⟨c :: following, p⟩)
    (hl : lexeme c following = (.ok t, n))
    (hrest : tokenize (advance ⟨c :: following, p⟩ n) = (.ok tokens, s')) :
    s.tokenize = (.ok (⟨t, p⟩ :: tokens), s') := by
  rw [tokenize]
  split
  · next hq =>
    rw [h] at hq
    cases hq
  · next hq =>
    rw [h] at hq
    cases hq
    split
    · next hl' =>
      rw [hl] at hl'
      cases hl'
    · next hl' =>
      rw [hl] at hl'
      cases hl'
      rw [hrest]

end Scanner

theorem Spells.tokenize_eq {p : Position} {text : List Char} {tokens : List (Located Token)}
    (h : Spells p text tokens) : ∃ s, Scanner.tokenize ⟨text, p⟩ = (.ok tokens, s) := by
  induction h with
  | @done p blanks hblanks =>
      have hstops : Stops Text.isBlank [] := by simp [Stops]
      have hskip := Scanner.skipBlanks_append p hblanks hstops
      rw [List.append_nil] at hskip
      exact ⟨_, Scanner.tokenize_done hskip⟩
  | @lexeme p blanks text rest t tokens hblanks hl _ ih =>
      obtain ⟨c, following, heq, hc, hlexeme⟩ := hl.exists_cons
      obtain ⟨s, hs⟩ := ih
      have hstops : Stops Text.isBlank (text ++ rest) := by simp [Stops, heq, hc]
      have hadvance : Scanner.advance ⟨text ++ rest, p.after blanks⟩ text.length =
          ⟨rest, (p.after blanks).after text⟩ := by simp [Scanner.advance]
      have hskip := Scanner.skipBlanks_append p hblanks hstops
      rw [heq] at hstops hadvance hskip ⊢
      exact ⟨s, Scanner.tokenize_lexeme hskip hlexeme (hadvance ▸ hs)⟩

/-! ## What the scanner reads are lexemes -/

theorem stops_dropWhile (p : Char → Bool) (text : List Char) : Stops p (text.dropWhile p) := by
  intro c hc
  have hhead := List.head?_dropWhile_not p text
  rwa [Option.mem_def.mp hc] at hhead

theorem take_length_takeWhile (p : Char → Bool) (text : List Char) :
    text.take (text.takeWhile p).length = text.takeWhile p :=
  (List.prefix_iff_eq_take.mp (List.takeWhile_prefix p)).symm

theorem drop_length_takeWhile (p : Char → Bool) (text : List Char) :
    text.drop (text.takeWhile p).length = text.dropWhile p := by
  have hdrop : (text.takeWhile p ++ text.dropWhile p).drop (text.takeWhile p).length = text.dropWhile p :=
    List.drop_left
  rwa [List.takeWhile_append_dropWhile] at hdrop

theorem Scanner.exists_of_skipBlanks {s : Scanner} {rest : List Char} {p : Position}
    (h : s.skipBlanks = ⟨rest, p⟩) :
    ∃ blanks, s.rest = blanks ++ rest ∧ (∀ c ∈ blanks, Text.isBlank c) ∧ p = s.position.after blanks := by
  simp only [skipBlanks, advance, take_length_takeWhile, drop_length_takeWhile, Scanner.mk.injEq] at h
  obtain ⟨rfl, rfl⟩ := h
  exact ⟨_, List.takeWhile_append_dropWhile.symm, List.all_eq_true.mp List.all_takeWhile, rfl⟩

theorem Lexeme.of_word {c : Char} {word rest : List Char} (hc : Scanner.isWordStart c)
    (hword : ∀ d ∈ word, Scanner.isWordPart d) (hrest : Stops Scanner.isWordPart rest) :
    Lexeme rest (c :: word) (Scanner.wordToken (c :: word)) := by
  unfold Scanner.wordToken
  split
  · next k hk =>
    have htext : c :: word = k.spelling.toList := by simp [Keyword.ofSpelling?_eq_some.mp hk]
    rw [htext]
    exact .keyword hrest
  · next hnone =>
    exact .ident hc hword (Keyword.ofSpelling?_eq_none.mp hnone) hrest

theorem Mark.length_spelling (m : Mark) : m.spelling.length = 1 ∨ m.spelling.length = 2 := by
  cases m <;> decide

theorem Scanner.markToken_of_length_eq_two {m : Mark} {c : Char} {following : List Char}
    (hm : m.spelling.length = 2) (h : m.spelling.toList <+: c :: following) :
    markToken c following.head? = .ok (m, 2) := by
  obtain ⟨rest, hrest⟩ := h
  cases m with
  | assign | ltEq | gtEq =>
      cases hrest
      rfl
  | _ => exact absurd hm (by decide)

theorem Scanner.exists_of_markToken {c : Char} {following : List Char} {m : Mark} {n : Nat}
    (h : markToken c following.head? = .ok (m, n)) :
    n = m.spelling.length ∧ ∃ rest, c :: following = m.spelling.toList ++ rest := by
  generalize hhead : following.head? = next at h
  unfold markToken at h
  split at h
  all_goals cases h
  case h_1 | h_2 | h_3 =>
    obtain ⟨rest, rfl⟩ := List.head?_eq_some_iff.mp hhead
    exact ⟨rfl, rest, rfl⟩
  all_goals exact ⟨rfl, following, rfl⟩

theorem Lexeme.of_markToken {c : Char} {following : List Char} {m : Mark} {n : Nat}
    (h : Scanner.markToken c following.head? = .ok (m, n)) :
    Lexeme ((c :: following).drop n) ((c :: following).take n) (.mark m) := by
  obtain ⟨rfl, rest, hrest⟩ := Scanner.exists_of_markToken h
  rw [hrest, ← String.length_toList, List.drop_left, List.take_left]
  refine .mark fun m' hm' => ?_
  rw [← hrest] at hm'
  rcases m'.length_spelling with hone | htwo
  · have := m.length_spelling
    omega
  · have hsame := h.symm.trans (Scanner.markToken_of_length_eq_two htwo hm')
    simp only [Except.ok.injEq, Prod.mk.injEq] at hsame
    omega

theorem Lexeme.of_lexeme {c : Char} {following : List Char} {t : Token} {n : Nat}
    (h : Scanner.lexeme c following = (.ok t, n)) :
    Lexeme ((c :: following).drop n) ((c :: following).take n) t := by
  unfold Scanner.lexeme at h
  split at h
  · next hc =>
    simp only [Prod.mk.injEq, List.length_cons] at h
    obtain ⟨ht, rfl⟩ := h
    simp only [List.take_succ_cons, List.drop_succ_cons, take_length_takeWhile, drop_length_takeWhile]
    unfold Scanner.numberToken at ht
    split at ht
    · next hvalue =>
      cases ht
      refine .number (List.forall_mem_cons.mpr ⟨hc, ?_⟩) hvalue (stops_dropWhile _ _)
      exact List.all_eq_true.mp List.all_takeWhile
    · cases ht
  · split at h
    · next hc =>
      simp only [Prod.mk.injEq, List.length_cons] at h
      obtain ⟨ht, rfl⟩ := h
      simp only [List.take_succ_cons, List.drop_succ_cons, take_length_takeWhile, drop_length_takeWhile]
      cases ht
      exact .of_word hc (List.all_eq_true.mp List.all_takeWhile) (stops_dropWhile _ _)
    · split at h
      · next hm =>
        cases h
        exact .of_markToken hm
      · simp at h

theorem Spells.of_tokenize {s s' : Scanner} {tokens : List (Located Token)}
    (h : s.tokenize = (.ok tokens, s')) : Spells s.position s.rest tokens := by
  fun_induction Scanner.tokenize s generalizing tokens s' with
  | case1 s position hs =>
      cases h
      obtain ⟨blanks, hrest, hblanks, rfl⟩ := Scanner.exists_of_skipBlanks hs
      rw [hrest, List.append_nil]
      exact .done hblanks
  | case2 s c following position hs cause length hl => cases h
  | case3 s c following position hs token length hl tokens' s₁ hrest ih =>
      cases h
      obtain ⟨blanks, heq, hblanks, rfl⟩ := Scanner.exists_of_skipBlanks hs
      rw [heq, ← List.take_append_drop length (c :: following)]
      exact .lexeme hblanks (.of_lexeme hl) (ih hrest)
  | case4 s c following position hs token length hl e s₁ hrest ih => cases h

/-- A source is read as these tokens exactly if it spells them. -/
theorem Token.lex_eq_ok {source : String} {tokens : List (Located Token)} :
    Token.lex source = .ok tokens ↔ Spells .start source.toList tokens := by
  constructor
  · intro h
    exact Spells.of_tokenize (Prod.ext h rfl)
  · intro h
    obtain ⟨s, hs⟩ := h.tokenize_eq
    rw [Token.lex, Scanner.ofString, hs]

end PLZero
