import Mathlib
import PLZero.Proofs.Lexing

/-!
# Splitting a source

A source splits into blanks and lexemes in at most one way, where a lexeme is a text of one of three shapes
that no longer text of any shape starts with. The scanner finds that split, or the place where it ends.
-/

namespace PLZero

/-- The texts that can be lexemes: words, runs of digits of any length, and marks. -/
inductive Shape : List Char → Prop where
  | word {c text} : Scanner.isWordStart c → (∀ d ∈ text, Scanner.isWordPart d) → Shape (c :: text)
  | digits {text} : text ≠ [] → (∀ d ∈ text, d.isDigit) → Shape text
  | mark (m : Mark) : Shape m.spelling.toList

/-- No longer text of any shape starts where this one does. -/
structure Maximal (rest text : List Char) : Prop where
  shape : Shape text
  length_le : ∀ longer, Shape longer → longer <+: text ++ rest → longer.length ≤ text.length

/-- What a lexeme stands for. A word is an identifier only if it is no keyword. -/
inductive Means : List Char → Token → Prop where
  | keyword (k : Keyword) : Means k.spelling.toList (.keyword k)
  | ident {c text} : Scanner.isWordStart c → (∀ d ∈ text, Scanner.isWordPart d) →
      (∀ k : Keyword, k.spelling ≠ String.ofList (c :: text)) → Means (c :: text) (.ident (String.ofList (c :: text)))
  | number {text} : text ≠ [] → (∀ d ∈ text, d.isDigit) → Decimal.value text < Decimal.int64Bound →
      Means text (.number (Int64.ofNat (Decimal.value text)))
  | mark (m : Mark) : Means m.spelling.toList (.mark m)

/-- A lexeme with the blanks in front of it and the token that it stands for. -/
structure Piece where
  blanks : List Char
  text : List Char
  token : Token

/-- A text is these pieces, then blanks, then `rest`. -/
inductive Splits : List Char → List Piece → List Char → List Char → Prop where
  | nil {blanks rest} : (∀ c ∈ blanks, Text.isBlank c) → Splits (blanks ++ rest) [] blanks rest
  | cons {blanks text following token pieces last rest} : (∀ c ∈ blanks, Text.isBlank c) →
      Maximal following text → Means text token → Splits following pieces last rest →
      Splits (blanks ++ (text ++ following)) (⟨blanks, text, token⟩ :: pieces) last rest

/-- A text that starts with no lexeme, and why. -/
inductive Refused : List Char → LexError.Cause → Prop where
  | number {digits rest} : (∀ d ∈ digits, d.isDigit) → Maximal rest digits →
      Decimal.int64Bound ≤ Decimal.value digits → Refused (digits ++ rest) (.numberOutOfRange digits)
  | colon {rest} : rest.head? ≠ some '=' → Refused (':' :: rest) .loneColon
  | character {c rest} : Text.isBlank c = false → (∀ text, Shape text → text.head? ≠ some c) →
      Refused (c :: rest) (.unexpectedCharacter c)

/-- The text of pieces. -/
def Piece.join (pieces : List Piece) : List Char :=
  pieces.flatMap fun piece => piece.blanks ++ piece.text

/-- The place after a text: one more than its newlines, and one more than the characters after the last. -/
def Position.place (before : List Char) : Position :=
  ⟨1 + before.count '\n', 1 + (before.rtakeWhile (· ≠ '\n')).length⟩

/-- The tokens of pieces, each at the place of its lexeme. -/
def Piece.tokens (before : List Char) : List Piece → List (Located Token)
  | [] => []
  | piece :: pieces =>
    ⟨piece.token, .place (before ++ piece.blanks)⟩ :: tokens (before ++ (piece.blanks ++ piece.text)) pieces

/-! ## Places -/

theorem Position.after_start (before : List Char) : Position.start.after before = .place before := by
  induction before using List.reverseRecOn with
  | nil => rfl
  | append_singleton before c ih =>
      rw [after_append, ih, after_cons, after_nil, next]
      by_cases hc : c = '\n'
      · simp [place, hc, List.rtakeWhile_concat_neg, Nat.add_assoc]
      · simp [place, hc, List.rtakeWhile_concat_pos, Nat.add_assoc]

/-! ## Maximal lexemes -/

theorem Stops.length_le {p : Char → Bool} {text rest longer : List Char} (hrest : Stops p rest)
    (hlonger : ∀ c ∈ longer, p c) (h : longer <+: text ++ rest) : longer.length ≤ text.length := by
  by_contra hlt
  have hlt : text.length < longer.length := Nat.not_le.mp hlt
  have hhead : longer[text.length] ∈ rest.head? := by
    have hget := h.getElem hlt
    rw [List.getElem_append_right (Nat.le_refl _)] at hget
    simp [hget, List.head?_eq_getElem?]
  have hfalse := hrest _ hhead
  rw [hlonger _ (List.getElem_mem hlt)] at hfalse
  cases hfalse

theorem Mark.exists_cons (m : Mark) : ∃ c text, m.spelling.toList = c :: text ∧ Scanner.isWordPart c = false := by
  cases m <;> exact ⟨_, _, rfl, rfl⟩

theorem Shape.isWordPart {longer following : List Char} {c : Char} (h : Shape longer)
    (hlonger : longer <+: c :: following) (hc : Scanner.isWordPart c) : ∀ d ∈ longer, Scanner.isWordPart d := by
  cases h with
  | word hstart hparts => exact List.forall_mem_cons.mpr ⟨Scanner.isWordPart_of_isWordStart hstart, hparts⟩
  | digits _ hdigits => exact fun d hd => Scanner.isWordPart_of_isDigit (hdigits d hd)
  | mark m =>
      obtain ⟨d, text, hm, hd⟩ := m.exists_cons
      rw [hm, List.cons_prefix_cons] at hlonger
      simp [hlonger.1, hc] at hd

theorem Shape.isDigit {longer following : List Char} {c : Char} (h : Shape longer)
    (hlonger : longer <+: c :: following) (hc : c.isDigit) : ∀ d ∈ longer, d.isDigit := by
  cases h with
  | word hstart _ =>
      have hdigit := Scanner.isDigit_of_isWordStart hstart
      simp [(List.cons_prefix_cons.mp hlonger).1, hc] at hdigit
  | digits _ hdigits => exact hdigits
  | mark m =>
      obtain ⟨d, text, hm, hd⟩ := m.exists_cons
      rw [hm, List.cons_prefix_cons] at hlonger
      simp [hlonger.1, Scanner.isWordPart_of_isDigit hc] at hd

theorem Maximal.of_word {c : Char} {text rest : List Char} (hc : Scanner.isWordStart c)
    (htext : ∀ d ∈ text, Scanner.isWordPart d) (hrest : Stops Scanner.isWordPart rest) :
    Maximal rest (c :: text) where
  shape := .word hc htext
  length_le _ hlonger h :=
    hrest.length_le (hlonger.isWordPart h (Scanner.isWordPart_of_isWordStart hc)) h

theorem Maximal.of_digits {c : Char} {text rest : List Char} (htext : ∀ d ∈ c :: text, d.isDigit)
    (hrest : Stops Char.isDigit rest) : Maximal rest (c :: text) where
  shape := .digits (by simp) htext
  length_le _ hlonger h := hrest.length_le (hlonger.isDigit h (htext c List.mem_cons_self)) h

theorem Maximal.of_mark {m : Mark} {rest : List Char} (h : m.Longest rest) : Maximal rest m.spelling.toList where
  shape := .mark m
  length_le longer hlonger hprefix := by
    obtain ⟨c, text, hm, hc⟩ := m.exists_cons
    have hfirst : ∀ d ∈ longer.head?, d = c := by
      intro d hd
      obtain ⟨more, rfl⟩ := List.head?_eq_some_iff.mp hd
      rw [hm, List.cons_append, List.cons_prefix_cons] at hprefix
      exact hprefix.1
    cases hlonger with
    | word hstart _ => simp [← hfirst _ rfl, Scanner.isWordPart_of_isWordStart hstart] at hc
    | @digits _ hne hdigits =>
        obtain ⟨d, more, rfl⟩ := List.exists_cons_of_ne_nil hne
        simp [← hfirst d rfl, Scanner.isWordPart_of_isDigit (hdigits d List.mem_cons_self)] at hc
    | mark m' =>
        rw [String.length_toList, String.length_toList]
        exact h m' hprefix

/-- A character that would make the text longer does not follow it. -/
theorem Maximal.stops {p : Char → Bool} {text rest : List Char} (h : Maximal rest text)
    (hshape : ∀ c, p c → Shape (text ++ [c])) : Stops p rest := by
  intro c hc
  obtain ⟨more, rfl⟩ := List.head?_eq_some_iff.mp hc
  cases hp : p c with
  | false => rfl
  | true =>
      have hle := h.length_le (text ++ [c]) (hshape c hp) ⟨more, by simp⟩
      simp at hle

theorem Maximal.stops_word {c : Char} {text rest : List Char} (h : Maximal rest (c :: text))
    (hc : Scanner.isWordStart c) (htext : ∀ d ∈ text, Scanner.isWordPart d) : Stops Scanner.isWordPart rest :=
  h.stops fun _ hd => .word hc (List.forall_mem_append.mpr ⟨htext, by simpa using hd⟩)

theorem Maximal.stops_digits {text rest : List Char} (h : Maximal rest text)
    (htext : ∀ d ∈ text, d.isDigit) : Stops Char.isDigit rest :=
  h.stops fun _ hd => .digits (by simp) (List.forall_mem_append.mpr ⟨htext, by simpa using hd⟩)

theorem lexeme_iff {rest text : List Char} {t : Token} :
    Lexeme rest text t ↔ Maximal rest text ∧ Means text t := by
  constructor
  · intro h
    cases h with
    | @keyword k hrest =>
        obtain ⟨c, word, hk, hc, hword⟩ := Scanner.exists_of_spelling k
        exact ⟨hk ▸ .of_word hc hword hrest, .keyword k⟩
    | ident hc hword hne hrest => exact ⟨.of_word hc hword hrest, .ident hc hword hne⟩
    | number hdigits hvalue hrest => exact ⟨.of_digits hdigits hrest, .number (by simp) hdigits hvalue⟩
    | mark hm => exact ⟨.of_mark hm, .mark _⟩
  · rintro ⟨hmax, hmeans⟩
    cases hmeans with
    | keyword k =>
        obtain ⟨c, word, hk, hc, hword⟩ := Scanner.exists_of_spelling k
        exact .keyword ((hk ▸ hmax).stops_word hc hword)
    | ident hc hword hne => exact .ident hc hword hne (hmax.stops_word hc hword)
    | number hne hdigits hvalue =>
        obtain ⟨c, text, rfl⟩ := List.exists_cons_of_ne_nil hne
        exact .number hdigits hvalue (hmax.stops_digits hdigits)
    | mark m =>
        refine .mark fun m' hm' => ?_
        rw [← String.length_toList, ← String.length_toList]
        exact hmax.length_le _ (.mark m') hm'

/-! ## Refused texts -/

theorem Scanner.markToken_error {c : Char} {following : Option Char} {cause : LexError.Cause}
    (h : markToken c following = .error cause) :
    (c = ':' ∧ following ≠ some '=' ∧ cause = .loneColon) ∨
      ((∀ m : Mark, m.spelling.toList.head? ≠ some c) ∧ cause = .unexpectedCharacter c) := by
  unfold markToken at h
  split at h
  all_goals cases h
  · next hfollowing => exact .inl ⟨rfl, hfollowing, rfl⟩
  · refine .inr ⟨fun m heq => ?_, rfl⟩
    cases m <;> cases heq <;> contradiction

theorem Scanner.markToken_of_forall {c : Char} (h : ∀ m : Mark, m.spelling.toList.head? ≠ some c)
    (following : List Char) :
    markToken c following.head? = .error (.unexpectedCharacter c) := by
  cases hmark : markToken c following.head? with
  | ok taken =>
      obtain ⟨-, rest, hrest⟩ := exists_of_markToken hmark
      obtain ⟨d, text, hm, -⟩ := taken.1.exists_cons
      rw [hm] at hrest
      cases hrest
      exact absurd (congrArg List.head? hm) (h _)
  | error cause =>
      rcases markToken_error hmark with ⟨rfl, -, -⟩ | ⟨-, rfl⟩
      · exact absurd rfl (h .assign)
      · rfl

/-- The scanner refuses such a text for that cause, and it is no blank that it starts with. -/
theorem Refused.exists_cons {text : List Char} {cause : LexError.Cause} (h : Refused text cause) :
    ∃ c following n, text = c :: following ∧ Text.isBlank c = false ∧
      Scanner.lexeme c following = (.error cause, n) := by
  cases h with
  | @number digits rest hdigits hmax hvalue =>
      have hrest := hmax.stops_digits hdigits
      cases digits with
      | nil => simp [Decimal.value, Decimal.int64Bound] at hvalue
      | cons c digits =>
          have hc := Scanner.isWordPart_of_isDigit (hdigits c List.mem_cons_self)
          refine ⟨c, digits ++ rest, (c :: digits).length, rfl, Scanner.isBlank_of_isWordPart hc, ?_⟩
          rw [Scanner.lexeme_number hdigits hrest, Scanner.numberToken, if_neg (Nat.not_lt.mpr hvalue)]
  | @colon rest hrest =>
      have hmark : Scanner.markToken ':' rest.head? = .error .loneColon := by
        cases hhead : rest.head? with
        | none => rfl
        | some d => simp_all [Scanner.markToken]
      exact ⟨':', rest, 0, rfl, rfl, by simp [Scanner.lexeme, Scanner.isWordStart, hmark]⟩
  | @character c rest hblank hnone =>
      have hdigit : c.isDigit = false := by
        by_contra hc
        exact hnone [c] (.digits (by simp) (by simpa using hc)) rfl
      have hstart : Scanner.isWordStart c = false := by
        by_contra hc
        exact hnone [c] (.word (by simpa using hc) (by simp)) rfl
      have hmark := Scanner.markToken_of_forall (fun m => hnone _ (.mark m)) rest
      exact ⟨c, rest, 0, rfl, hblank, by simp [Scanner.lexeme, hdigit, hstart, hmark]⟩

theorem Refused.of_lexeme {c : Char} {following : List Char} {cause : LexError.Cause} {n : Nat}
    (hblank : Text.isBlank c = false) (h : Scanner.lexeme c following = (.error cause, n)) :
    Refused (c :: following) cause := by
  unfold Scanner.lexeme at h
  split at h
  · next hc =>
    have hdigits : ∀ d ∈ c :: following.takeWhile Char.isDigit, d.isDigit :=
      List.forall_mem_cons.mpr ⟨hc, List.all_eq_true.mp List.all_takeWhile⟩
    simp only [Scanner.numberToken, Prod.mk.injEq] at h
    split at h
    · simp at h
    · next hvalue =>
      simp only [Except.error.injEq] at h
      have hsplit : c :: following = (c :: following.takeWhile Char.isDigit) ++ following.dropWhile Char.isDigit := by
        simp
      rw [← h.1, hsplit]
      exact .number hdigits (.of_digits hdigits (stops_dropWhile _ _)) (Nat.not_lt.mp hvalue)
  · next hdigit =>
    split at h
    · simp at h
    · next hstart =>
      split at h
      · simp at h
      · next hmark =>
        simp only [Prod.mk.injEq, Except.error.injEq] at h
        rw [← h.1]
        rcases Scanner.markToken_error hmark with ⟨rfl, hhead, rfl⟩ | ⟨hnone, rfl⟩
        · exact .colon hhead
        · refine .character hblank fun text htext hhead => ?_
          cases htext with
          | word hc _ =>
              cases hhead
              exact hstart hc
          | digits _ hdigits => exact hdigit (hdigits c (List.mem_of_mem_head? hhead))
          | mark m => exact hnone m hhead

/-! ## One split -/

theorem Lexeme.stops {rest text : List Char} {t : Token} (h : Lexeme rest text t) :
    Stops Text.isBlank (text ++ rest) := by
  obtain ⟨c, following, heq, hc, -⟩ := h.exists_cons
  simp [heq, Stops, hc]

/-- What follows decides where a lexeme ends and what it means. -/
theorem Lexeme.append_inj {rest rest' text text' : List Char} {t t' : Token} (h : Lexeme rest text t)
    (h' : Lexeme rest' text' t') (heq : text ++ rest = text' ++ rest') : text = text' ∧ rest = rest' ∧ t = t' := by
  obtain ⟨c, following, hc, -, hl⟩ := h.exists_cons
  obtain ⟨c', following', hc', -, hl'⟩ := h'.exists_cons
  obtain ⟨rfl, rfl⟩ : c = c' ∧ following = following' := by simpa [hc, hc'] using heq
  simp only [hl, Prod.mk.injEq, Except.ok.injEq] at hl'
  obtain ⟨htext, hrest⟩ := List.append_inj heq hl'.2
  exact ⟨htext, hrest, hl'.1⟩

/-- A text that starts neither with a blank nor with a lexeme. -/
structure Stuck (rest : List Char) : Prop where
  stops : Stops Text.isBlank rest
  not_lexeme : ∀ text following t, rest = text ++ following → ¬ Lexeme following text t

theorem stuck_nil : Stuck [] where
  stops := by simp [Stops]
  not_lexeme text following t heq h := by
    obtain ⟨c, rest, hcons, -⟩ := h.exists_cons
    rw [← heq] at hcons
    cases hcons

theorem Refused.stuck {rest : List Char} {cause : LexError.Cause} (h : Refused rest cause) : Stuck rest := by
  obtain ⟨c, following, n, rfl, hc, hl⟩ := h.exists_cons
  refine ⟨by simp [Stops, hc], fun text more t heq hlexeme => ?_⟩
  obtain ⟨c', following', hcons, -, hl'⟩ := hlexeme.exists_cons
  obtain ⟨rfl, rfl⟩ : c = c' ∧ following = following' := by simpa [← heq] using hcons
  simp [hl] at hl'

theorem Refused.cause_eq {rest : List Char} {cause cause' : LexError.Cause} (h : Refused rest cause)
    (h' : Refused rest cause') : cause = cause' := by
  obtain ⟨c, following, n, rfl, -, hl⟩ := h.exists_cons
  obtain ⟨c', following', n', hcons, -, hl'⟩ := h'.exists_cons
  cases hcons
  simp only [hl, Prod.mk.injEq, Except.error.injEq] at hl'
  exact hl'.1

theorem Splits.unique {text last last' rest rest' : List Char} {pieces pieces' : List Piece}
    (h : Splits text pieces last rest) (hstuck : Stuck rest) (h' : Splits text pieces' last' rest')
    (hstuck' : Stuck rest') : pieces = pieces' ∧ last = last' ∧ rest = rest' := by
  induction h generalizing pieces' with
  | @nil last rest hlast =>
      generalize htext : last ++ rest = text at h'
      cases h' with
      | nil hlast' => exact ⟨rfl, Stops.append_inj hlast hlast' hstuck.stops hstuck'.stops htext⟩
      | cons hb hmax hmeans _ =>
          have hl := lexeme_iff.mpr ⟨hmax, hmeans⟩
          obtain ⟨-, hrest⟩ := Stops.append_inj hlast hb hstuck.stops hl.stops htext
          exact absurd hl (hstuck.not_lexeme _ _ _ hrest)
  | @cons blanks text following token pieces last rest hb hmax hmeans _ ih =>
      have hl := lexeme_iff.mpr ⟨hmax, hmeans⟩
      generalize htext : blanks ++ (text ++ following) = whole at h'
      cases h' with
      | nil hlast' =>
          obtain ⟨-, hrest⟩ := Stops.append_inj hb hlast' hl.stops hstuck'.stops htext
          exact absurd hl (hstuck'.not_lexeme _ _ _ hrest.symm)
      | cons hb' hmax' hmeans' hsplits' =>
          have hl' := lexeme_iff.mpr ⟨hmax', hmeans'⟩
          obtain ⟨rfl, hrest⟩ := Stops.append_inj hb hb' hl.stops hl'.stops htext
          obtain ⟨rfl, rfl, rfl⟩ := hl.append_inj hl' hrest
          obtain ⟨rfl, hend⟩ := ih hstuck hsplits'
          exact ⟨rfl, hend⟩

/-! ## The scanner splits its text -/

theorem Splits.spells {text last rest : List Char} {pieces : List Piece} (h : Splits text pieces last rest)
    (hrest : rest = []) (before : List Char) :
    Spells (.place before) text (Piece.tokens before pieces ++ [⟨.eof, .place (before ++ text)⟩]) := by
  induction h generalizing before with
  | @nil blanks rest hb =>
      subst hrest
      have hdone := Spells.done (p := .place before) hb
      simpa [Piece.tokens, ← Position.after_start] using hdone
  | @cons blanks text following token pieces last rest hb hmax hmeans _ ih =>
      have hl := lexeme_iff.mpr ⟨hmax, hmeans⟩
      have hfollowing := ih hrest (before ++ (blanks ++ text))
      have hcons := Spells.lexeme (p := .place before) hb hl (by simpa [← Position.after_start] using hfollowing)
      simpa [Piece.tokens, ← Position.after_start] using hcons

theorem Spells.splits {p : Position} {text : List Char} {tokens : List (Located Token)} (h : Spells p text tokens)
    (before : List Char) (hp : p = .place before) :
    ∃ pieces last, Splits text pieces last [] ∧
      tokens = Piece.tokens before pieces ++ [⟨.eof, .place (before ++ text)⟩] := by
  induction h generalizing before with
  | @done p blanks hb =>
      have hnil : Splits (blanks ++ []) [] blanks [] := .nil hb
      exact ⟨[], blanks, by simpa using hnil, by simp [Piece.tokens, hp, ← Position.after_start]⟩
  | @lexeme p blanks text following t tokens hb hl _ ih =>
      obtain ⟨hmax, hmeans⟩ := lexeme_iff.mp hl
      have hplace : (p.after blanks).after text = .place (before ++ (blanks ++ text)) := by
        simp [hp, ← Position.after_start]
      obtain ⟨pieces, last, hsplits, htokens⟩ := ih _ hplace
      refine ⟨⟨blanks, text, t⟩ :: pieces, last, .cons hb hmax hmeans hsplits, ?_⟩
      simp [Piece.tokens, htokens, hp, ← Position.after_start]

theorem Splits.of_tokenize {s s' : Scanner} {e : LexError} (h : s.tokenize = (.error e, s')) :
    ∃ pieces last rest, Splits s.rest pieces last rest ∧ Refused rest e.value ∧
      e.position = s.position.after (Piece.join pieces ++ last) := by
  fun_induction Scanner.tokenize s generalizing s' with
  | case1 s position hs => cases h
  | case2 s c following position hs cause length hl =>
      cases h
      obtain ⟨blanks, heq, hb, rfl⟩ := Scanner.exists_of_skipBlanks hs
      have hstops : Stops Text.isBlank (c :: following) := by
        simp only [Scanner.skipBlanks, Scanner.advance, drop_length_takeWhile, Scanner.mk.injEq] at hs
        exact hs.1 ▸ stops_dropWhile _ _
      exact ⟨[], blanks, _, heq ▸ .nil hb, .of_lexeme (hstops c rfl) hl, by simp [Piece.join]⟩
  | case3 s c following position hs token length hl tokens s₁ hrest ih => cases h
  | case4 s c following position hs token length hl e' s₁ hrest ih =>
      cases h
      obtain ⟨blanks, heq, hb, rfl⟩ := Scanner.exists_of_skipBlanks hs
      obtain ⟨hmax, hmeans⟩ := lexeme_iff.mp (Lexeme.of_lexeme hl)
      obtain ⟨pieces, last, rest, hsplits, hrefused, hposition⟩ := ih hrest
      have hcons := Splits.cons hb hmax hmeans hsplits
      rw [List.take_append_drop, ← heq] at hcons
      exact ⟨_, last, rest, hcons, hrefused, by simpa [Piece.join, Scanner.advance] using hposition⟩

theorem Splits.ne_eof {text last rest : List Char} {pieces : List Piece} (h : Splits text pieces last rest)
    (before : List Char) : ∀ t ∈ Piece.tokens before pieces, t.value ≠ .eof := by
  induction h generalizing before with
  | nil => simp [Piece.tokens]
  | cons _ _ hmeans _ ih =>
      refine List.forall_mem_cons.mpr ⟨?_, ih _⟩
      cases hmeans <;> simp

theorem Token.lex_eq_ok_iff_splits {source : String} {tokens : List (Located Token)} :
    Token.lex source = .ok tokens ↔ ∃ pieces last, Splits source.toList pieces last [] ∧
      tokens = Piece.tokens [] pieces ++ [⟨.eof, .place source.toList⟩] := by
  rw [Token.lex_eq_ok]
  constructor
  · intro h
    exact h.splits [] rfl
  · rintro ⟨pieces, last, hsplits, rfl⟩
    exact hsplits.spells rfl []

theorem Token.lex_eq_error_iff_splits {source : String} {e : LexError} :
    Token.lex source = .error e ↔ ∃ pieces last rest, Splits source.toList pieces last rest ∧
      Refused rest e.value ∧ e.position = .place (Piece.join pieces ++ last) := by
  have hfound : ∀ e', Token.lex source = .error e' → ∃ pieces last rest,
      Splits source.toList pieces last rest ∧ Refused rest e'.value ∧
        e'.position = .place (Piece.join pieces ++ last) := by
    intro e' h
    simp only [← Position.after_start]
    exact Splits.of_tokenize (Prod.ext h rfl)
  refine ⟨hfound e, ?_⟩
  rintro ⟨pieces, last, rest, hsplits, hrefused, hposition⟩
  -- Either outcome comes with a split of its own, which can only be the given one.
  cases hlex : Token.lex source with
  | ok tokens =>
      obtain ⟨pieces', last', hsplits', -⟩ := Token.lex_eq_ok_iff_splits.mp hlex
      obtain ⟨-, -, rfl⟩ := hsplits.unique hrefused.stuck hsplits' stuck_nil
      obtain ⟨c, following, n, hcons, -⟩ := hrefused.exists_cons
      cases hcons
  | error e' =>
      obtain ⟨pieces', last', rest', hsplits', hrefused', hposition'⟩ := hfound e' hlex
      obtain ⟨rfl, rfl, rfl⟩ := hsplits.unique hrefused.stuck hsplits' hrefused'.stuck
      obtain ⟨cause, position⟩ := e
      obtain ⟨cause', position'⟩ := e'
      obtain rfl : cause = cause' := hrefused.cause_eq hrefused'
      obtain rfl : position = position' := hposition.trans hposition'.symm
      rfl

/-- A source is read exactly if it splits into blanks and lexemes to its end. It does so in one way, and the
tokens are those of the lexemes and one mark of the end, each at its place. A source is refused exactly where
such a split comes to a text that starts with no lexeme. -/
theorem Token.lex_splits (source : String) :
    (∀ tokens, Token.lex source = .ok tokens ↔ ∃ pieces last, Splits source.toList pieces last [] ∧
      tokens = Piece.tokens [] pieces ++ [⟨.eof, .place source.toList⟩]) ∧
    (∀ tokens, Token.lex source = .ok tokens →
      (∃! split : List Piece × List Char, Splits source.toList split.1 split.2 []) ∧
        (tokens.map Located.value).count .eof = 1) ∧
    ∀ e, Token.lex source = .error e ↔ ∃ pieces last rest, Splits source.toList pieces last rest ∧
      Refused rest e.value ∧ e.position = .place (Piece.join pieces ++ last) := by
  refine ⟨fun _ => Token.lex_eq_ok_iff_splits, fun tokens h => ?_, fun _ => Token.lex_eq_error_iff_splits⟩
  obtain ⟨pieces, last, hsplits, rfl⟩ := Token.lex_eq_ok_iff_splits.mp h
  refine ⟨⟨(pieces, last), hsplits, ?_⟩, ?_⟩
  · rintro ⟨pieces', last'⟩ hsplits'
    obtain ⟨rfl, rfl, -⟩ := hsplits'.unique stuck_nil hsplits stuck_nil
    rfl
  · have hnone : ((Piece.tokens [] pieces).map Located.value).count .eof = 0 := by
      simpa [List.count_eq_zero] using hsplits.ne_eof []
    simp [hnone]

theorem Token.lex_splits_lines :
    (∃ tokens, Token.lex "do\n x1<=007 " = .ok tokens ∧
      (∃! split : List Piece × List Char, Splits "do\n x1<=007 ".toList split.1 split.2 []) ∧
        (tokens.map Located.value).count .eof = 1 ∧
          tokens.map Located.position = [⟨1, 1⟩, ⟨2, 2⟩, ⟨2, 4⟩, ⟨2, 6⟩, ⟨2, 10⟩]) ∧
    ∃ pieces last rest, Splits "a\n :=9223372036854775808;".toList pieces last rest ∧
      Refused rest (.numberOutOfRange "9223372036854775808".toList) ∧
        .place (Piece.join pieces ++ last) = (⟨2, 4⟩ : Position) := by
  have hok : Token.lex "do\n x1<=007 " = .ok [⟨.keyword .do, ⟨1, 1⟩⟩, ⟨.ident "x1", ⟨2, 2⟩⟩, ⟨.mark .ltEq, ⟨2, 4⟩⟩,
      ⟨.number 7, ⟨2, 6⟩⟩, ⟨.eof, ⟨2, 10⟩⟩] := by cbv
  have herror : Token.lex "a\n :=9223372036854775808;" =
      .error ⟨.numberOutOfRange "9223372036854775808".toList, ⟨2, 4⟩⟩ := by cbv
  obtain ⟨hunique, hcount⟩ := (Token.lex_splits _).2.1 _ hok
  obtain ⟨pieces, last, rest, hsplits, hrefused, hposition⟩ := ((Token.lex_splits _).2.2 _).mp herror
  exact ⟨⟨_, hok, hunique, hcount, rfl⟩, pieces, last, rest, hsplits, hrefused, hposition.symm⟩

end PLZero
