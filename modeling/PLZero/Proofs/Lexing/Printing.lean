import Mathlib
import PLZero.Proofs.Numerals
import PLZero.Proofs.Operand

/-!
# Printed tokens

Tokens whose texts stand one after the other, with blanks between them, are read back as they are. What
the scanner reads from any text can be printed so.
-/

namespace PLZero

/-- A name that is no keyword, or a number without a sign; the other tokens have a fixed spelling, and
the end of the source has none. -/
def Token.Printable : Token → Prop
  | .number value => 0 ≤ value
  | .ident name => name ≠ "" ∧ (∀ c ∈ name.toList, c.isAlphanum ∨ c = '_') ∧ Stops Char.isDigit name.toList ∧
      ∀ k : Keyword, k.spelling ≠ name
  | .keyword _ | .mark _ => True
  | .eof => False

/-- The texts of tokens with blanks between them. -/
def Token.print : List String → List Token → String
  | _, [] => ""
  | _, [t] => t.text
  | [], t :: rest => t.text ++ print [] rest
  | blanks :: more, t :: rest => t.text ++ blanks ++ print more rest

/-- Enough blanks to stand between so many tokens, and none of them empty. -/
structure Separates (blanks : List String) (tokens : List Token) : Prop where
  length_le : tokens.length ≤ blanks.length + 1
  ne_empty : ∀ b ∈ blanks, b ≠ ""
  blank : ∀ b ∈ blanks, ∀ c ∈ b.toList, Text.isBlank c

/-! ## Printed tokens are lexemes -/

theorem Stops.isWordPart {rest : List Char} (h : ∀ c ∈ rest.head?, Text.isBlank c) :
    Stops Scanner.isWordPart rest := by
  intro c hc
  cases hpart : Scanner.isWordPart c with
  | false => rfl
  | true =>
      have hblank := Scanner.isBlank_of_isWordPart hpart
      simp [h c hc] at hblank

theorem Stops.isDigit {rest : List Char} (h : ∀ c ∈ rest.head?, Text.isBlank c) :
    Stops Char.isDigit rest := by
  intro c hc
  cases hdigit : c.isDigit with
  | false => rfl
  | true =>
      have hpart := Stops.isWordPart h c hc
      simp [Scanner.isWordPart_of_isDigit hdigit] at hpart

theorem Mark.isBlank_spelling (m : Mark) : ∀ c ∈ m.spelling.toList, Text.isBlank c = false := by
  cases m <;> simp [Mark.spelling, Text.isBlank_eq_false]

/-- A longer mark would have a blank in it. -/
theorem Mark.longest_of_blank (m : Mark) {rest : List Char} (h : ∀ c ∈ rest.head?, Text.isBlank c) :
    m.Longest rest := by
  intro m' hm'
  by_contra hlt
  simp only [← String.length_toList, Nat.not_le] at hlt
  have hlast := hm'.getElem hlt
  rw [List.getElem_append_right (Nat.le_refl _)] at hlast
  have hblank := m'.isBlank_spelling _ (List.getElem_mem hlt)
  rw [hlast, h _ (by simp [List.head?_eq_getElem?])] at hblank
  cases hblank

theorem Scanner.isWordPart_iff {c : Char} : isWordPart c ↔ c.isAlphanum ∨ c = '_' := by
  simp [isWordPart]

theorem Scanner.isWordStart_of_not_isDigit {c : Char} (h : isWordPart c) (hdigit : c.isDigit = false) :
    isWordStart c := by
  simpa [isWordPart, isWordStart, Char.isAlphanum, hdigit] using h

/-- Before a blank, or at the end, the text of a token is a lexeme of it. -/
theorem Token.Printable.lexeme {t : Token} (ht : t.Printable) {rest : List Char}
    (hrest : ∀ c ∈ rest.head?, Text.isBlank c) : Lexeme rest t.text.toList t := by
  cases t with
  | number v =>
      have hv : ((v.toInt.toNat : Nat) : Int) = v.toInt := Int.toNat_of_nonneg (Int64.le_iff_toInt_le.mp ht)
      have hlt := v.toInt_lt
      have hdigits := Decimal.toList_ofInt64 ht
      have hvalue := Decimal.value_toDigits v.toInt.toNat
      have hall : ∀ d ∈ Nat.toDigits 10 v.toInt.toNat, d.isDigit := fun d => Decimal.isDigit_of_mem_toDigits
      have hne : Nat.toDigits 10 v.toInt.toNat ≠ [] := Nat.toDigits_ne_nil
      rw [Token.text, hdigits]
      generalize Nat.toDigits 10 v.toInt.toNat = digits at hvalue hall hne
      cases digits with
      | nil => exact absurd rfl hne
      | cons c digits =>
          have hword := Lexeme.number hall (by rw [hvalue, Decimal.int64Bound]; omega) (Stops.isDigit hrest)
          rwa [hvalue, Operand.ofNat_toNat (Int64.not_lt.mpr ht)] at hword
  | ident name =>
      obtain ⟨hne, hparts, hstart, hkeyword⟩ := ht
      obtain ⟨word, rfl⟩ : ∃ word, name = String.ofList word := ⟨name.toList, by simp⟩
      simp only [String.toList_ofList, ← Scanner.isWordPart_iff] at hparts hstart
      cases word with
      | nil => simp at hne
      | cons c word =>
          obtain ⟨hc, hword⟩ := List.forall_mem_cons.mp hparts
          have hident := Lexeme.ident (Scanner.isWordStart_of_not_isDigit hc (hstart c rfl)) hword hkeyword
            (Stops.isWordPart hrest)
          simpa [Token.text] using hident
  | keyword k => exact .keyword (Stops.isWordPart hrest)
  | mark m => exact .mark (m.longest_of_blank hrest)
  | eof => exact ht.elim

/-! ## Lexemes can be printed -/

theorem Lexeme.printable {rest text : List Char} {t : Token} (h : Lexeme rest text t) : t.Printable := by
  cases h with
  | keyword | mark => trivial
  | @ident c word hc hword hne _ =>
      refine ⟨by simp [← String.toList_inj], ?_, ?_, hne⟩
      · simp only [String.toList_ofList, ← Scanner.isWordPart_iff]
        exact List.forall_mem_cons.mpr ⟨Scanner.isWordPart_of_isWordStart hc, hword⟩
      · simpa [Stops] using Scanner.isDigit_of_isWordStart hc
  | number _ hvalue _ => exact Int64.not_lt.mp (Operand.not_ofNat_lt_zero hvalue)

theorem Spells.printable {p : Position} {text : List Char} {located : List (Located Token)}
    (h : Spells p text located) :
    ∃ tokens, located.map Located.value = tokens ++ [.eof] ∧ ∀ t ∈ tokens, t.Printable := by
  induction h with
  | done _ => exact ⟨[], rfl, by simp⟩
  | @lexeme _ _ _ _ t _ _ hl _ ih =>
      obtain ⟨tokens, heq, htokens⟩ := ih
      exact ⟨t :: tokens, by simp [heq], List.forall_mem_cons.mpr ⟨hl.printable, htokens⟩⟩

/-! ## Texts -/

/-- Blanks in front do not change what is read after them. -/
theorem Spells.blanks_append {blanks text : List Char} (hblanks : ∀ c ∈ blanks, Text.isBlank c) {p : Position}
    {located : List (Located Token)} (h : Spells (p.after blanks) text located) :
    Spells p (blanks ++ text) located := by
  cases h with
  | @done _ more hmore =>
      rw [← Position.after_append]
      exact .done (List.forall_mem_append.mpr ⟨hblanks, hmore⟩)
  | @lexeme _ more text rest t tokens hmore hl hrest =>
      rw [← Position.after_append, ← List.append_assoc]
      rw [← Position.after_append p] at hrest
      exact .lexeme (List.forall_mem_append.mpr ⟨hblanks, hmore⟩) hl hrest

theorem Spells.nil (p : Position) : Spells p [] [⟨.eof, p⟩] := .done (by simp)

theorem Spells.cons {text rest : List Char} {t : Token} (hl : Lexeme rest text t) {p : Position}
    {located : List (Located Token)} (h : Spells (p.after text) rest located) :
    Spells p (text ++ rest) (⟨t, p⟩ :: located) := by
  have hblanks : ∀ c ∈ ([] : List Char), Text.isBlank c := by simp
  exact .lexeme hblanks hl h

theorem Spells.print {tokens : List Token} (htokens : ∀ t ∈ tokens, t.Printable) {blanks : List String}
    (hblanks : Separates blanks tokens) (p : Position) :
    ∃ located, Spells p (Token.print blanks tokens).toList located ∧
      located.map Located.value = tokens ++ [.eof] := by
  induction tokens generalizing blanks p with
  | nil => exact ⟨_, .nil p, rfl⟩
  | cons t rest ih =>
      obtain ⟨ht, hrest⟩ := List.forall_mem_cons.mp htokens
      cases rest with
      | nil =>
          have hl : Lexeme [] t.text.toList t := ht.lexeme (by simp)
          exact ⟨_, by simpa [Token.print] using Spells.cons hl (.nil (p.after t.text.toList)), rfl⟩
      | cons t' rest =>
          cases blanks with
          | nil => simpa using hblanks.length_le
          | cons b blanks =>
              obtain ⟨hb, hmore⟩ := List.forall_mem_cons.mp hblanks.blank
              obtain ⟨hne, hmore'⟩ := List.forall_mem_cons.mp hblanks.ne_empty
              obtain ⟨located, hspells, hvalues⟩ := ih hrest ⟨by simpa using hblanks.length_le, hmore', hmore⟩
                ((p.after t.text.toList).after b.toList)
              have hhead : ∀ c ∈ (b.toList ++ (Token.print blanks (t' :: rest)).toList).head?, Text.isBlank c := by
                cases htext : b.toList with
                | nil => simp [← String.toList_inj, htext] at hne
                | cons c text => simpa using hb c (by simp [htext])
              have htext := Spells.cons (ht.lexeme hhead) (hspells.blanks_append hb)
              exact ⟨_, by simpa [Token.print] using htext, by simp [hvalues]⟩

/-- Printed tokens are read back, whatever the blanks between them. Every source that can be read consists
of tokens that can be printed, so it is read the same way after printing. -/
theorem Token.lex_print :
    (∀ tokens blanks, (∀ t ∈ tokens, t.Printable) → Separates blanks tokens →
      ∃ located, Token.lex (Token.print blanks tokens) = .ok located ∧
        located.map Located.value = tokens ++ [.eof]) ∧
    ∀ source located, Token.lex source = .ok located →
      ∃ tokens, located.map Located.value = tokens ++ [.eof] ∧ (∀ t ∈ tokens, t.Printable) ∧
        ∀ blanks, Separates blanks tokens → ∃ located',
          Token.lex (Token.print blanks tokens) = .ok located' ∧
            located'.map Located.value = located.map Located.value := by
  have hprint : ∀ tokens blanks, (∀ t ∈ tokens, t.Printable) → Separates blanks tokens →
      ∃ located, Token.lex (Token.print blanks tokens) = .ok located ∧
        located.map Located.value = tokens ++ [.eof] := by
    intro tokens blanks htokens hblanks
    obtain ⟨located, hspells, hvalues⟩ := Spells.print htokens hblanks .start
    exact ⟨located, Token.lex_eq_ok.mpr hspells, hvalues⟩
  refine ⟨hprint, fun source located hlex => ?_⟩
  obtain ⟨tokens, hvalues, htokens⟩ := (Token.lex_eq_ok.mp hlex).printable
  refine ⟨tokens, hvalues, htokens, fun blanks hblanks => ?_⟩
  rw [hvalues]
  exact hprint tokens blanks htokens hblanks

namespace Extremes

/-- The greatest number, a name of all kinds of characters, and marks that could run together. -/
def tokens : List Token := [.keyword .odd, .ident "_x1Y", .mark .lt, .mark .eq, .number Int64.maxValue]

/-- A newline and an ideographic space count as blanks. -/
def blanks : List String := ["\n", " \t", "\u3000", " "]

def source : String := "if x<=007then"

end Extremes

theorem Token.lex_print_extremes :
    (∀ t ∈ Extremes.tokens, t.Printable) ∧ Separates Extremes.blanks Extremes.tokens ∧
      (∃ located, Token.lex (Token.print Extremes.blanks Extremes.tokens) = .ok located ∧
        located.map Located.value = Extremes.tokens ++ [.eof]) ∧
      ∃ located located', Token.lex Extremes.source = .ok located ∧
        Token.lex "if x <= 7 then" = .ok located' ∧
        located'.map Located.value = located.map Located.value := by
  have htokens : ∀ t ∈ Extremes.tokens, t.Printable := by
    simp only [Extremes.tokens, List.forall_mem_cons]
    refine ⟨trivial, ⟨by decide, ?_, by simp [Stops], ?_⟩, trivial, trivial, by simp [Token.Printable], by simp⟩
    · simp [Char.isAlphanum, Char.isAlpha, Char.isUpper, Char.isLower]
    · rintro (_ | _) <;> decide
  have hblanks : Separates Extremes.blanks Extremes.tokens :=
    ⟨by decide, by decide, by simp [Extremes.blanks, Text.isBlank, Text.blankRanges]⟩
  refine ⟨htokens, hblanks, Token.lex_print.1 _ _ htokens hblanks, ?_⟩
  have hlex : Token.lex Extremes.source = .ok [⟨.keyword .if, ⟨1, 1⟩⟩, ⟨.ident "x", ⟨1, 4⟩⟩, ⟨.mark .ltEq, ⟨1, 5⟩⟩,
      ⟨.number 7, ⟨1, 7⟩⟩, ⟨.keyword .then, ⟨1, 10⟩⟩, ⟨.eof, ⟨1, 14⟩⟩] := by cbv
  obtain ⟨tokens, hvalues, -, hagain⟩ := Token.lex_print.2 _ _ hlex
  obtain rfl : tokens = [.keyword .if, .ident "x", .mark .ltEq, .number 7, .keyword .then] :=
    (List.append_cancel_right hvalues).symm
  obtain ⟨located', hprint, hsame⟩ := hagain [" ", " ", " ", " "]
    ⟨by decide, by decide, by simp [Text.isBlank, Text.blankRanges]⟩
  exact ⟨_, located', hlex, hprint, hsame⟩

end PLZero
