import Mathlib
import PLZero.Proofs.Lexing.Printing
import PLZero.Proofs.Lexing.Splitting
import PLZero.Tree.Outline

/-!
# Texts in outlines

A line of an outline is made of words, names and numbers. Names and numbers end where a character of another
kind follows, so a text that has them at fixed places tells which they are. The lines themselves are told
apart by their ends, and the depth of a line by the blanks before its text.
-/

namespace PLZero

/-- A symbol of which the name alone is known. -/
def Symbol.bare (x : Symbol) : Symbol := ⟨x.name, .const 0⟩

/-- A symbol without the id that a procedure has. -/
def Symbol.withoutId (x : Symbol) : Symbol :=
  match x.binding with
  | .proc level _ => ⟨x.name, .proc level 0⟩
  | _ => x

/-- The level of the block that declares a procedure. -/
def Binding.procedureLevel? : Binding → Option Nat
  | .proc level _ => some level
  | _ => none

/-! ## Names and numbers -/

theorem Token.Printable.append_inj {m n : String} (hm : (Token.ident m).Printable)
    (hn : (Token.ident n).Printable) {rest rest' : List Char} (hrest : Stops Scanner.isWordPart rest)
    (hrest' : Stops Scanner.isWordPart rest') (h : m.toList ++ rest = n.toList ++ rest') :
    m = n ∧ rest = rest' := by
  obtain ⟨hname, hrest⟩ := Stops.append_inj (fun c hc => Scanner.isWordPart_iff.mpr (hm.2.1 c hc))
    (fun c hc => Scanner.isWordPart_iff.mpr (hn.2.1 c hc)) hrest hrest' h
  exact ⟨String.toList_inj.mp hname, hrest⟩

theorem Token.Printable.unbroken {n : String} (h : (Token.ident n).Printable) : '\n' ∉ n.toList := by
  intro hmem
  exact absurd (h.2.1 _ hmem) (by decide)

theorem Decimal.unbroken_toDigits (n : Nat) : '\n' ∉ Nat.toDigits 10 n := not_mem_toDigits rfl n

theorem Decimal.unbroken_ofInt64 (v : Int64) : '\n' ∉ (ofInt64 v).toList := not_mem_ofInt rfl (by decide) v.toInt

namespace Outline

/-- What the line of a name says after the name. -/
def detail : Binding → String
  | .var level slot => s!" (level {level}, slot {slot})"
  | .const value => " = " ++ Decimal.ofInt64 value
  | .proc .. => ""

theorem nameText_eq (x : Symbol) : nameText x = x.binding.kind ++ " " ++ x.name ++ detail x.binding := by
  obtain ⟨name, binding⟩ := x
  cases binding with
  | var level slot => simp [nameText, detail, Binding.kind, ← String.toList_inj, toString]
  | const value => simp [nameText, detail, Binding.kind, ← String.toList_inj, toString]
  | proc level id => simp [nameText, detail, Binding.kind, toString]

theorem stops_detail (b : Binding) : Stops Scanner.isWordPart (detail b).toList := by
  cases b with
  | var level slot => simp [Stops, detail, toString, Scanner.isWordPart]
  | const value => simp [Stops, detail, Scanner.isWordPart]
  | proc level id => simp [Stops, detail]

theorem detail_inj {b b' : Binding} (hkind : b.kind = b'.kind) (hlevel : b.procedureLevel? = b'.procedureLevel?)
    (h : detail b = detail b') (name : String) : Symbol.withoutId ⟨name, b⟩ = Symbol.withoutId ⟨name, b'⟩ := by
  cases b with
  | var level slot =>
      cases b' with
      | var level' slot' =>
          obtain ⟨rfl, rfl⟩ := @Decimal.numerals_inj " (level ".toList " slot ".toList [] ',' ')' rfl rfl level slot
            level' slot' (by simpa [detail, ← String.toList_inj, toString] using h)
          rfl
      | _ => simp [Binding.kind] at hkind
  | const value =>
      cases b' with
      | const value' =>
          rw [detail, detail, String.append_right_inj] at h
          rw [Decimal.ofInt64_inj h]
      | _ => simp [Binding.kind] at hkind
  | proc level id =>
      cases b' with
      | proc level' id' =>
          cases hlevel
          rfl
      | _ => simp [Binding.kind] at hkind

theorem nameText_inj {x y : Symbol} (hx : (Token.ident x.name).Printable) (hy : (Token.ident y.name).Printable)
    (hlevel : x.name = y.name → x.binding.procedureLevel? = y.binding.procedureLevel?)
    (h : nameText x = nameText y) : x.withoutId = y.withoutId := by
  obtain ⟨m, b⟩ := x
  obtain ⟨n, b'⟩ := y
  rw [nameText_eq, nameText_eq, ← String.toList_inj] at h
  simp only [String.toList_append, List.append_assoc] at h
  have hblank (b : Binding) : ∀ c ∈ b.kind.toList, c ≠ ' ' := by cases b <;> simp [Binding.kind]
  obtain ⟨hkind, h⟩ := Stops.append_inj (p := (· ≠ ' ')) (by simpa using hblank b) (by simpa using hblank b')
    (by simp [Stops]) (by simp [Stops]) h
  obtain ⟨rfl, hdetail⟩ := hx.append_inj hy (stops_detail _) (stops_detail _) (List.append_cancel_left h)
  exact detail_inj (String.toList_inj.mp hkind) (hlevel rfl) (String.toList_inj.mp hdetail) m

theorem unbroken_nameText {x : Symbol} (hx : (Token.ident x.name).Printable) : '\n' ∉ (nameText x).toList := by
  obtain ⟨name, binding⟩ := x
  cases binding with
  | var level slot => simp [nameText, toString, hx.unbroken, Decimal.unbroken_toDigits]
  | const value => simp [nameText, toString, hx.unbroken, Decimal.unbroken_ofInt64]
  | proc level id => simp [nameText, toString, hx.unbroken]

/-! ## Lists of names -/

section

variable {separator : List Char} (hne : separator ≠ []) (hsep : Stops Scanner.isWordPart separator)

theorem intercalate_cons (separator m : List Char) (ms : List (List Char)) :
    separator.intercalate (m :: ms) = m ++ ms.flatMap (separator ++ ·) := by
  induction ms generalizing m with
  | nil => simp
  | cons m' ms ih => rw [List.intercalate_cons_cons, ih]; simp

include hne hsep

theorem stops_flatMap (ms : List (List Char)) :
    Stops Scanner.isWordPart (ms.flatMap (separator ++ ·)) := by
  cases ms with
  | nil => simp [Stops]
  | cons m ms =>
      cases separator with
      | nil => exact absurd rfl hne
      | cons c separator => exact hsep

theorem flatMap_inj {ms ns : List String} (hms : ∀ m ∈ ms, (Token.ident m).Printable)
    (hns : ∀ n ∈ ns, (Token.ident n).Printable)
    (h : (ms.map String.toList).flatMap (separator ++ ·) = (ns.map String.toList).flatMap (separator ++ ·)) :
    ms = ns := by
  induction ms generalizing ns with
  | nil =>
      cases ns with
      | nil => rfl
      | cons n ns => simp [hne] at h
  | cons m ms ih =>
      cases ns with
      | nil => simp [hne] at h
      | cons n ns =>
          obtain ⟨hm, hms'⟩ := List.forall_mem_cons.mp hms
          obtain ⟨hn, hns'⟩ := List.forall_mem_cons.mp hns
          simp only [List.map_cons, List.flatMap_cons, List.append_assoc, List.append_cancel_left_eq] at h
          obtain ⟨rfl, hrest⟩ := hm.append_inj hn (stops_flatMap hne hsep _) (stops_flatMap hne hsep _) h
          rw [ih hms' hns' hrest]

theorem intercalate_inj {ms ns : List String} (hms : ∀ m ∈ ms, (Token.ident m).Printable)
    (hns : ∀ n ∈ ns, (Token.ident n).Printable)
    (h : separator.intercalate (ms.map String.toList) = separator.intercalate (ns.map String.toList)) :
    ms = ns := by
  cases ms with
  | nil =>
      cases ns with
      | nil => rfl
      | cons n ns => simp [intercalate_cons, (hns n List.mem_cons_self).1] at h
  | cons m ms =>
      cases ns with
      | nil => simp [intercalate_cons, (hms m List.mem_cons_self).1] at h
      | cons n ns =>
          refine flatMap_inj hne hsep hms hns ?_
          simp only [List.map_cons, intercalate_cons] at h
          simp only [List.map_cons, List.flatMap_cons, List.append_assoc, h]

end

theorem names_inj {separator : String} (hne : separator ≠ "") (hsep : Stops Scanner.isWordPart separator.toList)
    {xs ys : List Symbol} (hxs : ∀ x ∈ xs, (Token.ident x.name).Printable)
    (hys : ∀ y ∈ ys, (Token.ident y.name).Printable) (h : names separator xs = names separator ys) :
    xs.map Symbol.bare = ys.map Symbol.bare := by
  have hnames : xs.map Symbol.name = ys.map Symbol.name := by
    refine intercalate_inj (by simpa using hne) hsep (by simpa using hxs) (by simpa using hys) ?_
    simpa [names, ← String.toList_inj] using h
  have hbare (zs : List Symbol) : zs.map Symbol.bare = (zs.map Symbol.name).map fun n => ⟨n, .const 0⟩ := by
    simp [Symbol.bare, Function.comp_def]
  rw [hbare, hnames, ← hbare]

theorem unbroken_names {separator : String} (hsep : '\n' ∉ separator.toList) {xs : List Symbol}
    (hxs : ∀ x ∈ xs, (Token.ident x.name).Printable) : '\n' ∉ (names separator xs).toList := by
  have hunbroken : ∀ x ∈ xs, '\n' ∉ x.name.toList := fun x hx => (hxs x hx).unbroken
  cases xs with
  | nil => simp [names]
  | cons x xs => simpa [names, intercalate_cons, hsep] using hunbroken

/-! ## Lines -/

/-- A line that is one line, and whose depth the blanks before its text tell. -/
structure Line.Plain (l : Line) : Prop where
  unbroken : '\n' ∉ l.text.toList
  stops : Stops (· == ' ') l.text.toList

theorem plain_word (d : Nat) {word : String} (h : word.toList.all Char.isAlpha) : Line.Plain ⟨d, word⟩ := by
  rw [List.all_eq_true] at h
  refine ⟨fun hmem => absurd (h _ hmem) (by decide), fun c hc => ?_⟩
  rw [beq_eq_false_iff_ne]
  rintro rfl
  exact absurd (h _ (List.mem_of_mem_head? hc)) (by decide)

theorem toList_pushn (s : String) (c : Char) (n : Nat) : (s.pushn c n).toList = s.toList ++ List.replicate n c := by
  unfold String.pushn
  induction n with
  | zero => simp [Nat.repeat]
  | succ n ih => simp [Nat.repeat, ih, List.replicate_succ']

/-- A line without its end. -/
def Line.chars (l : Line) : List Char := List.replicate (2 * l.depth) ' ' ++ l.text.toList

theorem toList_render (l : Line) : l.render.toList = l.chars ++ ['\n'] := by
  simp [Line.render, Line.chars, toList_pushn]

theorem chars_inj {l l' : Line} (h : l.Plain) (h' : l'.Plain) (heq : l.chars = l'.chars) : l = l' := by
  obtain ⟨d, text⟩ := l
  obtain ⟨d', text'⟩ := l'
  obtain ⟨hblanks, htext⟩ := Stops.append_inj (by simp) (by simp) h.stops h'.stops heq
  have hdepth := congrArg List.length hblanks
  simp only [List.length_replicate] at hdepth
  obtain rfl : d = d' := by omega
  exact congrArg (Line.mk d) (String.toList_inj.mp htext)

theorem toList_render_cons (l : Line) (ls : List Line) :
    (render (l :: ls)).toList = l.chars ++ '\n' :: (render ls).toList := by
  simp [render, toList_render]

/-- A text falls into its lines in one way. -/
theorem render_inj {ls ls' : List Line} (h : ∀ l ∈ ls, l.Plain) (h' : ∀ l ∈ ls', l.Plain)
    (heq : render ls = render ls') : ls = ls' := by
  rw [← String.toList_inj] at heq
  have hline {l : Line} (hl : l.Plain) : ∀ c ∈ l.chars, decide (c ≠ '\n') := by
    intro c hc
    simp only [Line.chars, List.mem_append] at hc
    rcases hc with hc | hc
    · simp [List.eq_of_mem_replicate hc]
    · exact decide_eq_true fun heq => hl.unbroken (heq ▸ hc)
  have hnil : (render []).toList = [] := rfl
  induction ls generalizing ls' with
  | nil =>
      cases ls' with
      | nil => rfl
      | cons l' ls' => simp [toList_render_cons, hnil] at heq
  | cons l ls ih =>
      cases ls' with
      | nil => simp [toList_render_cons, hnil] at heq
      | cons l' ls' =>
          obtain ⟨hl, hls⟩ := List.forall_mem_cons.mp h
          obtain ⟨hl', hls'⟩ := List.forall_mem_cons.mp h'
          rw [toList_render_cons, toList_render_cons] at heq
          obtain ⟨hchars, hrest⟩ :=
            Stops.append_inj (hline hl) (hline hl') (by simp [Stops]) (by simp [Stops]) heq
          rw [chars_inj hl hl' hchars, ih hls hls' (List.cons.inj hrest).2]

end Outline

end PLZero
