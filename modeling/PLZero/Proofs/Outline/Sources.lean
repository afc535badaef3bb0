import Mathlib
import PLZero.Proofs.Compiled
import PLZero.Proofs.Misuse
import PLZero.Proofs.Outline

/-!
# Outlines of sources

A block shows its declarations before its body, so whoever reads an outline knows the names around a
statement and which of them are procedures. With that, two sources have the same outline only if their
trees are the same up to what an outline leaves out.
-/

namespace PLZero

open Grammar
open List (Forall₂)

namespace Outline

/-! ## Scopes -/

/-- What an outline tells of a declared symbol. -/
def sketch (x : Symbol) : String × Option Nat := (x.name, x.binding.procedureLevel?)

/-- Two scopes, of two programs, that an outline cannot tell apart. -/
structure Agree (scope scope' : List Symbol) : Prop where
  sketch_eq : scope.map sketch = scope'.map sketch
  nodup : (scope.map Symbol.name).Nodup
  printable : ∀ n ∈ scope.map Symbol.name, (Token.ident n).Printable

namespace Agree

variable {scope scope' : List Symbol}

theorem names_eq (h : Agree scope scope') : scope.map Symbol.name = scope'.map Symbol.name := by
  have hfst := congrArg (List.map Prod.fst) h.sketch_eq
  simpa [sketch, Function.comp_def] using hfst

theorem symm (h : Agree scope scope') : Agree scope' scope where
  sketch_eq := h.sketch_eq.symm
  nodup := h.names_eq ▸ h.nodup
  printable := h.names_eq ▸ h.printable

theorem level_eq (h : Agree scope scope') {x y : Symbol} (hx : x ∈ scope) (hy : y ∈ scope')
    (hname : x.name = y.name) : x.binding.procedureLevel? = y.binding.procedureLevel? := by
  have hmem : sketch x ∈ scope'.map sketch := h.sketch_eq ▸ List.mem_map_of_mem hx
  obtain ⟨z, hz, heq⟩ := List.mem_map.mp hmem
  obtain ⟨hzname, hlevel⟩ := Prod.ext_iff.mp heq
  have hzy : z = y := List.inj_on_of_nodup_map h.symm.nodup hz hy (hzname.trans hname)
  rw [← hzy]
  exact hlevel.symm

theorem undeclared (h : Agree scope scope') {n : String} (hn : Undeclared scope n) : Undeclared scope' n := by
  have hnames : n ∉ scope.map Symbol.name := by simpa [Undeclared] using hn
  rw [h.names_eq] at hnames
  simpa [Undeclared] using hnames

/-- A procedure that both scopes declare, with whatever id. -/
theorem declare (h : Agree scope scope') {name : String} (hnew : Undeclared scope name)
    (hname : (Token.ident name).Printable) (level n n' : Nat) :
    Agree (scope ++ [⟨name, .proc level n⟩]) (scope' ++ [⟨name, .proc level n'⟩]) where
  sketch_eq := by simp [h.sketch_eq, sketch, Binding.procedureLevel?]
  nodup := by
    rw [List.map_append, List.map_singleton, ← List.concat_eq_append]
    exact h.nodup.concat (by simpa [Undeclared] using hnew)
  printable := by
    rw [List.map_append, List.forall_mem_append, List.map_singleton, List.forall_mem_singleton]
    exact ⟨h.printable, hname⟩

end Agree

theorem denotes_cons {scope : List Symbol} {Γ : Context} {n : String} {x : Symbol} :
    Denotes (scope :: Γ) n x ↔ (x ∈ scope ∧ x.name = n) ∨ (Undeclared scope n ∧ Denotes Γ n x) := by
  constructor
  · rintro ⟨inner, s, outer, heq, hx, hname, hinner⟩
    cases inner with
    | nil =>
        cases heq
        exact .inl ⟨hx, hname⟩
    | cons s' inner =>
        cases heq
        obtain ⟨hs', hinner⟩ := List.forall_mem_cons.mp hinner
        exact .inr ⟨hs', inner, s, outer, rfl, hx, hname, hinner⟩
  · rintro (⟨hx, hname⟩ | ⟨hnew, inner, s, outer, rfl, hx, hname, hinner⟩)
    · exact ⟨[], scope, Γ, rfl, hx, hname, by simp⟩
    · exact ⟨scope :: inner, s, outer, rfl, hx, hname, List.forall_mem_cons.mpr ⟨hnew, hinner⟩⟩

section

variable {Γ Γ' : Context}

theorem printable_of_denotes (hΓ : Forall₂ Agree Γ Γ') {n : String} {x : Symbol} (hx : Denotes Γ n x) :
    (Token.ident x.name).Printable := by
  induction hΓ with
  | nil => simp [Denotes] at hx
  | cons hscope _ ih =>
      rcases denotes_cons.mp hx with ⟨hmem, -⟩ | ⟨-, hx⟩
      · exact hscope.printable _ (List.mem_map_of_mem hmem)
      · exact ih hx

theorem level_eq_of_denotes (hΓ : Forall₂ Agree Γ Γ') {n : String} {x y : Symbol} (hx : Denotes Γ n x)
    (hy : Denotes Γ' n y) : x.binding.procedureLevel? = y.binding.procedureLevel? := by
  induction hΓ with
  | nil => simp [Denotes] at hx
  | cons hscope _ ih =>
      rcases denotes_cons.mp hx with ⟨hmem, hname⟩ | ⟨hnew, hx⟩
      · rcases denotes_cons.mp hy with ⟨hmem', hname'⟩ | ⟨hnew', -⟩
        · exact hscope.level_eq hmem hmem' (hname.trans hname'.symm)
        · exact absurd hname (hscope.symm.undeclared hnew' x hmem)
      · rcases denotes_cons.mp hy with ⟨hmem', hname'⟩ | ⟨-, hy⟩
        · exact absurd hname' (hscope.undeclared hnew y hmem')
        · exact ih hx hy

theorem corresponds (hΓ : Forall₂ Agree Γ Γ') :
    Corresponds (fun _ x => Denotes Γ x.name x) fun _ y => Denotes Γ' y.name y where
  printable hx := printable_of_denotes hΓ hx
  printable' hy := printable_of_denotes (Forall₂.flip (hΓ.imp fun _ _ h => h.symm)) hy
  level_eq hx hy hname := level_eq_of_denotes hΓ hx (hname ▸ hy)

theorem uses_denotes {w : Word} {s : Stmt} (h : Statement Γ w s) : s.Uses fun _ x => Denotes Γ x.name x :=
  h.uses fun _ _ _ hx => hx.name_eq.symm ▸ hx

end

/-! ## Declarations -/

/-- Every name of a word is spelled as one. -/
def Named (w : Word) : Prop := ∀ n p, ⟨.ident n, p⟩ ∈ w → (Token.ident n).Printable

theorem named_append {v w : Word} : Named (v ++ w) ↔ Named v ∧ Named w := by
  simp only [Named, List.mem_append, or_imp, forall_and]

theorem named_cons {t : Token} {p : Position} {w : Word} :
    Named (⟨t, p⟩ :: w) ↔ (∀ n, t = .ident n → (Token.ident n).Printable) ∧ Named w := by
  simp only [Named, List.mem_cons, or_imp, forall_and, Located.mk.injEq, and_imp]
  exact and_congr_left fun _ => ⟨fun h n hn => h n p hn.symm rfl, fun h n q hn _ => h n hn.symm⟩

theorem printable_of_separated {α : Type} {Item : Word → α → Prop} (name : α → String)
    (hitem : ∀ v a, Item v a → Named v → (Token.ident (name a)).Printable) {m : Mark} {w : Word} {as : List α}
    (h : Separated m Item w as) (hw : Named w) : ∀ a ∈ as, (Token.ident (name a)).Printable := by
  induction h with
  | one h => simpa using hitem _ _ h hw
  | more h _ ih =>
      rw [named_append, named_cons] at hw
      exact List.forall_mem_cons.mpr ⟨hitem _ _ h hw.1, ih hw.2.2⟩

theorem printable_of_declarations {α : Type} {Item : Word → α → Prop} (name : α → String)
    (hitem : ∀ v a, Item v a → Named v → (Token.ident (name a)).Printable) {k : Keyword} {w : Word} {as : List α}
    (h : Declarations k Item w as) (hw : Named w) : ∀ a ∈ as, (Token.ident (name a)).Printable := by
  cases h with
  | none => simp
  | some h =>
      rw [List.cons_append, named_cons, named_append] at hw
      exact printable_of_separated name hitem h hw.2.1

theorem printable_of_constant {w : Word} {x : Symbol} (h : Constant w x) (hw : Named w) :
    (Token.ident x.name).Printable := by
  cases h with
  | mk => exact hw _ _ List.mem_cons_self

theorem printable_of_name {w : Word} {n : String} (h : Name w n) (hw : Named w) : (Token.ident n).Printable := by
  cases h with
  | mk => exact hw _ _ List.mem_cons_self

theorem level_of_constant {k : Keyword} {w : Word} {cs : List Symbol} (h : Declarations k Constant w cs) :
    ∀ x ∈ cs, x.binding.procedureLevel? = none := by
  intro x hx
  obtain ⟨v, hv⟩ := isConst_of_mem h x hx
  rw [hv]
  rfl

theorem level_of_slots {level slot : Nat} {names : List String} :
    ∀ x ∈ slots level slot names, x.binding.procedureLevel? = none := by
  intro x hx
  obtain ⟨i, hi, -⟩ := slot_of_mem hx
  rw [hi]
  rfl

theorem map_name_slots (level slot : Nat) (names : List String) : (slots level slot names).map Symbol.name = names := by
  induction names generalizing slot with
  | nil => rfl
  | cons n names ih => simp [slots, ih]

theorem printable_slots {level slot : Nat} {names : List String} (h : ∀ n ∈ names, (Token.ident n).Printable) :
    ∀ x ∈ slots level slot names, (Token.ident x.name).Printable := by
  intro x hx
  have hname := List.mem_map_of_mem (f := Symbol.name) hx
  rw [map_name_slots] at hname
  exact h _ hname

/-- The words that statements begin with. -/
def stmtWords : List String := ["assign", "read", "write", "call", "if", "while", "begin", "return"]

/-- The lines begin at the given depth, with one of the words. -/
def Starts (d : Nat) (words : List String) (lines : List Line) : Prop := ∃ word ∈ words, Begins d word lines

namespace Starts

variable {d : Nat} {words : List String} {lines : List Line}

theorem below (h : Starts d words lines) : Below (d + 1) lines := by
  obtain ⟨word, -, hbegins⟩ := h
  exact hbegins.below

theorem ne_append (h : Starts d words lines) {word : String} {lines' : List Line} (hbegins : Begins d word lines')
    (hword : word ∉ words) (r : List Line) : lines ≠ lines' ++ r := by
  rintro rfl
  obtain ⟨word', hmem, hbegins'⟩ := h
  exact hword (hbegins'.unique (hbegins.append r) ▸ hmem)

theorem cons (h : Starts d words lines) (word : String) : Starts d (word :: words) lines := by
  obtain ⟨word', hmem, hbegins⟩ := h
  exact ⟨word', List.mem_cons_of_mem _ hmem, hbegins⟩

end Starts

theorem stmt_starts (d : Nat) (s : Stmt) (r : List Line) : Starts d stmtWords (stmt d s ++ r) := by
  refine ⟨stmtWord s, ?_, (stmt_begins d s).append r⟩
  cases s <;> simp [stmtWord, stmtWords]

section

variable {d : Nat} {title : String} (htitle : title = "constants" ∨ title = "variables")

include htitle

theorem declarations_begins (x : Symbol) (xs : List Symbol) : Begins d title (declarations d title (x :: xs)) := by
  refine ⟨_, _, rfl, ?_⟩
  rcases htitle with rfl | rfl <;> simp [toString]

theorem declarations_starts (xs : List Symbol) {words : List String} {r : List Line} (hr : Starts d words r) :
    Starts d (title :: words) (declarations d title xs ++ r) := by
  cases xs with
  | nil => exact hr.cons title
  | cons x xs => exact ⟨title, List.mem_cons_self, (declarations_begins htitle x xs).append r⟩

/-- Whether there is a line of declarations, its first word tells. -/
theorem declarations_inj {words : List String} (hwords : title ∉ words) {xs ys : List Symbol}
    (hxs : ∀ x ∈ xs, (Token.ident x.name).Printable) (hys : ∀ y ∈ ys, (Token.ident y.name).Printable)
    {r r' : List Line} (hr : Starts d words r) (hr' : Starts d words r')
    (h : declarations d title xs ++ r = declarations d title ys ++ r') :
    xs.map Symbol.bare = ys.map Symbol.bare ∧ r = r' := by
  cases xs with
  | nil =>
      cases ys with
      | nil => exact ⟨rfl, h⟩
      | cons y ys => exact absurd h (hr.ne_append (declarations_begins htitle y ys) hwords r')
  | cons x xs =>
      cases ys with
      | nil => exact absurd h.symm (hr'.ne_append (declarations_begins htitle x xs) hwords r)
      | cons y ys =>
          simp only [declarations, List.isEmpty_cons, Bool.false_eq_true, if_false, List.cons_append, List.nil_append,
            List.cons.injEq, Line.mk.injEq, true_and, String.append_left_inj, String.append_right_inj] at h
          exact ⟨names_inj (by decide) (by simp [Stops, Scanner.isWordPart]) hxs hys h.1, h.2⟩

theorem declarations_plain {symbols : List Symbol} (h : ∀ x ∈ symbols, (Token.ident x.name).Printable) :
    ∀ l ∈ declarations d title symbols, l.Plain := by
  have hnames : '\n' ∉ (names " " symbols).toList := unbroken_names (by decide) h
  unfold declarations
  split
  · simp
  · rw [List.forall_mem_singleton]
    rcases htitle with rfl | rfl <;> exact ⟨by simp [toString, hnames], by simp [Stops, toString]⟩

end

/-! ## Blocks -/

theorem names_eq_of_bare {xs ys : List Symbol} (h : xs.map Symbol.bare = ys.map Symbol.bare) :
    xs.map Symbol.name = ys.map Symbol.name := by
  have hnames := congrArg (List.map Symbol.name) h
  simpa [Function.comp_def] using hnames

theorem sketch_eq_of_bare {xs ys : List Symbol} (hxs : ∀ x ∈ xs, x.binding.procedureLevel? = none)
    (hys : ∀ y ∈ ys, y.binding.procedureLevel? = none) (h : xs.map Symbol.bare = ys.map Symbol.bare) :
    xs.map sketch = ys.map sketch := by
  have hsketch {zs : List Symbol} (hzs : ∀ z ∈ zs, z.binding.procedureLevel? = none) :
      zs.map sketch = (zs.map Symbol.name).map fun n => (n, none) := by
    rw [List.map_map]
    exact List.map_congr_left fun z hz => Prod.ext rfl (hzs z hz)
  rw [hsketch hxs, names_eq_of_bare h, ← hsketch hys]

/-- The constants and variables of a block are names. -/
theorem printable_declared {wc wv : Word} {cs : List Symbol} {names : List String}
    (hcs : Declarations .const Constant wc cs) (hvs : Declarations .var Name wv names) (hwc : Named wc) (hwv : Named wv)
    (level : Nat) : (∀ x ∈ cs, (Token.ident x.name).Printable) ∧
      ∀ x ∈ slots level 0 names, (Token.ident x.name).Printable := by
  refine ⟨printable_of_declarations Symbol.name (fun _ _ => printable_of_constant) hcs hwc, ?_⟩
  exact printable_slots (printable_of_declarations id (fun _ _ => printable_of_name) hvs hwv)

theorem agree_declared {wc wc' : Word} {cs cs' : List Symbol} {names names' : List String} {level level' : Nat}
    (hcs : Declarations .const Constant wc cs) (hcs' : Declarations .const Constant wc' cs')
    (hconsts : cs.map Symbol.bare = cs'.map Symbol.bare)
    (hvars : (slots level 0 names).map Symbol.bare = (slots level' 0 names').map Symbol.bare)
    (hnodup : ((cs ++ slots level 0 names).map Symbol.name).Nodup)
    (hc : ∀ x ∈ cs, (Token.ident x.name).Printable)
    (hv : ∀ x ∈ slots level 0 names, (Token.ident x.name).Printable) :
    Agree (cs ++ slots level 0 names) (cs' ++ slots level' 0 names') where
  sketch_eq := by
    have hconsts := sketch_eq_of_bare (level_of_constant hcs) (level_of_constant hcs') hconsts
    have hvars := sketch_eq_of_bare level_of_slots level_of_slots hvars
    rw [List.map_append, List.map_append, hconsts, hvars]
  nodup := hnodup
  printable := by
    rw [List.forall_mem_map, List.forall_mem_append]
    exact ⟨hc, hv⟩

theorem header_inj {k l m n : Nat}
    (h : s!"block (level {k}, {l} variables)" = s!"block (level {m}, {n} variables)") : k = m ∧ l = n :=
  @Decimal.numerals_inj "block (level ".toList " ".toList "variables)".toList ',' ' ' rfl rfl k l m n
    (by simpa [← String.toList_inj, toString] using h)

theorem procedure_inj {m n : String} (h : s!"procedure {m}" = s!"procedure {n}") : m = n := by
  simpa [← String.toList_inj, toString] using h

theorem procedures_begins (d : Nat) (p : Procedure Block) (rest : List (Procedure Block)) :
    Begins d "procedure" (procedures d (p :: rest)) := by
  obtain ⟨x, b, position⟩ := p
  exact ⟨_, _, rfl, by simp [toString]⟩

theorem procedures_starts (d : Nat) (ps : List (Procedure Block)) {words : List String} {r : List Line}
    (hr : Starts d words r) : Starts d ("procedure" :: words) (procedures d ps ++ r) := by
  cases ps with
  | nil => exact hr.cons _
  | cons p rest => exact ⟨"procedure", List.mem_cons_self, (procedures_begins d p rest).append r⟩

mutual

/-- The lines of a block end where one follows that is no deeper than its first. -/
theorem block_inj {Γ Γ' : Context} {n n' k k' : Nat} {w w' : Word} {b b' : Block} :
    BlockAt Γ n w b k → BlockAt Γ' n' w' b' k' → Forall₂ Agree Γ Γ' → Named w → Named w' →
    ∀ {d : Nat} {r r' : List Line}, Below (d + 1) r → Below (d + 1) r' → block d b ++ r = block d b' ++ r' →
    b.erase = b'.erase ∧ r = r'
  | .mk hcs hvs hnames hps hbody, .mk hcs' hvs' hnames' hps' hbody', hΓ, hw, hw', d, r, r', hr, hr', h => by
      simp only [named_append] at hw hw'
      obtain ⟨⟨⟨hwc, hwv⟩, hwp⟩, -⟩ := hw
      obtain ⟨⟨⟨hwc', hwv'⟩, hwp'⟩, -⟩ := hw'
      obtain ⟨hc, hv⟩ := printable_declared hcs hvs hwc hwv Γ.length
      obtain ⟨hc', hv'⟩ := printable_declared hcs' hvs' hwc' hwv' Γ'.length
      simp only [block, List.cons_append, List.append_assoc, List.cons.injEq, Line.mk.injEq, true_and] at h
      obtain ⟨hlevel, hcount⟩ := header_inj h.1
      obtain ⟨hconsts, hrest⟩ := declarations_inj (.inl rfl) (by decide) hc hc'
        (declarations_starts (.inr rfl) _ (procedures_starts _ _ (stmt_starts _ _ _)))
        (declarations_starts (.inr rfl) _ (procedures_starts _ _ (stmt_starts _ _ _))) h.2
      obtain ⟨hvars, hrest⟩ := declarations_inj (.inr rfl) (by decide) hv hv'
        (procedures_starts _ _ (stmt_starts _ _ _)) (procedures_starts _ _ (stmt_starts _ _ _)) hrest
      obtain ⟨hprocedures, hscope, hrest⟩ := procedures_inj hps hps' hΓ
        (agree_declared hcs hcs' hconsts hvars hnames hc hv) hwp hwp' (stmt_starts _ _ _) (stmt_starts _ _ _) hrest
      obtain ⟨hstmt, hrest⟩ := stmt_inj (corresponds (.cons hscope hΓ)) (uses_denotes hbody) (uses_denotes hbody')
        (hr.mono (by omega)) (hr'.mono (by omega)) hrest
      exact ⟨by rw [Block.erase, Block.erase, hvars, hlevel, hcount, hconsts, hprocedures, hstmt], hrest⟩

theorem procedures_inj {Γ Γ' : Context} {scope scope' scope₁ scope₁' : List Symbol} {n n' k k' : Nat} {w w' : Word}
    {ps ps' : List (Procedure Block)} :
    ProceduresAt Γ scope n w ps scope₁ k → ProceduresAt Γ' scope' n' w' ps' scope₁' k' →
    Forall₂ Agree Γ Γ' → Agree scope scope' → Named w → Named w' →
    ∀ {d : Nat} {r r' : List Line}, Starts d stmtWords r → Starts d stmtWords r' →
    procedures d ps ++ r = procedures d ps' ++ r' →
    Block.eraseAll ps = Block.eraseAll ps' ∧ Agree scope₁ scope₁' ∧ r = r'
  | .nil, .nil, _, hscope, _, _, _, _, _, _, _, h => ⟨rfl, hscope, h⟩
  | .nil, .cons .., _, _, _, _, _, _, _, hr, _, h =>
      absurd h (hr.ne_append (procedures_begins _ _ _) (by decide) _)
  | .cons .., .nil, _, _, _, _, _, _, _, _, hr', h =>
      absurd h.symm (hr'.ne_append (procedures_begins _ _ _) (by decide) _)
  | .cons hnew hb hps, .cons _ hb' hps', hΓ, hscope, hw, hw', d, r, r', hr, hr', h => by
      simp only [List.cons_append, named_cons, named_append] at hw hw'
      obtain ⟨-, hname, -, hw, -, hv⟩ := hw
      obtain ⟨-, -, -, hw', -, hv'⟩ := hw'
      simp only [procedures, List.cons_append, List.append_assoc, List.cons.injEq, Line.mk.injEq, true_and] at h
      obtain rfl := procedure_inj h.1
      have hlevel : Γ'.length = Γ.length := hΓ.length_eq.symm
      rw [hlevel] at hb' hps' ⊢
      have hscope := hscope.declare hnew (hname _ rfl) Γ.length n n'
      obtain ⟨hblock, hrest⟩ := block_inj hb hb' (.cons hscope hΓ) hw hw'
        ((procedures_starts _ _ hr).below.mono (by omega)) ((procedures_starts _ _ hr').below.mono (by omega)) h.2
      obtain ⟨hprocedures, hscope, hrest⟩ := procedures_inj hps hps' hΓ hscope hv hv' hr hr' hrest
      exact ⟨by simp only [Block.eraseAll, hblock, hprocedures, Symbol.withoutId], hscope, hrest⟩

end

mutual

theorem block_plain {Γ : Context} {n k : Nat} {w : Word} {b : Block} :
    BlockAt Γ n w b k → Forall₂ Agree Γ Γ → Named w → ∀ d, ∀ l ∈ block d b, l.Plain
  | .mk hcs hvs hnames hps hbody, hΓ, hw, d => by
      simp only [named_append] at hw
      obtain ⟨⟨⟨hwc, hwv⟩, hwp⟩, -⟩ := hw
      obtain ⟨hc, hv⟩ := printable_declared hcs hvs hwc hwv Γ.length
      obtain ⟨hscope, hprocedures⟩ := procedures_plain hps hΓ (agree_declared hcs hcs rfl rfl hnames hc hv) hwp (d + 1)
      simp only [block, List.cons_append, List.forall_mem_cons, List.forall_mem_append]
      refine ⟨⟨?_, by simp [Stops, toString]⟩, ⟨⟨declarations_plain (.inl rfl) hc, declarations_plain (.inr rfl) hv⟩,
        hprocedures⟩, stmt_plain (fun hx => printable_of_denotes (.cons hscope hΓ) hx) (uses_denotes hbody) _⟩
      simp [toString, Decimal.unbroken_toDigits]

theorem procedures_plain {Γ : Context} {scope scope₁ : List Symbol} {n k : Nat} {w : Word}
    {ps : List (Procedure Block)} : ProceduresAt Γ scope n w ps scope₁ k → Forall₂ Agree Γ Γ → Agree scope scope →
    Named w → ∀ d, Agree scope₁ scope₁ ∧ ∀ l ∈ procedures d ps, l.Plain
  | .nil, _, hscope, _, _ => ⟨hscope, by simp [procedures]⟩
  | .cons hnew hb hps, hΓ, hscope, hw, d => by
      simp only [List.cons_append, named_cons, named_append] at hw
      obtain ⟨-, hname, -, hw, -, hv⟩ := hw
      have hscope := hscope.declare hnew (hname _ rfl) Γ.length n n
      obtain ⟨hscope₁, hprocedures⟩ := procedures_plain hps hΓ hscope hv d
      refine ⟨hscope₁, ?_⟩
      simp only [procedures, List.cons_append, List.forall_mem_cons, List.forall_mem_append]
      exact ⟨⟨by simp [toString, (hname _ rfl).unbroken], by simp [Stops, toString]⟩,
        block_plain hb (.cons hscope hΓ) hw _, hprocedures⟩

end

end Outline

/-! ## Sources -/

open Outline

theorem Source.exists_named {source : String} {b : Block} (h : Source.parse source = .ok b) :
    ∃ w n, BlockAt [] 0 w b n ∧ Named w := by
  unfold Source.parse at h
  split at h
  · cases h
  · next tokens hlex =>
    split at h
    · cases h
    · next b hparse =>
      cases h
      obtain ⟨w, n, hw, hmem, -⟩ := Block.exists_subset_of_parse hparse
      obtain ⟨printed, hvalues, hprinted⟩ := (Token.lex_eq_ok.mp hlex).printable
      refine ⟨w, n, hw, fun name position hname => ?_⟩
      have hvalue := List.mem_map_of_mem (f := Located.value) (hmem _ hname)
      rw [hvalues, List.mem_append, List.mem_singleton] at hvalue
      exact hprinted _ (hvalue.resolve_right (by simp))

/-- Two sources have the same outline if and only if their trees are the same up to what an outline leaves
out: places, ids, the values of declared constants, and the bindings of names that are shown by name alone. -/
theorem Source.outline_eq_iff {source source' : String} {b b' : Block} (h : Source.parse source = .ok b)
    (h' : Source.parse source' = .ok b') : b.outline = b'.outline ↔ b.erase = b'.erase := by
  obtain ⟨w, n, hb, hw⟩ := Source.exists_named h
  obtain ⟨w', n', hb', hw'⟩ := Source.exists_named h'
  constructor
  · intro heq
    have hlines := render_inj (block_plain hb .nil hw 0) (block_plain hb' .nil hw' 0) heq
    have hend : Below 1 ([] : List Line) := by simp [Below]
    exact (block_inj hb hb' .nil hw hw' hend hend (congrArg (· ++ []) hlines)).1
  · intro heq
    rw [Block.outline, Block.outline, ← block_erase, heq, block_erase]

/-! An `else` of the inner `if`, written in two ways, and one of the outer. -/

namespace NestedIf

def source : String := "const k = 1; var x; if odd x then if x = 1 then write x, 2 else return."

def respelled : String := "const k = 7;\nvar x;\nif odd x then\n  if x = 1 then write x, 2\n  else return ."

def outerElse : String := "const k = 1; var x; if odd x then begin if x = 1 then write x, 2 end else return."

def odd (x p : Position) : Expr := .unary (.keyword .odd) (.name ⟨"x", .var 0 0⟩ x) p

def isOne (x p : Position) : Expr := .binary (.mark .eq) (.name ⟨"x", .var 0 0⟩ x) (.literal 1) p

def write (x : Position) : Stmt := .write [.name ⟨"x", .var 0 0⟩ x, .literal 2]

def program (k : Int64) (body : Stmt) : Block := ⟨0, 1, [⟨"k", .const k⟩], [⟨"x", .var 0 0⟩], [], body⟩

def tree : Block :=
  program 1 (.ifThen (odd ⟨1, 28⟩ ⟨1, 24⟩) (.ifElse (isOne ⟨1, 38⟩ ⟨1, 40⟩) (write ⟨1, 55⟩) .ret))

def respelledTree : Block :=
  program 7 (.ifThen (odd ⟨3, 8⟩ ⟨3, 4⟩) (.ifElse (isOne ⟨4, 6⟩ ⟨4, 8⟩) (write ⟨4, 23⟩) .ret))

def outerElseTree : Block :=
  program 1 (.ifElse (odd ⟨1, 28⟩ ⟨1, 24⟩) (.sequence [.ifThen (isOne ⟨1, 44⟩ ⟨1, 46⟩) (write ⟨1, 61⟩)]) .ret)

end NestedIf

theorem Source.outline_eq_iff_nestedIf :
    Source.parse NestedIf.source = .ok NestedIf.tree ∧ Source.parse NestedIf.respelled = .ok NestedIf.respelledTree ∧
      Source.parse NestedIf.outerElse = .ok NestedIf.outerElseTree ∧
      NestedIf.tree ≠ NestedIf.respelledTree ∧ NestedIf.tree.outline = NestedIf.respelledTree.outline ∧
      NestedIf.tree.outline ≠ NestedIf.outerElseTree.outline := by
  have hsource : Source.parse NestedIf.source = .ok NestedIf.tree := by cbv
  have hrespelled : Source.parse NestedIf.respelled = .ok NestedIf.respelledTree := by cbv
  have houterElse : Source.parse NestedIf.outerElse = .ok NestedIf.outerElseTree := by cbv
  refine ⟨hsource, hrespelled, houterElse, ?_, ?_, ?_⟩
  · simp [NestedIf.tree, NestedIf.respelledTree, NestedIf.program]
  · exact (Source.outline_eq_iff hsource hrespelled).mpr rfl
  · intro heq
    have herase := (Source.outline_eq_iff hsource houterElse).mp heq
    simp [NestedIf.tree, NestedIf.outerElseTree, NestedIf.program, Block.erase, Stmt.erase] at herase

end PLZero
