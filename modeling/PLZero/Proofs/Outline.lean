import Mathlib
import PLZero.Proofs.Outline.Texts
import PLZero.Proofs.Usage

/-!
# Outlines can be read

What an outline shows of a tree can be read off its lines. The first word of a line tells what it is, its
depth where it belongs: what stands below a statement at its depth or less deep is no part of it. So the
lines of an expression or a statement can be told from those that follow, and different trees have different
lines.

An outline leaves out places, and it names targets and declarations without saying what they are bound to.
-/

namespace PLZero

/-! ## What an outline leaves out -/

/-- An expression without places and ids. -/
def Expr.erase : Expr → Expr
  | .binary op lhs rhs _ => .binary op lhs.erase rhs.erase .start
  | .unary op operand _ => .unary op operand.erase .start
  | .literal value => .literal value
  | .name x _ => .name x.withoutId .start

mutual

/-- A statement without places, ids and the bindings of the names that it assigns to, reads or calls. -/
def Stmt.erase : Stmt → Stmt
  | .assign target value _ => .assign target.bare value.erase .start
  | .read targets => .read (targets.map fun target => ⟨target.value.bare, .start⟩)
  | .write values => .write (values.map Expr.erase)
  | .call callee _ => .call callee.bare .start
  | .ifThen condition body => .ifThen condition.erase body.erase
  | .ifElse condition body alternative => .ifElse condition.erase body.erase alternative.erase
  | .whileDo condition body => .whileDo condition.erase body.erase
  | .sequence body => .sequence (Stmt.eraseAll body)
  | .ret => .ret

def Stmt.eraseAll : List Stmt → List Stmt
  | [] => []
  | s :: rest => s.erase :: Stmt.eraseAll rest

end

mutual

/-- A block without places, ids, the bindings of the names that it declares, and those that its statements
leave out. -/
def Block.erase : Block → Block
  | { level, variableCount, consts, vars, procedures, body } =>
    { level
      variableCount
      consts := consts.map Symbol.bare
      vars := vars.map Symbol.bare
      procedures := Block.eraseAll procedures
      body := body.erase }
termination_by structural block => block

def Block.eraseAll : List (Procedure Block) → List (Procedure Block)
  | [] => []
  | { symbol, block, .. } :: rest => ⟨symbol.withoutId, block.erase, .start⟩ :: Block.eraseAll rest
termination_by structural procedures => procedures

end

namespace Outline

/-! ## What is left out is not shown -/

@[simp] theorem name_bare (x : Symbol) : x.bare.name = x.name := rfl

@[simp] theorem name_withoutId (x : Symbol) : x.withoutId.name = x.name := by
  unfold Symbol.withoutId
  split <;> rfl

theorem names_bare (separator : String) (symbols : List Symbol) :
    names separator (symbols.map Symbol.bare) = names separator symbols := by
  simp [names, Function.comp_def]

theorem nameText_withoutId (x : Symbol) : nameText x.withoutId = nameText x := by
  obtain ⟨name, binding⟩ := x
  cases binding <;> rfl

theorem expr_erase (d : Nat) (e : Expr) : expr d e.erase = expr d e := by
  induction e generalizing d with
  | binary op lhs rhs position ihl ihr => simp only [Expr.erase, expr, ihl, ihr]
  | unary op operand position ih => simp only [Expr.erase, expr, ih]
  | literal value => rfl
  | name x position => simp only [Expr.erase, expr, nameText_withoutId]

mutual

theorem stmt_erase (d : Nat) (s : Stmt) : stmt d s.erase = stmt d s := by
  cases s with
  | assign target value position => simp only [Stmt.erase, stmt, expr_erase, name_bare]
  | read targets => simp [Stmt.erase, stmt, names, Function.comp_def]
  | write values => simp [Stmt.erase, stmt, List.flatMap_map, expr_erase]
  | call callee position => rfl
  | ifThen condition body => simp only [Stmt.erase, stmt, expr_erase, stmt_erase _ body]
  | ifElse condition body alternative =>
      simp only [Stmt.erase, stmt, expr_erase, stmt_erase _ body, stmt_erase _ alternative]
  | whileDo condition body => simp only [Stmt.erase, stmt, expr_erase, stmt_erase _ body]
  | sequence body => simp only [Stmt.erase, stmt, stmts_erase _ body]
  | ret => rfl

theorem stmts_erase (d : Nat) (ss : List Stmt) : stmts d (Stmt.eraseAll ss) = stmts d ss := by
  cases ss with
  | nil => rfl
  | cons s rest => simp only [Stmt.eraseAll, stmts, stmt_erase _ s, stmts_erase _ rest]

end

theorem declarations_bare (d : Nat) (title : String) (symbols : List Symbol) :
    declarations d title (symbols.map Symbol.bare) = declarations d title symbols := by
  simp [declarations, names_bare]

mutual

theorem block_erase (d : Nat) (b : Block) : block d b.erase = block d b := by
  obtain ⟨level, count, consts, vars, ps, body⟩ := b
  simp only [Block.erase, block, declarations_bare, procedures_erase _ ps, stmt_erase]

theorem procedures_erase (d : Nat) (ps : List (Procedure Block)) :
    procedures d (Block.eraseAll ps) = procedures d ps := by
  cases ps with
  | nil => rfl
  | cons p rest =>
      obtain ⟨x, b, position⟩ := p
      simp only [Block.eraseAll, procedures, name_withoutId, block_erase _ b, procedures_erase _ rest]

end

/-! ## First lines -/

/-- The lines begin at the given depth, with the given word. -/
def Begins (d : Nat) (word : String) (lines : List Line) : Prop :=
  ∃ text rest, lines = ⟨d, text⟩ :: rest ∧ text.toList.takeWhile (· ≠ ' ') = word.toList

/-- The lines go on less deep than the given depth, or they are at an end. -/
def Below (d : Nat) (lines : List Line) : Prop := ∀ l ∈ lines.head?, l.depth < d

namespace Begins

variable {d : Nat} {word word' : String} {lines : List Line}

theorem append (h : Begins d word lines) (r : List Line) : Begins d word (lines ++ r) := by
  obtain ⟨text, rest, rfl, hword⟩ := h
  exact ⟨text, rest ++ r, rfl, hword⟩

theorem unique (h : Begins d word lines) (h' : Begins d word' lines) : word = word' := by
  obtain ⟨text, rest, rfl, hword⟩ := h
  obtain ⟨text', rest', heq, hword'⟩ := h'
  cases heq
  rw [hword, String.toList_inj] at hword'
  exact hword'

theorem below (h : Begins d word lines) : Below (d + 1) lines := by
  obtain ⟨text, rest, rfl, -⟩ := h
  simp [Below]

theorem not_below (h : Begins d word lines) : ¬ Below d lines := by
  obtain ⟨text, rest, rfl, -⟩ := h
  simp [Below]

end Begins

theorem Below.mono {d d' : Nat} {lines : List Line} (h : Below d lines) (hd : d ≤ d') : Below d' lines :=
  fun l hl => Nat.lt_of_lt_of_le (h l hl) hd

theorem below_cons {d d' : Nat} (hd : d < d') (text : String) (lines : List Line) :
    Below d' (⟨d, text⟩ :: lines) := by
  simpa [Below] using hd

/-- The word that an expression begins with. -/
def exprWord : Expr → String
  | .binary .. => "binary"
  | .unary .. => "unary"
  | .literal _ => "literal"
  | .name x _ => x.binding.kind

/-- The word that a statement begins with. -/
def stmtWord : Stmt → String
  | .assign .. => "assign"
  | .read _ => "read"
  | .write _ => "write"
  | .call .. => "call"
  | .ifThen .. | .ifElse .. => "if"
  | .whileDo .. => "while"
  | .sequence _ => "begin"
  | .ret => "return"

theorem expr_begins (d : Nat) (e : Expr) : Begins d (exprWord e) (expr d e) := by
  cases e with
  | name x position =>
      refine ⟨_, _, rfl, ?_⟩
      rw [nameText_eq]
      cases hx : x.binding <;> simp [exprWord, Binding.kind, hx]
  | _ => exact ⟨_, _, rfl, by simp [exprWord]⟩

theorem stmt_begins (d : Nat) (s : Stmt) : Begins d (stmtWord s) (stmt d s) := by
  cases s with
  | _ => exact ⟨_, _, rfl, by simp [stmtWord, toString]⟩

theorem exprWord_eq {d : Nat} {e e' : Expr} {r r' : List Line} (h : expr d e ++ r = expr d e' ++ r') :
    exprWord e = exprWord e' :=
  ((expr_begins d e).append r).unique (h ▸ (expr_begins d e').append r')

theorem stmtWord_eq {d : Nat} {s s' : Stmt} {r r' : List Line} (h : stmt d s ++ r = stmt d s' ++ r') :
    stmtWord s = stmtWord s' :=
  ((stmt_begins d s).append r).unique (h ▸ (stmt_begins d s').append r')

theorem exprWord_name_ne (x : Symbol) (p : Position) {e : Expr} (he : ∀ y q, e ≠ .name y q) :
    exprWord (.name x p) ≠ exprWord e := by
  cases e with
  | name y q => exact absurd rfl (he y q)
  | _ => cases hx : x.binding <;> simp [exprWord, Binding.kind, hx]

/-! ## Expressions -/

/-- What the uses of names in two trees have to do with each other: a name is spelled as one, and if it
stands for a procedure in both, the procedures are declared at the same level. -/
structure Corresponds (V V' : Usage → Symbol → Prop) : Prop where
  printable : ∀ {use x}, V use x → (Token.ident x.name).Printable
  printable' : ∀ {use x}, V' use x → (Token.ident x.name).Printable
  level_eq : ∀ {x y}, V .value x → V' .value y → x.name = y.name →
    x.binding.procedureLevel? = y.binding.procedureLevel?

theorem binary_inj {op op' : Token} (h : (BinaryOp.ofToken? op).isSome) (h' : (BinaryOp.ofToken? op').isSome)
    (htext : op.text = op'.text) : op = op' := by
  obtain ⟨m, rfl⟩ := BinaryOp.exists_mark_of_isSome h
  obtain ⟨m', rfl⟩ := BinaryOp.exists_mark_of_isSome h'
  have hmark := Mark.ofSpelling?_spelling m
  rw [show m.spelling = m'.spelling from htext, Mark.ofSpelling?_spelling] at hmark
  rw [Option.some.inj hmark]

variable {V V' : Usage → Symbol → Prop}

/-- The lines of an expression end where their number says: the first word tells how many operands follow. -/
theorem expr_inj (hV : Corresponds V V') {e e' : Expr} (he : e.Uses V) (he' : e'.Uses V') {d : Nat}
    {r r' : List Line} (h : expr d e ++ r = expr d e' ++ r') : e.erase = e'.erase ∧ r = r' := by
  induction e generalizing e' d r r' with
  | binary op lhs rhs position ihl ihr =>
      cases e' with
      | binary op' lhs' rhs' position' =>
          simp only [expr, List.cons_append, List.append_assoc, List.cons.injEq, Line.mk.injEq, true_and,
            String.append_right_inj] at h
          obtain ⟨hl, hrest⟩ := ihl he.2.1 he'.2.1 h.2
          obtain ⟨hr, hrest⟩ := ihr he.2.2 he'.2.2 hrest
          exact ⟨by rw [Expr.erase, Expr.erase, binary_inj he.1 he'.1 h.1, hl, hr], hrest⟩
      | name x position => exact absurd (exprWord_eq h).symm (exprWord_name_ne x position (by simp))
      | _ => exact absurd (exprWord_eq h) (by simp [exprWord])
  | unary op operand position ih =>
      cases e' with
      | unary op' operand' position' =>
          simp only [expr, List.cons_append, List.cons.injEq] at h
          obtain ⟨hoperand, hrest⟩ := ih he.2 he'.2 h.2
          rw [Operator.eq_odd_of_isSome he.1, Operator.eq_odd_of_isSome he'.1]
          exact ⟨by rw [Expr.erase, Expr.erase, hoperand], hrest⟩
      | name x position => exact absurd (exprWord_eq h).symm (exprWord_name_ne x position (by simp))
      | _ => exact absurd (exprWord_eq h) (by simp [exprWord])
  | literal value =>
      cases e' with
      | literal value' =>
          simp only [expr, List.cons_append, List.nil_append, List.cons.injEq, Line.mk.injEq, true_and,
            String.append_right_inj] at h
          exact ⟨by rw [Decimal.ofInt64_inj h.1], h.2⟩
      | name x position => exact absurd (exprWord_eq h).symm (exprWord_name_ne x position (by simp))
      | _ => exact absurd (exprWord_eq h) (by simp [exprWord])
  | name x position =>
      cases e' with
      | name y position' =>
          simp only [expr, List.cons_append, List.nil_append, List.cons.injEq, Line.mk.injEq, true_and] at h
          have hname := nameText_inj (hV.printable he) (hV.printable' he') (hV.level_eq he he') h.1
          exact ⟨by rw [Expr.erase, Expr.erase, hname], h.2⟩
      | _ => exact absurd (exprWord_eq h) (exprWord_name_ne x position (by simp))

/-! ## Statements -/

theorem Below.stmts_append {d : Nat} {r : List Line} (h : Below d r) (ss : List Stmt) :
    Below (d + 1) (stmts d ss ++ r) := by
  cases ss with
  | nil => exact h.mono (Nat.le_succ d)
  | cons s rest =>
      rw [stmts, List.append_assoc]
      exact ((stmt_begins d s).append _).below

/-- The values of a `write` end where a line is less deep. -/
theorem values_inj (hV : Corresponds V V') {es es' : List Expr} (hes : ∀ e ∈ es, e.Uses V)
    (hes' : ∀ e ∈ es', e.Uses V') {d : Nat} {r r' : List Line} (hr : Below d r) (hr' : Below d r')
    (h : es.flatMap (expr d) ++ r = es'.flatMap (expr d) ++ r') :
    es.map Expr.erase = es'.map Expr.erase ∧ r = r' := by
  induction es generalizing es' with
  | nil =>
      cases es' with
      | nil => exact ⟨rfl, h⟩
      | cons e' es' =>
          simp only [List.flatMap_nil, List.flatMap_cons, List.nil_append, List.append_assoc] at h
          exact absurd (h ▸ hr) ((expr_begins d e').append _).not_below
  | cons e es ih =>
      cases es' with
      | nil =>
          simp only [List.flatMap_nil, List.flatMap_cons, List.nil_append, List.append_assoc] at h
          exact absurd (h ▸ hr') ((expr_begins d e).append _).not_below
      | cons e' es' =>
          obtain ⟨he, hes⟩ := List.forall_mem_cons.mp hes
          obtain ⟨he', hes'⟩ := List.forall_mem_cons.mp hes'
          simp only [List.flatMap_cons, List.append_assoc] at h
          obtain ⟨hexpr, hrest⟩ := expr_inj hV he he' h
          obtain ⟨hexprs, hrest⟩ := ih hes hes' hrest
          exact ⟨by rw [List.map_cons, List.map_cons, hexpr, hexprs], hrest⟩

theorem bare_inj {x y : Symbol} (h : x.name = y.name) : x.bare = y.bare := by
  rw [Symbol.bare, Symbol.bare, h]

theorem targets_inj (hV : Corresponds V V') {targets targets' : List (Located Symbol)}
    (ht : ∀ t ∈ targets, V .target t.value) (ht' : ∀ t ∈ targets', V' .target t.value)
    (h : names ", " (targets.map Located.value) = names ", " (targets'.map Located.value)) :
    (Stmt.read targets).erase = (Stmt.read targets').erase := by
  have hbare := names_inj (by decide) (by simp [Stops, Scanner.isWordPart])
    (by simpa using fun t hm => hV.printable (ht t hm)) (by simpa using fun t hm => hV.printable' (ht' t hm)) h
  have herase (targets : List (Located Symbol)) : (Stmt.read targets).erase =
      .read (((targets.map Located.value).map Symbol.bare).map fun x => ⟨x, .start⟩) := by
    simp [Stmt.erase, Function.comp_def]
  rw [herase, herase, hbare]

mutual

/-- The lines of a statement end where one follows that is no deeper than its first. -/
theorem stmt_inj (hV : Corresponds V V') {s s' : Stmt} (hs : s.Uses V) (hs' : s'.Uses V') {d : Nat}
    {r r' : List Line} (hr : Below (d + 1) r) (hr' : Below (d + 1) r') (h : stmt d s ++ r = stmt d s' ++ r') :
    s.erase = s'.erase ∧ r = r' := by
  cases s with
  | assign target value position =>
      cases s' with
      | assign target' value' position' =>
          simp only [stmt, List.cons_append, List.cons.injEq, Line.mk.injEq, true_and] at h
          obtain ⟨hvalue, hrest⟩ := expr_inj hV hs.1 hs'.1 h.2
          have hname : target.name = target'.name := by simpa [← String.toList_inj, toString] using h.1
          exact ⟨by rw [Stmt.erase, Stmt.erase, bare_inj hname, hvalue], hrest⟩
      | _ => exact absurd (stmtWord_eq h) (by simp [stmtWord])
  | read targets =>
      cases s' with
      | read targets' =>
          simp only [stmt, List.cons_append, List.nil_append, List.cons.injEq, Line.mk.injEq, true_and,
            String.append_right_inj] at h
          exact ⟨targets_inj hV hs hs' h.1, h.2⟩
      | _ => exact absurd (stmtWord_eq h) (by simp [stmtWord])
  | write values =>
      cases s' with
      | write values' =>
          simp only [stmt, List.cons_append, List.cons.injEq, true_and] at h
          obtain ⟨hvalues, hrest⟩ := values_inj hV hs hs' hr hr' h
          exact ⟨by rw [Stmt.erase, Stmt.erase, hvalues], hrest⟩
      | _ => exact absurd (stmtWord_eq h) (by simp [stmtWord])
  | call callee position =>
      cases s' with
      | call callee' position' =>
          simp only [stmt, List.cons_append, List.nil_append, List.cons.injEq, Line.mk.injEq, true_and] at h
          have hname : callee.name = callee'.name := by simpa [← String.toList_inj, toString] using h.1
          exact ⟨by rw [Stmt.erase, Stmt.erase, bare_inj hname], h.2⟩
      | _ => exact absurd (stmtWord_eq h) (by simp [stmtWord])
  | ifThen condition body =>
      cases s' with
      | ifThen condition' body' =>
          simp only [stmt, List.cons_append, List.append_assoc, List.cons.injEq, true_and] at h
          obtain ⟨hcondition, hrest⟩ := expr_inj hV hs.1 hs'.1 h
          obtain ⟨hbody, hrest⟩ := stmt_inj hV hs.2 hs'.2 (hr.mono (by omega)) (hr'.mono (by omega))
            (List.cons.inj hrest).2
          exact ⟨by rw [Stmt.erase, Stmt.erase, hcondition, hbody], hrest⟩
      | ifElse condition' body' alternative' =>
          -- an `else` would be one line too deep to stand after the statement
          simp only [stmt, List.cons_append, List.append_assoc, List.cons.injEq, true_and] at h
          obtain ⟨-, hrest⟩ := expr_inj hV hs.1 hs'.1 h
          obtain ⟨-, hrest⟩ := stmt_inj hV hs.2 hs'.2.1 (hr.mono (by omega)) (below_cons (by omega) _ _)
            (List.cons.inj hrest).2
          exact absurd (hrest ▸ hr) (by simp [Below])
      | _ => exact absurd (stmtWord_eq h) (by simp [stmtWord])
  | ifElse condition body alternative =>
      cases s' with
      | ifThen condition' body' =>
          simp only [stmt, List.cons_append, List.append_assoc, List.cons.injEq, true_and] at h
          obtain ⟨-, hrest⟩ := expr_inj hV hs.1 hs'.1 h
          obtain ⟨-, hrest⟩ := stmt_inj hV hs.2.1 hs'.2 (below_cons (by omega) _ _) (hr'.mono (by omega))
            (List.cons.inj hrest).2
          exact absurd (hrest ▸ hr') (by simp [Below])
      | ifElse condition' body' alternative' =>
          simp only [stmt, List.cons_append, List.append_assoc, List.cons.injEq, true_and] at h
          obtain ⟨hcondition, hrest⟩ := expr_inj hV hs.1 hs'.1 h
          obtain ⟨hbody, hrest⟩ := stmt_inj hV hs.2.1 hs'.2.1 (below_cons (by omega) _ _)
            (below_cons (by omega) _ _) (List.cons.inj hrest).2
          obtain ⟨halternative, hrest⟩ := stmt_inj hV hs.2.2 hs'.2.2 (hr.mono (by omega)) (hr'.mono (by omega))
            (List.cons.inj hrest).2
          exact ⟨by rw [Stmt.erase, Stmt.erase, hcondition, hbody, halternative], hrest⟩
      | _ => exact absurd (stmtWord_eq h) (by simp [stmtWord])
  | whileDo condition body =>
      cases s' with
      | whileDo condition' body' =>
          simp only [stmt, List.cons_append, List.append_assoc, List.cons.injEq, true_and] at h
          obtain ⟨hcondition, hrest⟩ := expr_inj hV hs.1 hs'.1 h
          obtain ⟨hbody, hrest⟩ := stmt_inj hV hs.2 hs'.2 (hr.mono (by omega)) (hr'.mono (by omega))
            (List.cons.inj hrest).2
          exact ⟨by rw [Stmt.erase, Stmt.erase, hcondition, hbody], hrest⟩
      | _ => exact absurd (stmtWord_eq h) (by simp [stmtWord])
  | sequence body =>
      cases s' with
      | sequence body' =>
          simp only [stmt, List.cons_append, List.append_assoc, List.cons.injEq, true_and, List.nil_append] at h
          obtain ⟨hbody, hrest⟩ := stmts_inj hV hs hs' (below_cons (by omega) _ _) (below_cons (by omega) _ _) h
          exact ⟨by rw [Stmt.erase, Stmt.erase, hbody], (List.cons.inj hrest).2⟩
      | _ => exact absurd (stmtWord_eq h) (by simp [stmtWord])
  | ret =>
      cases s' with
      | ret => exact ⟨rfl, by simpa [stmt] using h⟩
      | _ => exact absurd (stmtWord_eq h) (by simp [stmtWord])

theorem stmts_inj (hV : Corresponds V V') {ss ss' : List Stmt} (hss : Stmt.AllUse V ss)
    (hss' : Stmt.AllUse V' ss') {d : Nat} {r r' : List Line} (hr : Below d r) (hr' : Below d r')
    (h : stmts d ss ++ r = stmts d ss' ++ r') : Stmt.eraseAll ss = Stmt.eraseAll ss' ∧ r = r' := by
  cases ss with
  | nil =>
      cases ss' with
      | nil => exact ⟨rfl, h⟩
      | cons s' rest' =>
          simp only [stmts, List.nil_append, List.append_assoc] at h
          exact absurd (h ▸ hr) ((stmt_begins d s').append _).not_below
  | cons s rest =>
      cases ss' with
      | nil =>
          simp only [stmts, List.nil_append, List.append_assoc] at h
          exact absurd (h ▸ hr') ((stmt_begins d s).append _).not_below
      | cons s' rest' =>
          simp only [stmts, List.append_assoc] at h
          obtain ⟨hstmt, hrest⟩ := stmt_inj hV hss.1 hss'.1 (hr.stmts_append rest) (hr'.stmts_append rest') h
          obtain ⟨hstmts, hrest⟩ := stmts_inj hV hss.2 hss'.2 hr hr' hrest
          exact ⟨by rw [Stmt.eraseAll, Stmt.eraseAll, hstmt, hstmts], hrest⟩

end

/-! ## Lines -/

theorem unbroken_binary {op : Token} (h : (BinaryOp.ofToken? op).isSome) : '\n' ∉ op.text.toList := by
  obtain ⟨m, rfl⟩ := BinaryOp.exists_mark_of_isSome h
  exact fun hmem => absurd (m.isBlank_spelling _ hmem) (by decide)

theorem unbroken_unary {op : Token} (h : (Operator.ofPrefixToken? op).isSome) : '\n' ∉ op.text.toList := by
  rw [Operator.eq_odd_of_isSome h]
  decide

theorem expr_plain (hV : ∀ {use x}, V use x → (Token.ident x.name).Printable) {e : Expr} (he : e.Uses V) (d : Nat) :
    ∀ l ∈ expr d e, l.Plain := by
  induction e generalizing d with
  | binary op lhs rhs position ihl ihr =>
      simp only [expr, List.forall_mem_cons, List.forall_mem_append]
      exact ⟨⟨by simpa using unbroken_binary he.1, by simp [Stops]⟩, ihl he.2.1 _, ihr he.2.2 _⟩
  | unary op operand position ih =>
      simp only [expr, List.forall_mem_cons]
      exact ⟨⟨by simpa using unbroken_unary he.1, by simp [Stops]⟩, ih he.2 _⟩
  | literal value =>
      simp only [expr, List.forall_mem_singleton]
      exact ⟨by simp [Decimal.unbroken_ofInt64], by simp [Stops]⟩
  | name x position =>
      simp only [expr, List.forall_mem_singleton]
      refine ⟨unbroken_nameText (hV he), ?_⟩
      rw [nameText_eq]
      cases x.binding <;> simp [Stops, Binding.kind]

mutual

theorem stmt_plain (hV : ∀ {use x}, V use x → (Token.ident x.name).Printable) {s : Stmt} (hs : s.Uses V) (d : Nat) :
    ∀ l ∈ stmt d s, l.Plain := by
  cases s with
  | assign target value position =>
      simp only [stmt, List.forall_mem_cons]
      exact ⟨⟨by simp [toString, (hV hs.2).unbroken], by simp [Stops, toString]⟩, expr_plain hV hs.1 _⟩
  | read targets =>
      simp only [stmt, List.forall_mem_singleton]
      have hnames : '\n' ∉ (names ", " (targets.map Located.value)).toList :=
        unbroken_names (by decide) (by simpa using fun t ht => hV (hs t ht))
      exact ⟨by simp [hnames], by simp [Stops]⟩
  | write values =>
      simp only [stmt, List.forall_mem_cons, List.mem_flatMap, forall_exists_index, and_imp]
      exact ⟨plain_word d (by decide), fun l e he hl => expr_plain hV (hs e he) _ l hl⟩
  | call callee position =>
      simp only [stmt, List.forall_mem_singleton]
      exact ⟨by simp [toString, (hV hs).unbroken], by simp [Stops, toString]⟩
  | ifThen condition body =>
      simp only [stmt, List.forall_mem_cons, List.forall_mem_append, List.cons_append]
      exact ⟨plain_word d (by decide), plain_word _ (by decide), expr_plain hV hs.1 _, plain_word _ (by decide),
        stmt_plain hV hs.2 _⟩
  | ifElse condition body alternative =>
      simp only [stmt, List.forall_mem_cons, List.forall_mem_append, List.cons_append, List.append_assoc]
      exact ⟨plain_word d (by decide), plain_word _ (by decide), expr_plain hV hs.1 _, plain_word _ (by decide),
        stmt_plain hV hs.2.1 _, plain_word _ (by decide), stmt_plain hV hs.2.2 _⟩
  | whileDo condition body =>
      simp only [stmt, List.forall_mem_cons, List.forall_mem_append, List.cons_append]
      exact ⟨plain_word d (by decide), plain_word _ (by decide), expr_plain hV hs.1 _, plain_word _ (by decide),
        stmt_plain hV hs.2 _⟩
  | sequence body =>
      simp only [stmt, List.cons_append, List.forall_mem_cons, List.forall_mem_append]
      exact ⟨plain_word d (by decide), stmts_plain hV hs _, plain_word d (by decide), by simp⟩
  | ret =>
      simp only [stmt, List.forall_mem_singleton]
      exact plain_word d (by decide)

theorem stmts_plain (hV : ∀ {use x}, V use x → (Token.ident x.name).Printable) {ss : List Stmt}
    (hss : Stmt.AllUse V ss) (d : Nat) : ∀ l ∈ stmts d ss, l.Plain := by
  cases ss with
  | nil => simp [stmts]
  | cons s rest =>
      rw [stmts, List.forall_mem_append]
      exact ⟨stmt_plain hV hss.1 d, stmts_plain hV hss.2 d⟩

end

end Outline

end PLZero
