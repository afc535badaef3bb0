import PLZero.Instr
import PLZero.Proofs.Grammar

/-!
# How a tree uses names

A name stands for a value, is assigned to, or is called. `Stmt.Uses V` says that every use in a
statement is one that `V` admits, and that its operators are operators. The grammar admits what the
declarations around the statement declare; the compiler admits what a binding is good for.
-/

namespace PLZero

inductive Usage where
  | value
  | target
  | callee

/-- Only variables are assigned to, only procedures are called, and no procedure is a value. -/
def Usage.Admits (use : Usage) (x : Symbol) : Prop :=
  match use, x.binding with
  | .value, .proc .. => False
  | .value, _ => True
  | .target, .var .. => True
  | .target, _ => False
  | .callee, .proc .. => True
  | .callee, _ => False

/-- Every name of an expression is admitted as a value, and its operators are known. -/
def Expr.Uses (V : Usage → Symbol → Prop) : Expr → Prop
  | .binary op lhs rhs _ => (BinaryOp.ofToken? op).isSome ∧ lhs.Uses V ∧ rhs.Uses V
  | .unary op operand _ => (Operator.ofPrefixToken? op).isSome ∧ operand.Uses V
  | .literal _ => True
  | .name x _ => V .value x

theorem BinaryOp.exists_mark_of_isSome {op : Token} (h : (BinaryOp.ofToken? op).isSome) : ∃ m, op = .mark m := by
  cases op with
  | mark m => exact ⟨m, rfl⟩
  | _ => cases h

theorem Operator.eq_odd_of_isSome {op : Token} (h : (Operator.ofPrefixToken? op).isSome) :
    op = .keyword .odd := by
  unfold Operator.ofPrefixToken? at h
  split at h
  · rfl
  · cases h

mutual

/-- Every use of a name in a statement is admitted, and the operators are known. -/
def Stmt.Uses (V : Usage → Symbol → Prop) : Stmt → Prop
  | .assign target value _ => value.Uses V ∧ V .target target
  | .read targets => ∀ target ∈ targets, V .target target.value
  | .write values => ∀ value ∈ values, value.Uses V
  | .call callee _ => V .callee callee
  | .ifThen condition body => condition.Uses V ∧ body.Uses V
  | .ifElse condition body alternative => condition.Uses V ∧ body.Uses V ∧ alternative.Uses V
  | .whileDo condition body => condition.Uses V ∧ body.Uses V
  | .sequence body => Stmt.AllUse V body
  | .ret => True

def Stmt.AllUse (V : Usage → Symbol → Prop) : List Stmt → Prop
  | [] => True
  | s :: rest => s.Uses V ∧ Stmt.AllUse V rest

end

/-! ## Conditions that follow from others -/

section

variable {V W U : Usage → Symbol → Prop}

theorem Expr.Uses.combine (hU : ∀ use x, V use x → W use x → U use x) {e : Expr} (hV : e.Uses V)
    (hW : e.Uses W) : e.Uses U := by
  induction e with
  | binary op lhs rhs _ ihl ihr => exact ⟨hV.1, ihl hV.2.1 hW.2.1, ihr hV.2.2 hW.2.2⟩
  | unary op operand _ ih => exact ⟨hV.1, ih hV.2 hW.2⟩
  | literal => trivial
  | name => exact hU _ _ hV hW

mutual

/-- What two conditions imply together holds of every use that meets both. -/
theorem Stmt.Uses.combine (hU : ∀ use x, V use x → W use x → U use x) {s : Stmt} (hV : s.Uses V)
    (hW : s.Uses W) : s.Uses U := by
  cases s with
  | assign => exact ⟨hV.1.combine hU hW.1, hU _ _ hV.2 hW.2⟩
  | read => exact fun t ht => hU _ _ (hV t ht) (hW t ht)
  | write => exact fun e he => (hV e he).combine hU (hW e he)
  | call => exact hU _ _ hV hW
  | ifThen c body => exact ⟨hV.1.combine hU hW.1, Stmt.Uses.combine hU hV.2 hW.2⟩
  | ifElse c body alternative =>
      exact ⟨hV.1.combine hU hW.1, Stmt.Uses.combine hU hV.2.1 hW.2.1, Stmt.Uses.combine hU hV.2.2 hW.2.2⟩
  | whileDo c body => exact ⟨hV.1.combine hU hW.1, Stmt.Uses.combine hU hV.2 hW.2⟩
  | sequence body => exact Stmt.AllUse.combine hU hV hW
  | ret => trivial

theorem Stmt.AllUse.combine (hU : ∀ use x, V use x → W use x → U use x) {ss : List Stmt}
    (hV : Stmt.AllUse V ss) (hW : Stmt.AllUse W ss) : Stmt.AllUse U ss := by
  cases ss with
  | nil => trivial
  | cons s rest => exact ⟨Stmt.Uses.combine hU hV.1 hW.1, Stmt.AllUse.combine hU hV.2 hW.2⟩

end

theorem Stmt.Uses.imp {s : Stmt} (h : s.Uses V) (hVW : ∀ use x, V use x → W use x) : s.Uses W :=
  h.combine (fun use x hx _ => hVW use x hx) h

end

/-! ## Names in the grammar -/

namespace Grammar

variable {Γ : Context} {V : Usage → Symbol → Prop}

theorem forall_mem_of_separated {α : Type} {m : Mark} {Item : Word → α → Prop} {P : α → Prop}
    {w : Word} {as : List α} (h : Separated m Item w as) (hitem : ∀ v a, Item v a → P a) :
    ∀ a ∈ as, P a := by
  induction h with
  | one h => simpa using hitem _ _ h
  | more h _ ih => exact List.forall_mem_cons.mpr ⟨hitem _ _ h, ih⟩

mutual

theorem Factor.uses (hV : ∀ use name x, Denotes Γ name x → V use x) {w : Word} {e : Expr} : Factor Γ w e → e.Uses V
  | .name h => hV _ _ _ h
  | .number => trivial
  | .paren h => h.uses hV

theorem Term.uses (hV : ∀ use name x, Denotes Γ name x → V use x) {w : Word} {e : Expr} : Term Γ w e → e.Uses V
  | .factor h => h.uses hV
  | .more h hm hf => ⟨by rcases hm with rfl | rfl <;> rfl, h.uses hV, hf.uses hV⟩

theorem Expression.uses (hV : ∀ use name x, Denotes Γ name x → V use x) {w : Word} {e : Expr} :
    Expression Γ w e → e.Uses V
  | .term h => h.uses hV
  | .plus h => h.uses hV
  | .minus h => ⟨rfl, trivial, h.uses hV⟩
  | .more h hm ht => ⟨by rcases hm with rfl | rfl <;> rfl, h.uses hV, ht.uses hV⟩

end

theorem Condition.uses (hV : ∀ use name x, Denotes Γ name x → V use x) {w : Word} {e : Expr}
    (h : Condition Γ w e) : e.Uses V := by
  cases h with
  | odd h => exact ⟨rfl, h.uses hV⟩
  | @comparison _ _ m _ _ _ h hm hf =>
      refine ⟨?_, h.uses hV, hf.uses hV⟩
      revert hm
      cases m <;> decide

mutual

/-- Every name in a statement is used as `V` admits, if it admits whatever a name denotes. -/
theorem Statement.uses (hV : ∀ use name x, Denotes Γ name x → V use x) {w : Word} {s : Stmt} :
    Statement Γ w s → s.Uses V
  | .empty => trivial
  | .assign hx he => ⟨he.uses hV, hV _ _ _ hx⟩
  | .call hx => hV _ _ _ hx
  | .read h => forall_mem_of_separated h fun _ _ => fun | .mk hx => hV _ _ _ hx
  | .write h => forall_mem_of_separated h fun _ _ h => h.uses hV
  | .sequence h => h.uses hV
  | .ifThen hc h => ⟨hc.uses hV, h.uses hV⟩
  | .ifElse hc h _ h' => ⟨hc.uses hV, h.uses hV, h'.uses hV⟩
  | .whileDo hc h => ⟨hc.uses hV, h.uses hV⟩
  | .ret => trivial

theorem Statements.uses (hV : ∀ use name x, Denotes Γ name x → V use x) {w : Word} {ss : List Stmt} :
    Statements Γ w ss → Stmt.AllUse V ss
  | .one h => ⟨h.uses hV, trivial⟩
  | .more h hs => ⟨h.uses hV, hs.uses hV⟩

end

end Grammar

end PLZero
