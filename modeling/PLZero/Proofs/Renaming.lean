import Mathlib.Data.List.Nodup
import PLZero.Proofs.Grammar

/-!
# Renaming

Words and trees that are the same up to where they stand and which names they use. As long as names are
related one to one, the grammar cannot tell such words apart: each derivation has a counterpart, with
the same levels, slots and ids.
-/

namespace PLZero

open List (Forall₂)
open Relator (BiUnique)

/-! ## Trees that differ in places and names -/

section

variable (R : String → String → Prop)

inductive Token.Alike : Token → Token → Prop where
  | ident {m n} : R m n → Alike (.ident m) (.ident n)
  | same {t} : (∀ n, t ≠ .ident n) → Alike t t

structure Symbol.Alike (x y : Symbol) : Prop where
  name : R x.name y.name
  binding : x.binding = y.binding

inductive Expr.Alike : Expr → Expr → Prop where
  | binary {op lhs lhs' rhs rhs' p p'} : Alike lhs lhs' → Alike rhs rhs' →
      Alike (.binary op lhs rhs p) (.binary op lhs' rhs' p')
  | unary {op operand operand' p p'} : Alike operand operand' →
      Alike (.unary op operand p) (.unary op operand' p')
  | literal {v} : Alike (.literal v) (.literal v)
  | name {x y p p'} : x.Alike R y → Alike (.name x p) (.name y p')

mutual

inductive Stmt.Alike : Stmt → Stmt → Prop where
  | assign {x y value value' p p'} : x.Alike R y → value.Alike R value' →
      Stmt.Alike (.assign x value p) (.assign y value' p')
  | read {targets targets'} : Forall₂ (fun t t' => t.value.Alike R t'.value) targets targets' →
      Stmt.Alike (.read targets) (.read targets')
  | write {values values'} : Forall₂ (Expr.Alike R) values values' →
      Stmt.Alike (.write values) (.write values')
  | call {x y p p'} : x.Alike R y → Stmt.Alike (.call x p) (.call y p')
  | ifThen {c c' s s'} : c.Alike R c' → Stmt.Alike s s' → Stmt.Alike (.ifThen c s) (.ifThen c' s')
  | ifElse {c c' s s' t t'} : c.Alike R c' → Stmt.Alike s s' → Stmt.Alike t t' →
      Stmt.Alike (.ifElse c s t) (.ifElse c' s' t')
  | whileDo {c c' s s'} : c.Alike R c' → Stmt.Alike s s' → Stmt.Alike (.whileDo c s) (.whileDo c' s')
  | sequence {ss ss'} : Stmt.AllAlike ss ss' → Stmt.Alike (.sequence ss) (.sequence ss')
  | ret : Stmt.Alike .ret .ret

inductive Stmt.AllAlike : List Stmt → List Stmt → Prop where
  | nil : Stmt.AllAlike [] []
  | cons {s s' ss ss'} : Stmt.Alike s s' → Stmt.AllAlike ss ss' → Stmt.AllAlike (s :: ss) (s' :: ss')

end

mutual

/-- The same block, up to places and related names. -/
inductive Block.Alike : Block → Block → Prop where
  | mk {level count consts consts' vars vars' ps ps' body body'} :
      Forall₂ (Symbol.Alike R) consts consts' → Forall₂ (Symbol.Alike R) vars vars' →
      Block.AllAlike ps ps' → body.Alike R body' →
      Block.Alike ⟨level, count, consts, vars, ps, body⟩ ⟨level, count, consts', vars', ps', body'⟩

inductive Block.AllAlike : List (Procedure Block) → List (Procedure Block) → Prop where
  | nil : Block.AllAlike [] []
  | cons {x y b b' p p' ps ps'} : x.Alike R y → Block.Alike b b' → Block.AllAlike ps ps' →
      Block.AllAlike (⟨x, b, p⟩ :: ps) (⟨y, b', p'⟩ :: ps')

end

end

variable {R : String → String → Prop}

theorem Token.Alike.flip {t t' : Token} (h : t.Alike R t') : t'.Alike (flip R) t := by
  cases h with
  | ident h => exact .ident h
  | same h => exact .same h

theorem Token.Alike.eq_eof {t : Token} (h : t.Alike R .eof) : t = .eof := by
  cases h
  rfl

theorem Stmt.Alike.isOpen_eq {s s' : Stmt} : s.Alike R s' → s'.isOpen = s.isOpen
  | .ifThen .. => rfl
  | .ifElse _ _ h => h.isOpen_eq
  | .whileDo _ h => h.isOpen_eq
  | .assign .. | .read _ | .write _ | .call _ | .sequence _ | .ret => rfl

namespace Grammar

/-! ## Words -/

/-- The same tokens, up to places and related names. -/
def WordAlike (R : String → String → Prop) : Word → Word → Prop :=
  Forall₂ fun t t' => t.value.Alike R t'.value

theorem forall₂_append_left {α β : Type} {r : α → β → Prop} {u v : List α} {w : List β}
    (h : Forall₂ r (u ++ v) w) : ∃ u' v', w = u' ++ v' ∧ Forall₂ r u u' ∧ Forall₂ r v v' := by
  induction u generalizing w with
  | nil => exact ⟨[], w, rfl, .nil, h⟩
  | cons a u ih =>
      cases h with
      | cons ha h =>
          obtain ⟨u', v', rfl, hu, hv⟩ := ih h
          exact ⟨_ :: u', v', rfl, .cons ha hu, hv⟩

theorem exists_mem_of_forall₂ {α β : Type} {r : α → β → Prop} {l : List α} {l' : List β}
    (h : Forall₂ r l l') {a : α} (ha : a ∈ l) : ∃ b ∈ l', r a b := by
  induction h with
  | nil => simp at ha
  | cons hab _ ih =>
      rcases List.mem_cons.mp ha with rfl | ha
      · exact ⟨_, List.mem_cons_self, hab⟩
      · obtain ⟨b, hb, hab⟩ := ih ha
        exact ⟨b, List.mem_cons_of_mem _ hb, hab⟩

namespace WordAlike

variable {v w w' : Word} {p : Position}

theorem flip (h : WordAlike R w w') : WordAlike (flip R) w' w :=
  List.Forall₂.flip (h.imp fun _ _ ht => ht.flip)

theorem append (h : WordAlike R (v ++ w) w') :
    ∃ v₁ w₁, w' = v₁ ++ w₁ ∧ WordAlike R v v₁ ∧ WordAlike R w w₁ := forall₂_append_left h

theorem nil (h : WordAlike R [] w') : w' = [] := List.forall₂_nil_left_iff.mp h

theorem cons {t : Token} (ht : ∀ n, t ≠ .ident n) (h : WordAlike R (⟨t, p⟩ :: w) w') :
    ∃ p' w₁, w' = ⟨t, p'⟩ :: w₁ ∧ WordAlike R w w₁ := by
  obtain ⟨⟨t', p'⟩, w₁, hhead, hrest, rfl⟩ := List.forall₂_cons_left_iff.mp h
  cases hhead with
  | ident _ => exact absurd rfl (ht _)
  | same _ => exact ⟨p', w₁, rfl, hrest⟩

theorem ident {n : String} (h : WordAlike R (⟨.ident n, p⟩ :: w) w') :
    ∃ n' p' w₁, w' = ⟨.ident n', p'⟩ :: w₁ ∧ R n n' ∧ WordAlike R w w₁ := by
  obtain ⟨⟨t', p'⟩, w₁, hhead, hrest, rfl⟩ := List.forall₂_cons_left_iff.mp h
  cases hhead with
  | ident hn => exact ⟨_, p', w₁, rfl, hn, hrest⟩
  | same hne => exact absurd rfl (hne n)

theorem single {t : Token} (ht : ∀ n, t ≠ .ident n) (h : WordAlike R [⟨t, p⟩] w') :
    ∃ p', w' = [⟨t, p'⟩] := by
  obtain ⟨p', _, rfl, hnil⟩ := h.cons ht
  obtain rfl := hnil.nil
  exact ⟨p', rfl⟩

theorem name {n : String} (h : WordAlike R [⟨.ident n, p⟩] w') :
    ∃ n' p', w' = [⟨.ident n', p'⟩] ∧ R n n' := by
  obtain ⟨n', p', _, rfl, hn, hnil⟩ := h.ident
  obtain rfl := hnil.nil
  exact ⟨n', p', rfl, hn⟩

end WordAlike

/-! ## Scopes -/

abbrev ScopeAlike (R : String → String → Prop) : List Symbol → List Symbol → Prop :=
  Forall₂ (Symbol.Alike R)

abbrev ContextAlike (R : String → String → Prop) : Context → Context → Prop := Forall₂ (ScopeAlike R)

theorem Undeclared.alike (hR : BiUnique R) {scope scope' : List Symbol} {n n' : String}
    (hscope : ScopeAlike R scope scope') (hn : R n n') (h : Undeclared scope n) : Undeclared scope' n' := by
  intro y hy hname
  obtain ⟨x, hx, hxy⟩ := exists_mem_of_forall₂ (List.Forall₂.flip hscope) hy
  have hxn : R x.name n' := hname ▸ hxy.name
  exact h x hx (hR.1 hxn hn)

theorem Denotes.alike (hR : BiUnique R) {Γ Γ' : Context} {n n' : String} {x : Symbol}
    (hΓ : ContextAlike R Γ Γ') (hn : R n n') (h : Denotes Γ n x) : ∃ y, Denotes Γ' n' y ∧ x.Alike R y := by
  obtain ⟨inner, scope, outer, rfl, hx, rfl, hinner⟩ := h
  obtain ⟨inner', Γ₁, rfl, hinner', hΓ₁⟩ := forall₂_append_left hΓ
  obtain ⟨scope', outer', hscope, -, rfl⟩ := List.forall₂_cons_left_iff.mp hΓ₁
  obtain ⟨y, hy, hxy⟩ := exists_mem_of_forall₂ hscope hx
  refine ⟨y, ⟨inner', scope', outer', rfl, hy, hR.2 hxy.name hn, fun s' hs' => ?_⟩, hxy⟩
  obtain ⟨s, hs, hss'⟩ := exists_mem_of_forall₂ (List.Forall₂.flip hinner') hs'
  exact (hinner s hs).alike hR hss' hn

/-! ## Expressions and statements -/

/-- Items that have counterparts make up lists that have one. -/
theorem Separated.alike {α β : Type} {m : Mark} {Item : Word → α → Prop} {Item' : Word → β → Prop}
    {r : α → β → Prop} {w w' : Word} {as : List α} (h : Separated m Item w as)
    (hitem : ∀ v a v', Item v a → WordAlike R v v' → ∃ b, Item' v' b ∧ r a b) (hw : WordAlike R w w') :
    ∃ bs, Separated m Item' w' bs ∧ Forall₂ r as bs := by
  induction h generalizing w' with
  | one h =>
      obtain ⟨b, hb, hab⟩ := hitem _ _ _ h hw
      exact ⟨[b], .one hb, .cons hab .nil⟩
  | more h _ ih =>
      obtain ⟨v₁, _, rfl, hv, hmore⟩ := hw.append
      obtain ⟨p', w₁, rfl, hrest⟩ := hmore.cons (by simp)
      obtain ⟨b, hb, hab⟩ := hitem _ _ _ h hv
      obtain ⟨bs, hbs, habs⟩ := ih hrest
      exact ⟨b :: bs, .more hb hbs, .cons hab habs⟩

variable {Γ Γ' : Context}

mutual

theorem Factor.alike (hR : BiUnique R) (hΓ : ContextAlike R Γ Γ') {w w' : Word} {e : Expr} :
    Factor Γ w e → WordAlike R w w' → ∃ e', Factor Γ' w' e' ∧ e.Alike R e'
  | .name h, hw => by
      obtain ⟨n', p', rfl, hn⟩ := hw.name
      obtain ⟨y, hy, hxy⟩ := h.alike hR hΓ hn
      exact ⟨_, .name hy, .name hxy⟩
  | .number, hw => by
      obtain ⟨p', rfl⟩ := hw.single (by simp)
      exact ⟨_, .number, .literal⟩
  | .paren h, hw => by
      obtain ⟨p', _, rfl, hrest⟩ := hw.cons (by simp)
      obtain ⟨w₁, _, rfl, hinner, hclose⟩ := hrest.append
      obtain ⟨q', rfl⟩ := hclose.single (by simp)
      obtain ⟨e', he', he⟩ := h.alike hR hΓ hinner
      exact ⟨e', .paren he', he⟩

theorem Term.alike (hR : BiUnique R) (hΓ : ContextAlike R Γ Γ') {w w' : Word} {e : Expr} :
    Term Γ w e → WordAlike R w w' → ∃ e', Term Γ' w' e' ∧ e.Alike R e'
  | .factor h, hw => by
      obtain ⟨e', he', he⟩ := h.alike hR hΓ hw
      exact ⟨e', .factor he', he⟩
  | .more h hm hf, hw => by
      obtain ⟨w₁, _, rfl, hleft, hmore⟩ := hw.append
      obtain ⟨p', v₁, rfl, hright⟩ := hmore.cons (by simp)
      obtain ⟨e', he', he⟩ := h.alike hR hΓ hleft
      obtain ⟨f', hf', hf⟩ := hf.alike hR hΓ hright
      exact ⟨_, .more he' hm hf', .binary he hf⟩

theorem Expression.alike (hR : BiUnique R) (hΓ : ContextAlike R Γ Γ') {w w' : Word} {e : Expr} :
    Expression Γ w e → WordAlike R w w' → ∃ e', Expression Γ' w' e' ∧ e.Alike R e'
  | .term h, hw => by
      obtain ⟨e', he', he⟩ := h.alike hR hΓ hw
      exact ⟨e', .term he', he⟩
  | .plus h, hw => by
      obtain ⟨p', w₁, rfl, hrest⟩ := hw.cons (by simp)
      obtain ⟨e', he', he⟩ := h.alike hR hΓ hrest
      exact ⟨e', .plus he', he⟩
  | .minus h, hw => by
      obtain ⟨p', w₁, rfl, hrest⟩ := hw.cons (by simp)
      obtain ⟨e', he', he⟩ := h.alike hR hΓ hrest
      exact ⟨_, .minus he', .binary .literal he⟩
  | .more h hm ht, hw => by
      obtain ⟨w₁, _, rfl, hleft, hmore⟩ := hw.append
      obtain ⟨p', v₁, rfl, hright⟩ := hmore.cons (by simp)
      obtain ⟨e', he', he⟩ := h.alike hR hΓ hleft
      obtain ⟨t', ht', ht⟩ := ht.alike hR hΓ hright
      exact ⟨_, .more he' hm ht', .binary he ht⟩

end

theorem Condition.alike (hR : BiUnique R) (hΓ : ContextAlike R Γ Γ') {w w' : Word} {e : Expr}
    (h : Condition Γ w e) (hw : WordAlike R w w') :
    ∃ e', Condition Γ' w' e' ∧ e.Alike R e' := by
  cases h with
  | odd h =>
      obtain ⟨p', w₁, rfl, hrest⟩ := hw.cons (by simp)
      obtain ⟨e', he', he⟩ := h.alike hR hΓ hrest
      exact ⟨_, .odd he', .unary he⟩
  | comparison h hm hf =>
      obtain ⟨w₁, _, rfl, hleft, hmore⟩ := hw.append
      obtain ⟨p', v₁, rfl, hright⟩ := hmore.cons (by simp)
      obtain ⟨e', he', he⟩ := h.alike hR hΓ hleft
      obtain ⟨f', hf', hf⟩ := hf.alike hR hΓ hright
      exact ⟨_, .comparison he' hm hf', .binary he hf⟩

theorem Use.alike (hR : BiUnique R) (hΓ : ContextAlike R Γ Γ') {w w' : Word} {target : Located Symbol}
    (h : Use Γ w target) (hw : WordAlike R w w') :
    ∃ target', Use Γ' w' target' ∧ target.value.Alike R target'.value := by
  cases h with
  | mk h =>
      obtain ⟨n', p', rfl, hn⟩ := hw.name
      obtain ⟨y, hy, hxy⟩ := h.alike hR hΓ hn
      exact ⟨_, .mk hy, hxy⟩

mutual

theorem Statement.alike (hR : BiUnique R) (hΓ : ContextAlike R Γ Γ') {w w' : Word} {s : Stmt} :
    Statement Γ w s → WordAlike R w w' → ∃ s', Statement Γ' w' s' ∧ s.Alike R s'
  | .empty, hw => by
      obtain rfl := hw.nil
      exact ⟨_, .empty, .sequence .nil⟩
  | .assign hx he, hw => by
      obtain ⟨n', p', _, rfl, hn, hrest⟩ := hw.ident
      obtain ⟨q', w₁, rfl, hvalue⟩ := hrest.cons (by simp)
      obtain ⟨y, hy, hxy⟩ := hx.alike hR hΓ hn
      obtain ⟨e', he', he⟩ := he.alike hR hΓ hvalue
      exact ⟨_, .assign hy he', .assign hxy he⟩
  | .call hx, hw => by
      obtain ⟨q', _, rfl, hrest⟩ := hw.cons (by simp)
      obtain ⟨n', p', rfl, hn⟩ := hrest.name
      obtain ⟨y, hy, hxy⟩ := hx.alike hR hΓ hn
      exact ⟨_, .call hy, .call hxy⟩
  | .read h, hw => by
      obtain ⟨p', w₁, rfl, hrest⟩ := hw.cons (by simp)
      obtain ⟨targets', htargets', htargets⟩ := h.alike (fun _ _ _ h => h.alike hR hΓ) hrest
      exact ⟨_, .read htargets', .read htargets⟩
  | .write h, hw => by
      obtain ⟨p', w₁, rfl, hrest⟩ := hw.cons (by simp)
      obtain ⟨values', hvalues', hvalues⟩ := h.alike (fun _ _ _ h => h.alike hR hΓ) hrest
      exact ⟨_, .write hvalues', .write hvalues⟩
  | .sequence h, hw => by
      obtain ⟨p', _, rfl, hrest⟩ := hw.cons (by simp)
      obtain ⟨w₁, _, rfl, hbody, hend⟩ := hrest.append
      obtain ⟨q', rfl⟩ := hend.single (by simp)
      obtain ⟨ss', hss', hss⟩ := h.alike hR hΓ hbody
      exact ⟨_, .sequence hss', .sequence hss⟩
  | .ifThen hc h, hw => by
      obtain ⟨p', _, rfl, hrest⟩ := hw.cons (by simp)
      obtain ⟨w₁, _, rfl, htest, hthen⟩ := hrest.append
      obtain ⟨q', v₁, rfl, hbody⟩ := hthen.cons (by simp)
      obtain ⟨c', hc', hc⟩ := hc.alike hR hΓ htest
      obtain ⟨s', hs', hs⟩ := h.alike hR hΓ hbody
      exact ⟨_, .ifThen hc' hs', .ifThen hc hs⟩
  | .ifElse hc h hopen h', hw => by
      obtain ⟨_, _, rfl, hfirst, helse⟩ := hw.append
      obtain ⟨p', _, rfl, hrest⟩ := hfirst.cons (by simp)
      obtain ⟨w₁, _, rfl, htest, hthen⟩ := hrest.append
      obtain ⟨q', v₁, rfl, hbody⟩ := hthen.cons (by simp)
      obtain ⟨r', u₁, rfl, halt⟩ := helse.cons (by simp)
      obtain ⟨c', hc', hc⟩ := hc.alike hR hΓ htest
      obtain ⟨s', hs', hs⟩ := h.alike hR hΓ hbody
      obtain ⟨t', ht', ht⟩ := h'.alike hR hΓ halt
      exact ⟨_, .ifElse hc' hs' (hs.isOpen_eq.trans hopen) ht', .ifElse hc hs ht⟩
  | .whileDo hc h, hw => by
      obtain ⟨p', _, rfl, hrest⟩ := hw.cons (by simp)
      obtain ⟨w₁, _, rfl, htest, hdo⟩ := hrest.append
      obtain ⟨q', v₁, rfl, hbody⟩ := hdo.cons (by simp)
      obtain ⟨c', hc', hc⟩ := hc.alike hR hΓ htest
      obtain ⟨s', hs', hs⟩ := h.alike hR hΓ hbody
      exact ⟨_, .whileDo hc' hs', .whileDo hc hs⟩
  | .ret, hw => by
      obtain ⟨p', rfl⟩ := hw.single (by simp)
      exact ⟨_, .ret, .ret⟩

theorem Statements.alike (hR : BiUnique R) (hΓ : ContextAlike R Γ Γ') {w w' : Word} {ss : List Stmt} :
    Statements Γ w ss → WordAlike R w w' → ∃ ss', Statements Γ' w' ss' ∧ Stmt.AllAlike R ss ss'
  | .one h, hw => by
      obtain ⟨s', hs', hs⟩ := h.alike hR hΓ hw
      exact ⟨[s'], .one hs', .cons hs .nil⟩
  | .more h hrest, hw => by
      obtain ⟨w₁, _, rfl, hfirst, hmore⟩ := hw.append
      obtain ⟨p', v₁, rfl, hafter⟩ := hmore.cons (by simp)
      obtain ⟨s', hs', hs⟩ := h.alike hR hΓ hfirst
      obtain ⟨ss', hss', hss⟩ := hrest.alike hR hΓ hafter
      exact ⟨s' :: ss', .more hs' hss', .cons hs hss⟩

end

/-! ## Declarations and blocks -/

theorem Declarations.alike {α β : Type} {k : Keyword} {Item : Word → α → Prop} {Item' : Word → β → Prop}
    {r : α → β → Prop} {w w' : Word} {as : List α} (h : Declarations k Item w as)
    (hitem : ∀ v a v', Item v a → WordAlike R v v' → ∃ b, Item' v' b ∧ r a b) (hw : WordAlike R w w') :
    ∃ bs, Declarations k Item' w' bs ∧ Forall₂ r as bs := by
  cases h with
  | none =>
      obtain rfl := hw.nil
      exact ⟨[], .none, .nil⟩
  | some h =>
      obtain ⟨p', _, rfl, hrest⟩ := hw.cons (by simp)
      obtain ⟨w₁, _, rfl, hitems, hend⟩ := hrest.append
      obtain ⟨q', rfl⟩ := hend.single (by simp)
      obtain ⟨bs, hbs, habs⟩ := h.alike hitem hitems
      exact ⟨bs, .some hbs, habs⟩

theorem Constant.alike {w w' : Word} {x : Symbol} (h : Constant w x) (hw : WordAlike R w w') :
    ∃ y, Constant w' y ∧ x.Alike R y := by
  cases h with
  | mk =>
      obtain ⟨n', p', _, rfl, hn, hrest⟩ := hw.ident
      obtain ⟨q', _, rfl, hvalue⟩ := hrest.cons (by simp)
      obtain ⟨r', rfl⟩ := hvalue.single (by simp)
      exact ⟨_, .mk, hn, rfl⟩

theorem Name.alike {w w' : Word} {n : String} (h : Name w n) (hw : WordAlike R w w') :
    ∃ n', Name w' n' ∧ R n n' := by
  cases h with
  | mk =>
      obtain ⟨n', p', rfl, hn⟩ := hw.name
      exact ⟨n', .mk, hn⟩

theorem slots_alike {names names' : List String} (h : Forall₂ R names names') (level slot : Nat) :
    ScopeAlike R (slots level slot names) (slots level slot names') := by
  induction h generalizing slot with
  | nil => exact .nil
  | cons hn _ ih => exact .cons ⟨hn, rfl⟩ (ih (slot + 1))

theorem ScopeAlike.nodup_iff (hR : BiUnique R) {scope scope' : List Symbol} (h : ScopeAlike R scope scope') :
    (scope.map Symbol.name).Nodup ↔ (scope'.map Symbol.name).Nodup :=
  List.rel_nodup hR (List.rel_map (fun _ _ hxy => hxy.name) h)

mutual

/-- A block of alike words in alike scopes is alike, and gets the same numbers. -/
theorem BlockAt.alike (hR : BiUnique R) {Γ Γ' : Context} {n n' : Nat} {w w' : Word} {b : Block} :
    BlockAt Γ n w b n' → ContextAlike R Γ Γ' → WordAlike R w w' →
    ∃ b', BlockAt Γ' n w' b' n' ∧ b.Alike R b'
  | .mk hcs hvs hnames hps hbody, hΓ, hw => by
      obtain ⟨_, ws, rfl, hw₁, hws⟩ := hw.append
      obtain ⟨_, wp, rfl, hw₂, hwp⟩ := hw₁.append
      obtain ⟨wc, wv, rfl, hwc, hwv⟩ := hw₂.append
      obtain ⟨cs', hcs', hcs⟩ := hcs.alike (fun _ _ _ h => h.alike) hwc
      obtain ⟨names', hvs', hvs⟩ := hvs.alike (fun _ _ _ h => h.alike) hwv
      have hscope := List.rel_append hcs (slots_alike hvs Γ.length 0)
      obtain ⟨ps', scope', hps', hps, hscope'⟩ := hps.alike hR hΓ hscope hwp
      obtain ⟨body', hbody', hbody⟩ := hbody.alike hR (.cons hscope' hΓ) hws
      have hlevel : Γ'.length = Γ.length := hΓ.length_eq.symm
      refine ⟨_, .ofLevel hlevel hcs' hvs' ((ScopeAlike.nodup_iff hR hscope).mp hnames) hps' hbody', ?_⟩
      rw [hvs.length_eq]
      exact .mk hcs (slots_alike hvs Γ.length 0) hps hbody

theorem ProceduresAt.alike (hR : BiUnique R) {Γ Γ' : Context} {scope scope₁ scope' : List Symbol}
    {n n' : Nat} {w w' : Word} {ps : List (Procedure Block)} :
    ProceduresAt Γ scope n w ps scope' n' → ContextAlike R Γ Γ' → ScopeAlike R scope scope₁ →
    WordAlike R w w' →
    ∃ ps' scope₁', ProceduresAt Γ' scope₁ n w' ps' scope₁' n' ∧ Block.AllAlike R ps ps' ∧
      ScopeAlike R scope' scope₁'
  | .nil, _, hscope, hw => by
      obtain rfl := hw.nil
      exact ⟨[], _, .nil, .nil, hscope⟩
  | @ProceduresAt.cons _ _ n name _ _ _ _ _ _ _ _ _ _ _ hnew hblock hps, hΓ, hscope, hw => by
      obtain ⟨q', _, rfl, hrest⟩ := hw.cons (by simp)
      obtain ⟨name', p', _, rfl, hname, hafter⟩ := hrest.ident
      obtain ⟨r', _, rfl, hbody⟩ := hafter.cons (by simp)
      obtain ⟨w₁, _, rfl, hw₁, hend⟩ := hbody.append
      obtain ⟨s', v₁, rfl, hv₁⟩ := hend.cons (by simp)
      have hsymbol : Symbol.Alike R ⟨name, .proc Γ.length n⟩ ⟨name', .proc Γ'.length n⟩ :=
        ⟨hname, by rw [hΓ.length_eq]⟩
      have hextended := List.rel_append hscope (List.Forall₂.cons hsymbol .nil)
      obtain ⟨b', hb', hb⟩ := hblock.alike hR (.cons hextended hΓ) hw₁
      obtain ⟨ps', scope₁', hps', hps, hscope'⟩ := hps.alike hR hΓ hextended hv₁
      exact ⟨_, scope₁', .cons (hnew.alike hR hscope hname) hb' hps', .cons hsymbol hb hps, hscope'⟩

end

end Grammar

end PLZero
