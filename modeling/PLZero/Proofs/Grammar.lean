import PLZero.Tree

/-!
# The grammar

Which lists of tokens are programs, and the tree that each of them stands for. A word of the grammar is
a list of located tokens; a derivation says how a word is put together from shorter ones, and names are
bound by the declarations around them. Nothing here looks ahead or chooses an order of reading.

The tree of a word keeps the places of names, operators and declared procedures. Procedures are
numbered in the order in which their declarations start.
-/

namespace PLZero

/-- A statement that ends in an `if` without `else`: an `else` after it belongs to that `if`. -/
def Stmt.isOpen : Stmt → Bool
  | .ifThen .. => true
  | .ifElse _ _ alternative => alternative.isOpen
  | .whileDo _ body => body.isOpen
  | _ => false

namespace Grammar

/-- Tokens with their places. -/
abbrev Word := List (Located Token)

/-- The symbols that are declared so far in each open scope, the innermost scope first. -/
abbrev Context := List (List Symbol)

/-- No symbol of a scope has the name. -/
def Undeclared (scope : List Symbol) (name : String) : Prop := ∀ s ∈ scope, s.name ≠ name

/-- The name denotes the symbol: it is declared so in the innermost scope that declares the name. -/
def Denotes (Γ : Context) (name : String) (symbol : Symbol) : Prop :=
  ∃ inner scope outer, Γ = inner ++ scope :: outer ∧ symbol ∈ scope ∧ symbol.name = name ∧
    ∀ s ∈ inner, Undeclared s name

/-- One or more items with a mark between them. -/
inductive Separated {α : Type} (separator : Mark) (Item : Word → α → Prop) : Word → List α → Prop where
  | one {w a} : Item w a → Separated separator Item w [a]
  | more {w a p v as} : Item w a → Separated separator Item v as →
      Separated separator Item (w ++ ⟨.mark separator, p⟩ :: v) (a :: as)

/-! ## Expressions -/

inductive Use (Γ : Context) : Word → Located Symbol → Prop where
  | mk {n s p} : Denotes Γ n s → Use Γ [⟨.ident n, p⟩] ⟨s, p⟩

mutual

/-- `ident | number | "(" expression ")"` -/
inductive Factor (Γ : Context) : Word → Expr → Prop where
  | name {n s p} : Denotes Γ n s → Factor Γ [⟨.ident n, p⟩] (.name s p)
  | number {v p} : Factor Γ [⟨.number v, p⟩] (.literal v)
  | paren {p w e q} : Expression Γ w e →
      Factor Γ (⟨.mark .lparen, p⟩ :: w ++ [⟨.mark .rparen, q⟩]) e

/-- `factor {("*" | "/") factor}`, grouped to the left. -/
inductive Term (Γ : Context) : Word → Expr → Prop where
  | factor {w e} : Factor Γ w e → Term Γ w e
  | more {w e m p v f} : Term Γ w e → m = Mark.star ∨ m = Mark.slash → Factor Γ v f →
      Term Γ (w ++ ⟨.mark m, p⟩ :: v) (.binary (.mark m) e f p)

/-- `["+" | "-"] term {("+" | "-") term}`, grouped to the left. A minus in front subtracts the first
term from zero, a plus in front leaves it as it is. -/
inductive Expression (Γ : Context) : Word → Expr → Prop where
  | term {w e} : Term Γ w e → Expression Γ w e
  | plus {p w e} : Term Γ w e → Expression Γ (⟨.mark .plus, p⟩ :: w) e
  | minus {p w e} : Term Γ w e →
      Expression Γ (⟨.mark .minus, p⟩ :: w) (.binary (.mark .minus) (.literal 0) e p)
  | more {w e m p v t} : Expression Γ w e → m = Mark.plus ∨ m = Mark.minus → Term Γ v t →
      Expression Γ (w ++ ⟨.mark m, p⟩ :: v) (.binary (.mark m) e t p)

end

/-- `"odd" expression | expression relop expression` -/
inductive Condition (Γ : Context) : Word → Expr → Prop where
  | odd {p w e} : Expression Γ w e →
      Condition Γ (⟨.keyword .odd, p⟩ :: w) (.unary (.keyword .odd) e p)
  | comparison {w e m p v f} : Expression Γ w e → Mark.isRelational m = true → Expression Γ v f →
      Condition Γ (w ++ ⟨.mark m, p⟩ :: v) (.binary (.mark m) e f p)

/-! ## Statements -/

mutual

/-- A statement; it may be empty. An `else` belongs to the nearest `if` that has none yet, so what
stands between `then` and `else` does not end in such an `if`. -/
inductive Statement (Γ : Context) : Word → Stmt → Prop where
  | empty : Statement Γ [] (.sequence [])
  | assign {n s p q w e} : Denotes Γ n s → Expression Γ w e →
      Statement Γ (⟨.ident n, p⟩ :: ⟨.mark .assign, q⟩ :: w) (.assign s e p)
  | call {n s p q} : Denotes Γ n s → Statement Γ [⟨.keyword .call, q⟩, ⟨.ident n, p⟩] (.call s p)
  | read {p w targets} : Separated .comma (Use Γ) w targets →
      Statement Γ (⟨.keyword .read, p⟩ :: w) (.read targets)
  | write {p w values} : Separated .comma (Expression Γ) w values →
      Statement Γ (⟨.keyword .write, p⟩ :: w) (.write values)
  | sequence {p w body q} : Statements Γ w body →
      Statement Γ (⟨.keyword .«begin», p⟩ :: w ++ [⟨.keyword .«end», q⟩]) (.sequence body)
  | ifThen {p w c q v s} : Condition Γ w c → Statement Γ v s →
      Statement Γ (⟨.keyword .«if», p⟩ :: w ++ ⟨.keyword .«then», q⟩ :: v) (.ifThen c s)
  | ifElse {p w c q v s r u t} : Condition Γ w c → Statement Γ v s → s.isOpen = false →
      Statement Γ u t →
      Statement Γ (⟨.keyword .«if», p⟩ :: w ++ ⟨.keyword .«then», q⟩ :: v ++ ⟨.keyword .«else», r⟩ :: u)
        (.ifElse c s t)
  | whileDo {p w c q v s} : Condition Γ w c → Statement Γ v s →
      Statement Γ (⟨.keyword .«while», p⟩ :: w ++ ⟨.keyword .«do», q⟩ :: v) (.whileDo c s)
  | ret {p} : Statement Γ [⟨.keyword .«return», p⟩] .ret

/-- `statement {";" statement}` -/
inductive Statements (Γ : Context) : Word → List Stmt → Prop where
  | one {w s} : Statement Γ w s → Statements Γ w [s]
  | more {w s p v ss} : Statement Γ w s → Statements Γ v ss →
      Statements Γ (w ++ ⟨.mark .semicolon, p⟩ :: v) (s :: ss)

end

/-! ## Declarations -/

/-- `ident "=" number` -/
inductive Constant : Word → Symbol → Prop where
  | mk {n p q v r} : Constant [⟨.ident n, p⟩, ⟨.mark .eq, q⟩, ⟨.number v, r⟩] ⟨n, .const v⟩

/-- `ident` -/
inductive Name : Word → String → Prop where
  | mk {n p} : Name [⟨.ident n, p⟩] n

/-- `[keyword item {"," item} ";"]` -/
inductive Declarations {α : Type} (keyword : Keyword) (Item : Word → α → Prop) :
    Word → List α → Prop where
  | none : Declarations keyword Item [] []
  | some {p w as q} : Separated .comma Item w as →
      Declarations keyword Item (⟨.keyword keyword, p⟩ :: w ++ [⟨.mark .semicolon, q⟩]) as

/-- The variables with the given names, in slots from `slot` on. -/
def slots (level slot : Nat) : List String → List Symbol
  | [] => []
  | name :: names => ⟨name, .var level slot⟩ :: slots level (slot + 1) names

mutual

/-- A block in the scopes `Γ`, whose first procedure gets the number `n`; `n'` is left for the next one
after the block. Its names are pairwise distinct. -/
inductive BlockAt : Context → Nat → Word → Block → Nat → Prop where
  | mk {Γ n wc cs wv names wp ps scope n' ws body} :
      Declarations .const Constant wc cs → Declarations .var Name wv names →
      ((cs ++ slots Γ.length 0 names).map Symbol.name).Nodup →
      ProceduresAt Γ (cs ++ slots Γ.length 0 names) n wp ps scope n' →
      Statement (scope :: Γ) ws body →
      BlockAt Γ n (wc ++ wv ++ wp ++ ws)
        ⟨Γ.length, names.length, cs, slots Γ.length 0 names, ps, body⟩ n'

/-- `{"procedure" ident ";" block ";"}` in a block whose own scope holds `scope` before them and
`scope'` after them. A procedure is visible in its own block and after it. -/
inductive ProceduresAt : Context → List Symbol → Nat → Word → List (Procedure Block) →
    List Symbol → Nat → Prop where
  | nil {Γ scope n} : ProceduresAt Γ scope n [] [] scope n
  | cons {Γ scope n name p q r s w block n₁ v ps scope' n'} :
      Undeclared scope name →
      BlockAt ((scope ++ [⟨name, .proc Γ.length n⟩]) :: Γ) (n + 1) w block n₁ →
      ProceduresAt Γ (scope ++ [⟨name, .proc Γ.length n⟩]) n₁ v ps scope' n' →
      ProceduresAt Γ scope n
        (⟨.keyword .procedure, q⟩ :: ⟨.ident name, p⟩ :: ⟨.mark .semicolon, r⟩ :: w
          ++ ⟨.mark .semicolon, s⟩ :: v)
        (⟨⟨name, .proc Γ.length n⟩, block, p⟩ :: ps) scope' n'

end

/-- A block, given the number of scopes around it. -/
theorem BlockAt.ofLevel {Γ : Context} {level n : Nat} {wc cs wv names wp ps scope n' ws body}
    (hlevel : Γ.length = level) (hwc : Declarations .const Constant wc cs)
    (hwv : Declarations .var Name wv names)
    (hnames : ((cs ++ slots level 0 names).map Symbol.name).Nodup)
    (hps : ProceduresAt Γ (cs ++ slots level 0 names) n wp ps scope n')
    (hbody : Statement (scope :: Γ) ws body) :
    BlockAt Γ n (wc ++ wv ++ wp ++ ws) ⟨level, names.length, cs, slots level 0 names, ps, body⟩ n' := by
  subst hlevel
  exact .mk hwc hwv hnames hps hbody

/-- `block "." EOF` -/
inductive Program : Word → Block → Prop where
  | mk {w block n p q} : BlockAt [] 0 w block n → Program (w ++ [⟨.mark .period, p⟩, ⟨.eof, q⟩]) block

end Grammar

end PLZero
