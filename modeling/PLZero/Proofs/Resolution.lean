import PLZero.Proofs.Layout.Nesting

/-!
# Names and the blocks that declare them

What the compiler takes on trust from a tree of the grammar. Levels count the blocks around a block, slots
count its variables, and the symbol at each use of a name is the one that a block around the use declares:
a variable has its slot there, a procedure its place. The procedures of a program are numbered in the
order of their code, so that an id has one place.
-/

namespace PLZero

open Grammar

/-! ## Well-resolved trees -/

namespace Block

/-- The symbols that a block declares. -/
def declared (b : Block) : List Symbol := b.consts ++ b.vars ++ b.procedures.map Procedure.symbol

/-- The block declares the symbol, at its own level; a variable has a slot there, a procedure a block. -/
def Declares (b : Block) (x : Symbol) : Prop :=
  x ∈ b.declared ∧
    match x.binding with
    | .var level slot => level = b.level ∧ slot < b.variableCount
    | .const _ => True
    | .proc level _ => level = b.level ∧ ∃ p ∈ b.procedures, p.symbol = x

/-- What holds of a block within the blocks `outer`, the innermost first. -/
structure Consistent (outer : List Block) (b : Block) : Prop where
  level_eq : b.level = outer.length
  count_eq : b.variableCount = b.vars.length
  var_eq : ∀ (i : Nat) (x : Symbol), b.vars[i]? = some x → x.binding = .var b.level i
  const_eq : ∀ x ∈ b.consts, ∃ v, x.binding = .const v
  proc_eq : ∀ p ∈ b.procedures, ∃ id, p.symbol.binding = .proc b.level id
  nodup : (b.declared.map Symbol.name).Nodup
  uses : b.body.Uses fun _ x => ∃ t ∈ b :: outer, t.level ≤ b.level ∧ t.Declares x

/-- A block and all procedures in it are consistent with the blocks around them. -/
inductive WellResolved : List Block → Block → Prop where
  | mk {outer b} : Consistent outer b → (∀ p ∈ b.procedures, WellResolved (b :: outer) p.block) →
      WellResolved outer b

end Block

/-! ## Scopes of the grammar -/

/-- The symbol is one of the scope, or a procedure of the list at the given level. -/
def Known (scope : List Symbol) (level : Nat) (ps : List (Procedure Block)) (x : Symbol) : Prop :=
  x ∈ scope ∨ (∃ id, x.binding = .proc level id) ∧ ∃ p ∈ ps, p.symbol = x

theorem Known.cons {scope : List Symbol} {level : Nat} {p : Procedure Block} {ps : List (Procedure Block)}
    {x : Symbol} (hp : ∃ id, p.symbol.binding = .proc level id)
    (h : Known (scope ++ [p.symbol]) level ps x) : Known scope level (p :: ps) x := by
  rcases h with hx | ⟨hid, q, hq, heq⟩
  · rcases List.mem_append.mp hx with hx | hx
    · exact .inl hx
    · obtain rfl := List.mem_singleton.mp hx
      exact .inr ⟨hp, p, List.mem_cons_self, rfl⟩
  · exact .inr ⟨hid, q, List.mem_cons_of_mem _ hq, heq⟩

theorem Grammar.ProceduresAt.known {Γ : Context} {scope scope' : List Symbol} {n n' : Nat} {w : Word}
    {ps : List (Procedure Block)} : ProceduresAt Γ scope n w ps scope' n' →
    ∀ x ∈ scope', Known scope Γ.length ps x
  | .nil => fun _ hx => .inl hx
  | .cons _ _ hps => fun x hx => .cons ⟨_, rfl⟩ (hps.known x hx)

theorem Grammar.ProceduresAt.scope_eq {Γ : Context} {scope scope' : List Symbol} {n n' : Nat} {w : Word}
    {ps : List (Procedure Block)} :
    ProceduresAt Γ scope n w ps scope' n' → scope' = scope ++ ps.map Procedure.symbol
  | .nil => by simp
  | .cons _ _ hps => by
      rw [hps.scope_eq]
      simp

theorem Grammar.ProceduresAt.binding {Γ : Context} {scope scope' : List Symbol} {n n' : Nat} {w : Word}
    {ps : List (Procedure Block)} : ProceduresAt Γ scope n w ps scope' n' →
    ∀ p ∈ ps, ∃ id, p.symbol.binding = .proc Γ.length id
  | .nil => by simp
  | .cons _ _ hps => List.forall_mem_cons.mpr ⟨⟨_, rfl⟩, hps.binding⟩

theorem Grammar.ProceduresAt.nodup {Γ : Context} {scope scope' : List Symbol} {n n' : Nat} {w : Word}
    {ps : List (Procedure Block)} : ProceduresAt Γ scope n w ps scope' n' →
    (scope.map Symbol.name).Nodup → (scope'.map Symbol.name).Nodup
  | .nil, h => h
  | .cons hnew _ hps, h => by
      refine hps.nodup ?_
      simp only [List.map_append, List.map_cons, List.map_nil, List.nodup_append]
      refine ⟨h, by simp, ?_⟩
      intro a ha b hb
      obtain ⟨x, hx, rfl⟩ := List.mem_map.mp ha
      obtain rfl := List.mem_singleton.mp hb
      exact hnew x hx

namespace Grammar

theorem isConst_of_mem {k : Keyword} {w : Word} {cs : List Symbol} (h : Declarations k Constant w cs) :
    ∀ x ∈ cs, ∃ v, x.binding = .const v := by
  cases h with
  | none => simp
  | some h =>
      induction h with
      | one h =>
          cases h
          simp
      | more h _ ih =>
          cases h
          exact List.forall_mem_cons.mpr ⟨⟨_, rfl⟩, ih⟩

theorem slot_of_mem {level slot : Nat} {names : List String} {x : Symbol}
    (h : x ∈ slots level slot names) : ∃ i, x.binding = .var level i ∧ i < slot + names.length := by
  induction names generalizing slot with
  | nil => simp [slots] at h
  | cons n names ih =>
      rw [slots, List.mem_cons] at h
      rw [List.length_cons]
      rcases h with rfl | h
      · exact ⟨slot, rfl, by omega⟩
      · obtain ⟨i, hi, hlt⟩ := ih h
        exact ⟨i, hi, by omega⟩

theorem binding_of_getElem?_slots {level slot i : Nat} {names : List String} {x : Symbol}
    (h : (slots level slot names)[i]? = some x) : x.binding = .var level (slot + i) := by
  induction names generalizing slot i with
  | nil => simp [slots] at h
  | cons name names ih =>
      cases i with
      | zero =>
          obtain rfl : _ = x := by simpa [slots] using h
          rfl
      | succ i =>
          rw [slots, List.getElem?_cons_succ] at h
          rw [ih h, Nat.add_right_comm, Nat.add_assoc]

@[simp] theorem length_slots (level slot : Nat) (names : List String) :
    (slots level slot names).length = names.length := by
  induction names generalizing slot with
  | nil => rfl
  | cons name names ih => simp [slots, ih]

theorem declares_of_known {level : Nat} {k : Keyword} {w : Word} {cs : List Symbol} {names : List String}
    {ps : List (Procedure Block)} {body : Stmt} {x : Symbol} (hcs : Declarations k Constant w cs)
    (h : Known (cs ++ slots level 0 names) level ps x) :
    Block.Declares ⟨level, names.length, cs, slots level 0 names, ps, body⟩ x := by
  rcases h with hx | ⟨⟨id, hid⟩, p, hp, rfl⟩
  · refine ⟨List.mem_append_left _ hx, ?_⟩
    rcases List.mem_append.mp hx with hx | hx
    · obtain ⟨v, hv⟩ := isConst_of_mem hcs x hx
      simp only [hv]
    · obtain ⟨i, hi, hlt⟩ := slot_of_mem hx
      simp only [hi]
      exact ⟨trivial, by simpa using hlt⟩
  · refine ⟨List.mem_append_right _ (List.mem_map_of_mem hp), ?_⟩
    simp only [hid]
    exact ⟨trivial, p, hp, rfl⟩

end Grammar

/-! ## Blocks and their scopes -/

/-- Each scope of the context holds declarations of the block at its place in the chain. -/
inductive Scoped : List Block → Context → Prop where
  | nil : Scoped [] []
  | cons {t outer scope Γ} : t.level = outer.length → (∀ x ∈ scope, t.Declares x) → Scoped outer Γ →
      Scoped (t :: outer) (scope :: Γ)

namespace Scoped

variable {chain : List Block} {Γ : Context}

theorem length_eq (h : Scoped chain Γ) : Γ.length = chain.length := by
  induction h with
  | nil => rfl
  | cons _ _ _ ih => simp [ih]

theorem declares (h : Scoped chain Γ) {name : String} {x : Symbol} (hx : Denotes Γ name x) :
    ∃ t ∈ chain, t.level < chain.length ∧ t.Declares x := by
  obtain ⟨inner, scope, outer, rfl, hmem, -, -⟩ := hx
  induction inner generalizing chain with
  | nil =>
      cases h with
      | @cons t _ _ _ hlevel hscope _ => exact ⟨t, by simp, by simp [hlevel], hscope x hmem⟩
  | cons s inner ih =>
      cases h with
      | cons _ _ h =>
          obtain ⟨t, ht, hlt, hx⟩ := ih h
          exact ⟨t, List.mem_cons_of_mem _ ht, Nat.lt_succ_of_lt hlt, hx⟩

end Scoped

namespace Grammar

mutual

/-- The tree of a block is well resolved within blocks that declare what is in scope. -/
theorem BlockAt.wellResolved {Γ : Context} {n n' : Nat} {w : Word} {b : Block} {outer : List Block} :
    BlockAt Γ n w b n' → Scoped outer Γ → b.WellResolved outer
  | @BlockAt.mk _ _ wc cs wv names wp ps scope _ ws body hcs hvs hnames hps hbody, hscoped => by
      have hdeclares : ∀ x, Known (cs ++ slots Γ.length 0 names) Γ.length ps x →
          Block.Declares ⟨Γ.length, names.length, cs, slots Γ.length 0 names, ps, body⟩ x :=
        fun _ => declares_of_known hcs
      have hown : Scoped (⟨Γ.length, names.length, cs, slots Γ.length 0 names, ps, body⟩ :: outer)
          (scope :: Γ) :=
        .cons hscoped.length_eq (fun x hx => hdeclares x (hps.known x hx)) hscoped
      refine .mk ⟨hscoped.length_eq, by simp, fun i x hx => ?_, isConst_of_mem hcs, hps.binding, ?_, ?_⟩
        (hps.wellResolved rfl hdeclares hscoped)
      · simpa using binding_of_getElem?_slots hx
      · have hnodup := hps.nodup hnames
        rwa [hps.scope_eq] at hnodup
      · refine hbody.uses fun _ _ x hx => ?_
        obtain ⟨t, ht, hlt, hx⟩ := hown.declares hx
        refine ⟨t, ht, ?_, hx⟩
        rw [List.length_cons, ← hscoped.length_eq] at hlt
        exact Nat.le_of_lt_succ hlt

theorem ProceduresAt.wellResolved {Γ : Context} {scope scope' : List Symbol} {n n' : Nat} {w : Word}
    {ps : List (Procedure Block)} {b : Block} {outer : List Block} : ProceduresAt Γ scope n w ps scope' n' →
    b.level = Γ.length → (∀ x, Known scope Γ.length ps x → b.Declares x) → Scoped outer Γ →
    ∀ p ∈ ps, p.block.WellResolved (b :: outer)
  | .nil, _, _, _ => by simp
  | .cons _ hblock hps, hlevel, hknown, hscoped => by
      refine List.forall_mem_cons.mpr ⟨?_, ?_⟩
      · exact hblock.wellResolved (.cons (hlevel.trans hscoped.length_eq)
          (fun x hx => hknown x (.cons ⟨_, rfl⟩ (.inl hx))) hscoped)
      · exact hps.wellResolved hlevel (fun x hx => hknown x (.cons ⟨_, rfl⟩ hx)) hscoped

end

end Grammar

/-! ## Declarations in a chain -/

/-- The symbol is declared by a block of the chain, whose level is the number of blocks around it. -/
def Visible (chain : List Placed) (x : Symbol) : Prop :=
  ∃ inner t outer, chain = inner ++ t :: outer ∧ t.block.level = outer.length ∧ t.block.Declares x

theorem Placed.exists_mem_list {ps : List (Procedure Block)} {p : Procedure Block} (h : p ∈ ps)
    (entry : Nat) : ∃ t, (p.symbol, t) ∈ Placed.list entry ps := by
  induction ps generalizing entry with
  | nil => simp at h
  | cons q rest ih =>
      rcases List.mem_cons.mp h with rfl | h
      · exact ⟨_, List.mem_cons_self⟩
      · obtain ⟨t, ht⟩ := ih h (entry + q.block.size)
        exact ⟨t, List.mem_cons_of_mem _ ht⟩

theorem Placed.exists_procedure {entry : Nat} {ps : List (Procedure Block)} {x : Symbol} {t : Placed}
    (h : (x, t) ∈ Placed.list entry ps) : ∃ p ∈ ps, p.symbol = x ∧ p.block = t.block := by
  induction ps generalizing entry with
  | nil => simp [Placed.list] at h
  | cons q rest ih =>
      rw [Placed.list, List.mem_cons] at h
      rcases h with h | h
      · cases h
        exact ⟨q, List.mem_cons_self, rfl, rfl⟩
      · obtain ⟨p, hp, heq⟩ := ih h
        exact ⟨p, List.mem_cons_of_mem _ hp, heq⟩

namespace Visible

variable {chain : List Placed} {x : Symbol} {level : Nat}

/-- A variable has its slot in the block that declares it. -/
theorem exists_slot (h : Visible chain x) {slot : Nat} (hx : x.binding = .var level slot) :
    ∃ inner t outer, chain = inner ++ t :: outer ∧ level = outer.length ∧ slot < t.block.variableCount := by
  obtain ⟨inner, t, outer, hchain, hlevel, -, hdeclares⟩ := h
  simp only [hx] at hdeclares
  exact ⟨inner, t, outer, hchain, hdeclares.1.trans hlevel, hdeclares.2⟩

/-- A procedure has its place in the block that declares it. -/
theorem exists_place (h : Visible chain x) {id : Nat} (hx : x.binding = .proc level id) :
    ∃ inner t outer u, chain = inner ++ t :: outer ∧ level = outer.length ∧ (x, u) ∈ t.procedures := by
  obtain ⟨inner, t, outer, hchain, hlevel, -, hdeclares⟩ := h
  simp only [hx] at hdeclares
  obtain ⟨hdeclared, p, hp, rfl⟩ := hdeclares
  obtain ⟨u, hu⟩ := Placed.exists_mem_list hp t.inner
  exact ⟨inner, t, outer, u, hchain, hdeclared.trans hlevel, hu⟩

end Visible

namespace Nest

variable {program : Block} {s : Placed} {outer : List Placed}

/-- Every block of a well-resolved program is well resolved within the blocks around it. -/
theorem wellResolved (h : Nest program (s :: outer)) (hprogram : program.WellResolved []) :
    s.block.WellResolved (outer.map Placed.block) := by
  induction outer generalizing s with
  | nil =>
      cases h with
      | program => exact hprogram
  | cons u outer ih =>
      obtain ⟨hu, x, hx⟩ := h.tail
      obtain ⟨p, hp, -, hblock⟩ := Placed.exists_procedure hx
      cases ih hu with
      | mk _ hinner =>
          rw [← hblock]
          exact hinner p hp

theorem consistent (h : Nest program (s :: outer)) (hprogram : program.WellResolved []) :
    s.block.Consistent (outer.map Placed.block) := by
  cases h.wellResolved hprogram with
  | mk hconsistent _ => exact hconsistent

theorem level_eq (h : Nest program (s :: outer)) (hprogram : program.WellResolved []) :
    s.block.level = outer.length := by
  rw [(h.consistent hprogram).level_eq, List.length_map]

/-- The names in the body of a block are declared in the block or around it. -/
theorem uses_visible (h : Nest program (s :: outer)) (hprogram : program.WellResolved []) :
    s.block.body.Uses fun _ x => Visible (s :: outer) x := by
  refine (h.consistent hprogram).uses.imp ?_
  rintro _ x ⟨b, hb, -, hx⟩
  rw [← List.map_cons (f := Placed.block)] at hb
  obtain ⟨t, ht, rfl⟩ := List.mem_map.mp hb
  obtain ⟨inner, around, hchain⟩ := List.append_of_mem ht
  rw [hchain] at h ⊢
  exact ⟨inner, t, around, rfl, h.suffix.level_eq hprogram, hx⟩

end Nest

/-! ## Numbers of procedures -/

mutual

/-- The procedures of a block are numbered in the order of their code. -/
theorem Grammar.BlockAt.ids {Γ : Context} {n n' : Nat} {w : Word} {b : Block} (entry : Nat) :
    BlockAt Γ n w b n' →
    n ≤ n' ∧ (b.places entry).map (fun p => p.1.procedureId) = List.range' n (n' - n)
  | .mk _ _ _ hps _ => hps.ids _

theorem Grammar.ProceduresAt.ids {Γ : Context} {scope scope' : List Symbol} {n n' : Nat} {w : Word}
    {ps : List (Procedure Block)} (entry : Nat) : ProceduresAt Γ scope n w ps scope' n' →
    n ≤ n' ∧ (Block.placesIn entry ps).map (fun p => p.1.procedureId) = List.range' n (n' - n)
  | .nil => by simp [Block.placesIn]
  | @ProceduresAt.cons _ _ n _ _ _ _ _ _ block n₁ _ _ _ _ _ hblock hps => by
      obtain ⟨hle, hids⟩ := hblock.ids entry
      obtain ⟨hle', hids'⟩ := hps.ids (entry + block.size)
      obtain ⟨a, rfl⟩ := Nat.exists_eq_add_of_le hle
      obtain ⟨b, rfl⟩ := Nat.exists_eq_add_of_le hle'
      refine ⟨by omega, ?_⟩
      simp only [Block.placesIn, List.map_cons, List.map_append, hids, hids', Nat.add_sub_cancel_left]
      rw [List.range'_append_1, show n + 1 + a + b - n = a + b + 1 by omega, List.range'_succ]
      rfl

end

theorem Grammar.BlockAt.nodup_ids {w : Word} {program : Block} {k : Nat} (h : BlockAt [] 0 w program k) :
    ((program.places 0).map fun p => p.1.procedureId).Nodup := by
  rw [(h.ids 0).2]
  exact List.nodup_range'

theorem lookup_of_mem {α β : Type} [DecidableEq α] {l : List (α × β)} {a : α} {b : β}
    (hl : (l.map Prod.fst).Nodup) (h : (a, b) ∈ l) : l.lookup a = some b := by
  obtain ⟨front, back, rfl⟩ := List.append_of_mem h
  rw [List.lookup_eq_some_iff]
  refine ⟨front, back, rfl, ?_⟩
  rw [List.map_append, List.nodup_append] at hl
  intro p hp
  have := hl.2.2 p.1 (List.mem_map_of_mem hp) a (by simp)
  simpa using this.symm

/-- The entry that is recorded for the id of a procedure is that of its place. -/
theorem Block.lookup_entries {program : Block} {x : Symbol} {t : Placed}
    (hids : ((program.places 0).map fun p => p.1.procedureId).Nodup) (h : (x, t) ∈ program.places 0) :
    program.entries.lookup x.procedureId = some t.entry := by
  refine lookup_of_mem ?_ ?_
  · rw [Block.entries, List.map_reverse, (List.reverse_perm _).nodup_iff, List.map_map]
    exact hids
  · rw [Block.entries, List.mem_reverse]
    exact List.mem_map_of_mem (f := Placed.record) h

theorem Block.linkage_eq {program : Block} {x : Symbol} {t : Placed} {declared id : Nat}
    (hids : ((program.places 0).map fun p => p.1.procedureId).Nodup) (h : (x, t) ∈ program.places 0)
    (hx : x.binding = .proc declared id) (level : Nat) :
    program.linkage level x = ⟨.call, .ofNat level - .ofNat declared, .ofNat t.entry⟩ := by
  have hentry := Block.lookup_entries hids h
  simp only [Symbol.procedureId, hx] at hentry
  simp only [Block.linkage, hx, hentry]

end PLZero
