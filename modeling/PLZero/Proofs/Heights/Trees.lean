import Mathlib
import PLZero.Proofs.Heights
import PLZero.Proofs.Layout.Segments

/-!
# Heights in the code of a tree

An expression leaves one value and, until then, adds at most as many as it needs. A statement leaves none.
So the count along the code of a program is zero wherever a statement starts and wherever a block is entered,
left or called.
-/

namespace PLZero

/-! ## Counting along instructions -/

namespace Instr

/-- The height after some instructions. -/
def rise (n : Nat) (instrs : List Instr) : Nat := instrs.foldl after n

/-- The greatest height before, between and after some instructions. -/
def peak (n : Nat) : List Instr → Nat
  | [] => n
  | i :: rest => max n (peak (i.after n) rest)

variable {n : Nat} {i : Instr} {is js : List Instr}

@[simp] theorem rise_nil : rise n [] = n := rfl

@[simp] theorem rise_cons : rise n (i :: is) = rise (i.after n) is := rfl

@[simp] theorem rise_append : rise n (is ++ js) = rise (rise n is) js := List.foldl_append

@[simp] theorem peak_nil : peak n [] = n := rfl

@[simp] theorem peak_cons : peak n (i :: is) = max n (peak (i.after n) is) := rfl

theorem le_peak : n ≤ peak n is := by
  cases is <;> simp

@[simp] theorem peak_append : peak n (is ++ js) = max (peak n is) (peak (rise n is) js) := by
  induction is generalizing n with
  | nil => simp [le_peak]
  | cons i is ih => simp [ih, Nat.max_assoc]

theorem rise_le_peak : rise n is ≤ peak n is := by
  induction is generalizing n with
  | nil => exact Nat.le_refl _
  | cons i is ih => exact Nat.le_trans ih (Nat.le_max_right _ _)

@[simp] theorem after_loadConst {level address : Int64} : after n ⟨.loadConst, level, address⟩ = n + 1 := rfl

@[simp] theorem after_loadVar {level address : Int64} : after n ⟨.loadVar, level, address⟩ = n + 1 := rfl

@[simp] theorem after_storeVar {level address : Int64} : after n ⟨.storeVar, level, address⟩ = n - 1 := rfl

@[simp] theorem after_jumpIfFalse {level address : Int64} : after n ⟨.jumpIfFalse, level, address⟩ = n - 1 := rfl

@[simp] theorem after_jump {level address : Int64} : after n ⟨.jump, level, address⟩ = n := rfl

@[simp] theorem after_enter {level address : Int64} : after n ⟨.enter, level, address⟩ = n := rfl

@[simp] theorem after_operate (op : Operator) : after n (.operate op) = n - op.pops + op.pushes := by
  simp [after, pops, pushes, Instr.operate, Operator.ofCode?_code]

theorem after_call (h : i.opcode = .call) : after n i = n := by
  simp [after, pops, pushes, h]

end Instr

theorem Code.Holds.height {code : Code} {pc : Nat} {instrs : List Instr} (h : code.Holds pc instrs) :
    code.height (pc + instrs.length) = Instr.rise (code.height pc) instrs := by
  obtain ⟨pre, post, hcode, rfl⟩ := h
  have hpre : (pre ++ instrs ++ post).take pre.length = pre := by simp
  have hinstrs : (pre ++ instrs ++ post).take (pre.length + instrs.length) = pre ++ instrs := by
    rw [← List.length_append, List.take_left]
  simp only [Code.height, hcode, hpre, hinstrs, Instr.rise, List.foldl_append]

/-- Up to their end, the heights along instructions are at most their peak. -/
theorem Code.Holds.height_le {code : Code} {pc k : Nat} {instrs : List Instr} (h : code.Holds pc instrs)
    (hk : k ≤ instrs.length) : code.height (pc + k) ≤ Instr.peak (code.height pc) instrs := by
  rw [← List.take_append_drop k instrs] at h ⊢
  have hheight := h.left.height
  rw [List.length_take, Nat.min_eq_left hk] at hheight
  rw [hheight, Instr.peak_append]
  exact Nat.le_trans Instr.rise_le_peak (Nat.le_max_left _ _)

theorem Code.height_le_peak (code : Code) (pc : Nat) : code.height pc ≤ Instr.peak 0 code.toList := by
  calc code.height pc ≤ Instr.peak 0 (code.toList.take pc) := Instr.rise_le_peak
    _ ≤ Instr.peak 0 (code.toList.take pc ++ code.toList.drop pc) := by
        rw [Instr.peak_append]
        exact Nat.le_max_left _ _
    _ = Instr.peak 0 code.toList := by rw [List.take_append_drop]

/-! ## Expressions -/

/-- The number of values that an expression needs at once. -/
def Expr.need : Expr → Nat
  | .binary _ lhs rhs _ => max lhs.need (1 + rhs.need)
  | .unary _ operand _ => operand.need
  | .literal _ | .name .. => 1

theorem Expr.need_pos (e : Expr) : 0 < e.need := by
  induction e with
  | binary _ _ _ _ ihl _ => exact Nat.lt_of_lt_of_le ihl (Nat.le_max_left _ _)
  | unary _ _ _ ih => exact ih
  | literal | name => exact Nat.one_pos

theorem Symbol.loadCode_counts {x : Symbol} (h : Usage.Admits .value x) (level n : Nat) :
    Instr.rise n (x.loadCode level) = n + 1 ∧ Instr.peak n (x.loadCode level) = n + 1 := by
  unfold Symbol.loadCode
  cases hx : x.binding with
  | proc => simp [Usage.Admits, hx] at h
  | var | const => simp

theorem Operator.odd_of_ofPrefixToken? {t : Token} {op : Operator} (h : ofPrefixToken? t = some op) : op = .odd := by
  unfold ofPrefixToken? at h
  split at h <;> cases h
  rfl

/-- An expression leaves one value more, and adds as many at once as it needs. -/
theorem Expr.code_counts {e : Expr} (h : e.Uses Usage.Admits) (level n : Nat) :
    Instr.rise n (e.code level) = n + 1 ∧ Instr.peak n (e.code level) = n + e.need := by
  induction e generalizing n with
  | binary op lhs rhs _ ihl ihr =>
      obtain ⟨hop, hl, hr⟩ := h
      obtain ⟨operator, hop⟩ := Option.isSome_iff_exists.mp hop
      have hpos := rhs.need_pos
      simp only [Expr.code, hop, Expr.need, Option.toList_some, List.map_cons, List.map_nil, Instr.rise_append,
        Instr.peak_append, ihl hl, ihr hr, Instr.rise_cons, Instr.rise_nil, Instr.peak_cons, Instr.peak_nil,
        Instr.after_operate, Operator.pops, Operator.pushes]
      omega
  | unary op operand _ ih =>
      obtain ⟨hop, hoperand⟩ := h
      obtain ⟨operator, hop⟩ := Option.isSome_iff_exists.mp hop
      obtain rfl := Operator.odd_of_ofPrefixToken? hop
      have hpos := operand.need_pos
      simp only [Expr.code, hop, Expr.need, Option.toList_some, List.map_cons, List.map_nil, Instr.rise_append,
        Instr.peak_append, ih hoperand, Instr.rise_cons, Instr.rise_nil, Instr.peak_cons, Instr.peak_nil,
        Instr.after_operate, Operator.pops, Operator.pushes]
      omega
  | literal => simp [Expr.code, Expr.need]
  | name x _ => exact x.loadCode_counts h level n

/-! ## Statements -/

theorem Symbol.storeCode_counts {x : Symbol} (h : Usage.Admits .target x) (level : Nat) :
    Instr.rise 1 (x.storeCode level) = 0 ∧ Instr.peak 1 (x.storeCode level) = 1 := by
  unfold Symbol.storeCode
  cases hx : x.binding with
  | var => simp
  | proc | const => simp [Usage.Admits, hx] at h

mutual

/-- A statement leaves no values. -/
theorem Stmt.rise_code {link : Linkage} (hlink : link.Calls) {s : Stmt} (h : s.Uses Usage.Admits) (level base : Nat) :
    Instr.rise 0 (s.code link level base) = 0 := by
  cases s with
  | assign target value _ => simp [Stmt.code, Expr.code_counts h.1, Symbol.storeCode_counts h.2]
  | read targets =>
      simp only [Stmt.code]
      have htargets : ∀ t ∈ targets, Usage.Admits .target t.value := h
      clear h
      induction targets with
      | nil => rfl
      | cons t rest ih =>
          obtain ⟨ht, hrest⟩ := List.forall_mem_cons.mp htargets
          simp [Operator.pops, Operator.pushes, Symbol.storeCode_counts ht, ih hrest]
  | write values =>
      simp only [Stmt.code]
      have hvalues : ∀ e ∈ values, e.Uses Usage.Admits := h
      clear h
      induction values with
      | nil => rfl
      | cons e rest ih =>
          obtain ⟨he, hrest⟩ := List.forall_mem_cons.mp hvalues
          simp [Operator.pops, Operator.pushes, Expr.code_counts he, ih hrest]
  | call callee _ => simp [Stmt.code, Instr.after_call (hlink level callee)]
  | ifThen c body => simp [Stmt.code_ifThen, Expr.code_counts h.1, Stmt.rise_code hlink h.2]
  | ifElse c body alternative =>
      simp [Stmt.code_ifElse, Expr.code_counts h.1, Stmt.rise_code hlink h.2.1, Stmt.rise_code hlink h.2.2]
  | whileDo c body => simp [Stmt.code_whileDo, Expr.code_counts h.1, Stmt.rise_code hlink h.2]
  | sequence body => exact Stmt.rise_codes hlink h level base
  | ret => simp [Stmt.code, Operator.pops, Operator.pushes]

theorem Stmt.rise_codes {link : Linkage} (hlink : link.Calls) {ss : List Stmt}
    (h : Stmt.AllUse Usage.Admits ss) (level base : Nat) :
    Instr.rise 0 (Stmt.codes link level base ss) = 0 := by
  cases ss with
  | nil => rfl
  | cons s rest => simp [Stmt.codes_cons, Stmt.rise_code hlink h.1, Stmt.rise_codes hlink h.2]

end

/-! ## Parts of statements -/

/-- A statement of a block at `level`, with the index where its code starts. -/
structure Part where
  level : Nat
  index : Nat
  stmt : Stmt

mutual

/-- A statement that starts at `base` and the statements in it, in the order of their code. -/
def Stmt.parts (level base : Nat) (s : Stmt) : List Part :=
  ⟨level, base, s⟩ ::
    match s with
    | .ifThen condition body => body.parts level (base + (condition.code level).length + 1)
    | .ifElse condition body alternative =>
      let start := base + (condition.code level).length + 1
      body.parts level start ++ alternative.parts level (start + body.size level + 1)
    | .whileDo condition body => body.parts level (base + (condition.code level).length + 1)
    | .sequence body => Stmt.partsIn level base body
    | _ => []

def Stmt.partsIn (level base : Nat) : List Stmt → List Part
  | [] => []
  | s :: rest => s.parts level base ++ Stmt.partsIn level (base + s.size level) rest

end

/-- Expressions that are written one after the other, with the indices where they start. -/
def Expr.spread (level base : Nat) : List Expr → List (Nat × Expr)
  | [] => []
  | e :: rest => (base, e) :: Expr.spread level (base + (e.code level).length + 1) rest

/-- The expressions of a statement that are in no statement within it, with the indices where they start. -/
def Part.operands : Part → List (Nat × Expr)
  | ⟨_, base, .assign _ value _⟩ => [(base, value)]
  | ⟨level, base, .write values⟩ => Expr.spread level base values
  | ⟨_, base, .ifThen condition _⟩ | ⟨_, base, .ifElse condition _ _⟩ | ⟨_, base, .whileDo condition _⟩ =>
    [(base, condition)]
  | _ => []

/-- A statement whose code stands at its index, where the height is zero. -/
structure Part.Placed (code : Code) (link : Linkage) (part : Part) : Prop where
  holds : code.Holds part.index (part.stmt.code link part.level part.index)
  uses : part.stmt.Uses Usage.Admits
  height_eq : code.height part.index = 0

namespace Part.Placed

variable {code : Code} {link : Linkage} {level base : Nat} {c : Expr} {s body alternative : Stmt} {rest : List Stmt}

theorem height_after {part : Part} (hlink : link.Calls) (h : part.Placed code link) :
    code.height (part.index + part.stmt.size part.level) = 0 := by
  have hheight := h.holds.height
  rwa [Stmt.length_code, h.height_eq, Stmt.rise_code hlink h.uses] at hheight

/-- After a test comes one instruction that takes its value. -/
theorem height_test {i : Instr} {instrs : List Instr} (h : code.Holds base (c.code level ++ i :: instrs))
    (hc : c.Uses Usage.Admits) (hbase : code.height base = 0) (hi : i.opcode = .jumpIfFalse) :
    code.height (base + (c.code level).length) = 1 ∧ code.height (base + (c.code level).length + 1) = 0 := by
  have hheight := h.left.height
  rw [hbase, (Expr.code_counts hc level 0).1, Nat.zero_add] at hheight
  refine ⟨hheight, ?_⟩
  rw [Code.height_succ h.right.head, hheight]
  simp [Instr.after, Instr.pops, Instr.pushes, hi]

theorem ifThen (h : Part.Placed code link ⟨level, base, .ifThen c body⟩) :
    code.height (base + (c.code level).length) = 1 ∧
      Part.Placed code link ⟨level, base + (c.code level).length + 1, body⟩ := by
  obtain ⟨hholds, huses, hbase⟩ := h
  simp only [Stmt.code_ifThen] at hholds
  obtain ⟨htest, hstart⟩ := height_test hholds huses.1 hbase rfl
  exact ⟨htest, hholds.right.tail, huses.2, hstart⟩

theorem ifElse (hlink : link.Calls) (h : Part.Placed code link ⟨level, base, .ifElse c body alternative⟩) :
    code.height (base + (c.code level).length) = 1 ∧
      Part.Placed code link ⟨level, base + (c.code level).length + 1, body⟩ ∧
      Part.Placed code link ⟨level, base + (c.code level).length + 1 + body.size level + 1, alternative⟩ := by
  obtain ⟨hholds, huses, hbase⟩ := h
  simp only [Stmt.code_ifElse, List.append_assoc, List.cons_append] at hholds
  obtain ⟨htest, hstart⟩ := height_test hholds huses.1 hbase rfl
  have hrest := hholds.right.tail
  have hbody : Part.Placed code link ⟨level, base + (c.code level).length + 1, body⟩ := ⟨hrest.left, huses.2.1, hstart⟩
  have hjump := hrest.right
  rw [Stmt.length_code] at hjump
  have hend := hbody.height_after hlink
  refine ⟨htest, hbody, hjump.tail, huses.2.2, ?_⟩
  rw [Code.height_succ hjump.head, hend]
  rfl

theorem whileDo (h : Part.Placed code link ⟨level, base, .whileDo c body⟩) :
    code.height (base + (c.code level).length) = 1 ∧
      Part.Placed code link ⟨level, base + (c.code level).length + 1, body⟩ := by
  obtain ⟨hholds, huses, hbase⟩ := h
  simp only [Stmt.code_whileDo, List.append_assoc, List.cons_append] at hholds
  obtain ⟨htest, hstart⟩ := height_test hholds huses.1 hbase rfl
  exact ⟨htest, hholds.right.tail.left, huses.2, hstart⟩

theorem sequence (hlink : link.Calls) (h : Part.Placed code link ⟨level, base, .sequence (s :: rest)⟩) :
    Part.Placed code link ⟨level, base, s⟩ ∧
      Part.Placed code link ⟨level, base + s.size level, .sequence rest⟩ := by
  obtain ⟨hholds, huses, hbase⟩ := h
  simp only [Stmt.code, Stmt.codes_cons] at hholds
  have hs : Part.Placed code link ⟨level, base, s⟩ := ⟨hholds.left, huses.1, hbase⟩
  have hrest := hholds.right
  rw [Stmt.length_code] at hrest
  exact ⟨hs, hrest, huses.2, hs.height_after hlink⟩

end Part.Placed

mutual

/-- The statements in a statement are placed if it is. -/
theorem Stmt.placed_parts {code : Code} {link : Linkage} (hlink : link.Calls) {level : Nat} (base : Nat) (s : Stmt)
    (h : Part.Placed code link ⟨level, base, s⟩) : ∀ part ∈ s.parts level base, part.Placed code link := by
  cases s with
  | ifThen c body => exact List.forall_mem_cons.mpr ⟨h, Stmt.placed_parts hlink _ body h.ifThen.2⟩
  | ifElse c body alternative =>
      obtain ⟨-, hbody, halternative⟩ := h.ifElse hlink
      exact List.forall_mem_cons.mpr ⟨h, List.forall_mem_append.mpr
        ⟨Stmt.placed_parts hlink _ body hbody, Stmt.placed_parts hlink _ alternative halternative⟩⟩
  | whileDo c body => exact List.forall_mem_cons.mpr ⟨h, Stmt.placed_parts hlink _ body h.whileDo.2⟩
  | sequence body => exact List.forall_mem_cons.mpr ⟨h, Stmt.placed_partsIn hlink _ body h⟩
  | assign | read | write | call | ret => exact List.forall_mem_singleton.mpr h

theorem Stmt.placed_partsIn {code : Code} {link : Linkage} (hlink : link.Calls) {level : Nat} (base : Nat)
    (ss : List Stmt) (h : Part.Placed code link ⟨level, base, .sequence ss⟩) :
    ∀ part ∈ Stmt.partsIn level base ss, part.Placed code link := by
  cases ss with
  | nil => simp [Stmt.partsIn]
  | cons s rest =>
      obtain ⟨hs, hrest⟩ := h.sequence hlink
      exact List.forall_mem_append.mpr ⟨Stmt.placed_parts hlink _ s hs, Stmt.placed_partsIn hlink _ rest hrest⟩

end

/-- An expression whose code stands at its index, where the height is zero. -/
structure Expr.Placed (code : Code) (level index : Nat) (e : Expr) : Prop where
  holds : code.Holds index (e.code level)
  uses : e.Uses Usage.Admits
  height_eq : code.height index = 0

theorem Expr.Placed.height_le {code : Code} {level index k : Nat} {e : Expr} (h : e.Placed code level index)
    (hk : k ≤ (e.code level).length) : code.height (index + k) ≤ e.need := by
  have hle := h.holds.height_le hk
  rwa [h.height_eq, (Expr.code_counts h.uses level 0).2, Nat.zero_add] at hle

theorem Expr.placed_spread {code : Code} {level base : Nat} {es : List Expr}
    (hholds : code.Holds base (es.flatMap fun e => e.code level ++ [.operate .write]))
    (huses : ∀ e ∈ es, e.Uses Usage.Admits) (hbase : code.height base = 0) :
    ∀ x ∈ Expr.spread level base es, x.2.Placed code level x.1 := by
  induction es generalizing base with
  | nil => simp [Expr.spread]
  | cons e rest ih =>
      obtain ⟨he, hrest⟩ := List.forall_mem_cons.mp huses
      rw [List.flatMap_cons] at hholds
      have hend := hholds.left.height
      have hnext := hholds.right
      rw [List.length_append, List.length_singleton, ← Nat.add_assoc] at hend hnext
      rw [hbase] at hend
      refine List.forall_mem_cons.mpr ⟨⟨hholds.left.left, he, hbase⟩, ih hnext hrest ?_⟩
      simpa [Expr.code_counts he, Operator.pops, Operator.pushes] using hend

theorem Part.Placed.operands {code : Code} {link : Linkage} {part : Part} (h : part.Placed code link) :
    ∀ x ∈ part.operands, x.2.Placed code part.level x.1 := by
  obtain ⟨level, base, s⟩ := part
  obtain ⟨hholds, huses, hbase⟩ := h
  cases s with
  | assign target value _ => exact List.forall_mem_singleton.mpr ⟨hholds.left, huses.1, hbase⟩
  | write values => exact Expr.placed_spread hholds huses hbase
  | ifThen c body =>
      simp only [Stmt.code_ifThen] at hholds
      exact List.forall_mem_singleton.mpr ⟨hholds.left, huses.1, hbase⟩
  | ifElse c body alternative =>
      simp only [Stmt.code_ifElse, List.append_assoc] at hholds
      exact List.forall_mem_singleton.mpr ⟨hholds.left, huses.1, hbase⟩
  | whileDo c body =>
      simp only [Stmt.code_whileDo, List.append_assoc] at hholds
      exact List.forall_mem_singleton.mpr ⟨hholds.left, huses.1, hbase⟩
  | read | call | sequence | ret => simp [Part.operands]

/-! ## Branches -/

/-- The instructions between two indices agree with the count along the code. -/
def Code.SettledIn (code : Code) (lo hi : Nat) : Prop :=
  ∀ (pc : Nat) (i : Instr), lo ≤ pc → pc < hi → code[pc]? = some i → i.Settled code.height pc

namespace Code.SettledIn

variable {code : Code} {lo mid hi pc : Nat} {i : Instr}

theorem append (h : code.SettledIn lo mid) (h' : code.SettledIn mid hi) : code.SettledIn lo hi := by
  intro pc i hlo hhi hi
  by_cases hmid : pc < mid
  · exact h pc i hlo hmid hi
  · exact h' pc i (by omega) hhi hi

theorem cast {lo' hi' : Nat} (h : code.SettledIn lo hi) (hlo : lo = lo') (hhi : hi = hi') :
    code.SettledIn lo' hi' := by
  subst hlo hhi
  exact h

theorem empty (pc : Nat) : code.SettledIn pc pc := fun _ _ _ _ _ => by omega

theorem one (hi : code[pc]? = some i) (h : i.Settled code.height pc) : code.SettledIn pc (pc + 1) := by
  intro pc' i' hlo hhi hi'
  obtain rfl : pc' = pc := by omega
  rw [hi] at hi'
  cases hi'
  exact h

theorem plain {instrs : List Instr} (h : code.Holds pc instrs) (hplain : ∀ i ∈ instrs, ¬ i.IsControl) :
    code.SettledIn pc (pc + instrs.length) := by
  induction instrs generalizing pc with
  | nil => exact .empty _
  | cons i instrs ih =>
      obtain ⟨hi, hinstrs⟩ := List.forall_mem_cons.mp hplain
      have hsettled : i.Settled code.height pc :=
        ⟨fun hcontrol => absurd hcontrol hi, fun hbranch => absurd (.inl hbranch) hi⟩
      exact (one h.head hsettled).append ((ih h.tail hinstrs).cast rfl (by simp; omega))

end Code.SettledIn

namespace Instr

theorem isControl_operate {op : Operator} : (Instr.operate op).IsControl ↔ op = .ret := by
  simp [IsControl, Applies, Instr.operate, Operator.ofCode?_code, Opcode.isBranch]

variable {code : Code} {pc target : Nat} {level : Int64}

/-- The index that the address of a branch in the code counts. -/
theorem eq_of_slot? (hsize : code.size < Decimal.int64Bound) (htarget : target ≤ code.size) {n : Nat}
    (h : CallStack.slot? (.ofNat target) = some n) : target = n := by
  rw [Operand.slot?_ofNat (Nat.lt_of_le_of_lt htarget hsize)] at h
  exact Option.some.inj h

/-- A branch to a place where the height is zero, from one with as many values as it takes. -/
theorem settled_branch {opcode : Opcode} (hsize : code.size < Decimal.int64Bound) (htarget : target ≤ code.size)
    (hpc : code.height pc = pops ⟨opcode, level, .ofNat target⟩) (hheight : code.height target = 0) :
    Settled code.height pc ⟨opcode, level, .ofNat target⟩ := by
  refine ⟨fun _ => hpc, fun _ n hn => ?_⟩
  rwa [← eq_of_slot? hsize htarget hn]

end Instr

theorem Symbol.not_isControl_loadCode {level : Nat} {x : Symbol} : ∀ i ∈ x.loadCode level, ¬ i.IsControl := by
  unfold Symbol.loadCode
  cases x.binding <;> simp [Instr.IsControl, Instr.Applies, Opcode.isBranch]

theorem Symbol.not_isControl_storeCode {level : Nat} {x : Symbol} : ∀ i ∈ x.storeCode level, ¬ i.IsControl := by
  unfold Symbol.storeCode
  cases x.binding <;> simp [Instr.IsControl, Instr.Applies, Opcode.isBranch]

theorem Expr.not_isControl_code {level : Nat} {e : Expr} : ∀ i ∈ e.code level, ¬ i.IsControl := by
  induction e with
  | binary op lhs rhs _ ihl ihr =>
      intro i hi
      simp only [Expr.code, List.mem_append, List.mem_map] at hi
      rcases hi with (hi | hi) | ⟨op, -, rfl⟩
      · exact ihl i hi
      · exact ihr i hi
      · simp [Instr.isControl_operate]
  | unary op operand _ ih =>
      intro i hi
      simp only [Expr.code, List.mem_append, List.mem_map, Option.mem_toList] at hi
      rcases hi with hi | ⟨op, hop, rfl⟩
      · exact ih i hi
      · simp [Instr.isControl_operate, Operator.odd_of_ofPrefixToken? hop]
  | literal => simp [Expr.code, Instr.IsControl, Instr.Applies, Opcode.isBranch]
  | name x _ => exact Symbol.not_isControl_loadCode

/-- Calls are written as calls, of places where the height is zero. -/
structure Linkage.Settled (code : Code) (link : Linkage) : Prop where
  calls : link.Calls
  target_eq : ∀ level x target, CallStack.slot? (link level x).address = some target → code.height target = 0

/-- Code of a test, and of the jump that takes its value. -/
theorem Code.SettledIn.test {code : Code} {level base target : Nat} {c : Expr} {instrs : List Instr}
    (hsize : code.size < Decimal.int64Bound)
    (hholds : code.Holds base (c.code level ++ ⟨.jumpIfFalse, 0, .ofNat target⟩ :: instrs))
    (htest : code.height (base + (c.code level).length) = 1) (htarget : target ≤ code.size)
    (hheight : code.height target = 0) : code.SettledIn base (base + (c.code level).length + 1) :=
  (plain hholds.left Expr.not_isControl_code).append
    (one hholds.right.head (Instr.settled_branch hsize htarget htest hheight))

theorem Part.Placed.settled_plain {code : Code} {link : Linkage} {level base : Nat} {s : Stmt}
    (h : Part.Placed code link ⟨level, base, s⟩) (hplain : ∀ i ∈ s.code link level base, ¬ i.IsControl) :
    code.SettledIn base (base + s.size level) := by
  rw [← Stmt.length_code link level base]
  exact .plain h.holds hplain

mutual

theorem Stmt.settled {code : Code} {link : Linkage} (hlink : link.Settled code)
    (hsize : code.size < Decimal.int64Bound) {level : Nat} (base : Nat) (s : Stmt)
    (h : Part.Placed code link ⟨level, base, s⟩) : code.SettledIn base (base + s.size level) := by
  have hholds := h.holds
  have hbase : code.height base = 0 := h.height_eq
  have hend := h.height_after hlink.calls
  have hle := hholds.le_size
  simp only [Stmt.length_code] at hle hend
  cases s with
  | assign target value _ =>
      exact h.settled_plain (List.forall_mem_append.mpr ⟨Expr.not_isControl_code, Symbol.not_isControl_storeCode⟩)
  | read targets =>
      refine h.settled_plain fun i hi => ?_
      obtain ⟨target, -, hi⟩ := List.mem_flatMap.mp hi
      rcases List.mem_cons.mp hi with rfl | hi
      · simp [Instr.isControl_operate]
      · exact Symbol.not_isControl_storeCode i hi
  | write values =>
      refine h.settled_plain fun i hi => ?_
      obtain ⟨value, -, hi⟩ := List.mem_flatMap.mp hi
      rcases List.mem_append.mp hi with hi | hi
      · exact Expr.not_isControl_code i hi
      · obtain rfl := List.mem_singleton.mp hi
        simp [Instr.isControl_operate]
  | call callee _ =>
      refine .one hholds.head ⟨fun _ => ?_, fun _ => hlink.target_eq level callee⟩
      rw [hbase]
      simp [Instr.pops, hlink.calls level callee]
  | ifThen c body =>
      obtain ⟨htest, hbody⟩ := h.ifThen
      simp only [Stmt.code_ifThen] at hholds
      have hstop : base + (Stmt.ifThen c body).size level = base + (c.code level).length + 1 + body.size level := by
        rw [Stmt.size_ifThen]
        omega
      rw [hstop] at hend hle ⊢
      exact (Code.SettledIn.test hsize hholds htest hle hend).append (Stmt.settled hlink hsize _ body hbody)
  | ifElse c body alternative =>
      obtain ⟨htest, hbody, halternative⟩ := h.ifElse hlink.calls
      simp only [Stmt.code_ifElse, List.append_assoc, List.cons_append] at hholds
      have hstop : base + (Stmt.ifElse c body alternative).size level =
          base + (c.code level).length + 1 + body.size level + 1 + alternative.size level := by
        rw [Stmt.size_ifElse]
        omega
      rw [hstop] at hend hle ⊢
      have hjump := hholds.right.tail.right
      rw [Stmt.length_code] at hjump
      refine (Code.SettledIn.test hsize hholds htest (by omega) halternative.height_eq).append ?_
      refine (Stmt.settled hlink hsize _ body hbody).append ?_
      refine (Code.SettledIn.one hjump.head ?_).append (Stmt.settled hlink hsize _ alternative halternative)
      exact Instr.settled_branch hsize hle (hbody.height_after hlink.calls) hend
  | whileDo c body =>
      obtain ⟨htest, hbody⟩ := h.whileDo
      simp only [Stmt.code_whileDo, List.append_assoc, List.cons_append] at hholds
      have hstop : base + (Stmt.whileDo c body).size level =
          base + (c.code level).length + 1 + body.size level + 1 := by
        rw [Stmt.size_whileDo]
        omega
      rw [hstop] at hend hle ⊢
      have hjump := hholds.right.tail.right
      rw [Stmt.length_code] at hjump
      refine (Code.SettledIn.test hsize hholds htest hle hend).append ?_
      refine (Stmt.settled hlink hsize _ body hbody).append (.one hjump.head ?_)
      exact Instr.settled_branch hsize (by omega) (hbody.height_after hlink.calls) hbase
  | sequence body => exact Stmt.settledIn hlink hsize base body h
  | ret =>
      refine .one hholds.head ⟨fun _ => hbase, fun hbranch => ?_⟩
      simp [Instr.operate, Opcode.isBranch] at hbranch

theorem Stmt.settledIn {code : Code} {link : Linkage} (hlink : link.Settled code)
    (hsize : code.size < Decimal.int64Bound) {level : Nat} (base : Nat) (ss : List Stmt)
    (h : Part.Placed code link ⟨level, base, .sequence ss⟩) :
    code.SettledIn base (base + Stmt.sizes level ss) := by
  cases ss with
  | nil => exact .empty base
  | cons s rest =>
      obtain ⟨hs, hrest⟩ := h.sequence hlink.calls
      rw [Stmt.sizes_cons, ← Nat.add_assoc]
      exact (Stmt.settled hlink hsize base s hs).append (Stmt.settledIn hlink hsize _ rest hrest)

end

/-! ## Blocks -/

/-- A block whose segment stands at its entry, where the height is zero. -/
structure Placed.Level (code : Code) (link : Linkage) (p : Placed) : Prop where
  holds : code.Holds p.entry (p.segment link)
  uses : p.block.body.Uses Usage.Admits
  height_eq : code.height p.entry = 0

namespace Placed.Level

variable {code : Code} {link : Linkage} {p : Placed}

theorem body (h : p.Level code link) : Part.Placed code link ⟨p.block.level, p.entry + 1, p.block.body⟩ := by
  refine ⟨h.holds.left.tail, h.uses, ?_⟩
  rw [Code.height_succ h.holds.left.head, h.height_eq]
  rfl

theorem settled (h : p.Level code link) (hlink : link.Settled code) (hsize : code.size < Decimal.int64Bound) :
    code.SettledIn p.entry p.inner := by
  have hbody := Stmt.settled hlink hsize _ _ h.body
  have hend := h.body.height_after hlink.calls
  have hret := h.holds.right
  have hsettled : (Instr.operate .ret).Settled code.height (p.entry + 1 + p.block.body.size p.block.level) := by
    refine ⟨fun _ => hend, fun hbranch => ?_⟩
    simp [Instr.operate, Opcode.isBranch] at hbranch
  have henter : Instr.Settled code.height p.entry ⟨.enter, 0, .ofNat (p.block.variableCount + reservedSlots)⟩ :=
    ⟨fun _ => h.height_eq, fun hbranch => by simp [Opcode.isBranch] at hbranch⟩
  rw [List.length_cons, Stmt.length_code, Nat.add_comm _ 1, ← Nat.add_assoc] at hret
  refine ((Code.SettledIn.one h.holds.left.head henter).append hbody).append ?_
  exact (Code.SettledIn.one hret.head hsettled).cast rfl (by unfold Placed.inner; omega)

theorem height_inner (h : p.Level code link) (hlink : link.Calls) : code.height p.inner = 0 := by
  have hheight := h.holds.height
  rw [Placed.segment, Block.length_segment, h.height_eq] at hheight
  rw [Placed.inner, hheight]
  simp [Block.segment, Stmt.rise_code hlink h.uses, Operator.pops, Operator.pushes]

end Placed.Level

theorem Stacked.level {code : Code} {link : Linkage} (hlink : link.Calls) {entry stop : Nat} {ps : List Placed}
    (h : Stacked entry ps stop) (hholds : code.Holds entry (ps.map (Placed.segment link)).flatten)
    (huses : ∀ p ∈ ps, p.block.body.Uses Usage.Admits) (hentry : code.height entry = 0) :
    (∀ p ∈ ps, p.Level code link) ∧ code.height stop = 0 := by
  induction h with
  | nil => exact ⟨by simp, hentry⟩
  | @cons p ps stop _ ih =>
      obtain ⟨hp, hps⟩ := List.forall_mem_cons.mp huses
      have hlevel : p.Level code link := ⟨hholds.left, hp, hentry⟩
      have hrest := hholds.right
      rw [Placed.segment, Block.length_segment] at hrest
      obtain ⟨hall, hstop⟩ := ih hrest hps (hlevel.height_inner hlink)
      exact ⟨List.forall_mem_cons.mpr ⟨hlevel, hall⟩, hstop⟩

theorem Stacked.settled {code : Code} {link : Linkage} (hlink : link.Settled code)
    (hsize : code.size < Decimal.int64Bound) {entry stop : Nat} {ps : List Placed} (h : Stacked entry ps stop)
    (hlevel : ∀ p ∈ ps, p.Level code link) : code.SettledIn entry stop := by
  induction h with
  | nil => exact .empty _
  | cons _ ih =>
      obtain ⟨hp, hps⟩ := List.forall_mem_cons.mp hlevel
      exact (hp.settled hlink hsize).append (ih hps)

/-! ## Programs -/

/-- The statements of a program, with the places of their code. -/
def Block.parts (program : Block) : List Part :=
  (program.placed 0).flatMap fun p => p.block.body.parts p.block.level (p.entry + 1)

/-- The expressions of a program that are in no other expression. -/
def Block.exprs (program : Block) : List Expr :=
  program.parts.flatMap fun part => part.operands.map Prod.snd

theorem Block.settled_linkage {program : Block} {code : Code} (hsize : code.size < Decimal.int64Bound)
    (hlevel : ∀ p ∈ program.placed 0, p.Level code program.linkage) : program.linkage.Settled code := by
  have hdraft : ∀ level x target, CallStack.slot? (Linkage.draft level x).address = some target →
      code.height target = 0 := by
    intro level x target htarget
    cases (Option.some.inj htarget : 0 = target)
    exact code.height_zero
  refine ⟨program.calls_linkage, fun level x target htarget => ?_⟩
  unfold Block.linkage at htarget
  split at htarget
  · next declared id hx =>
    split at htarget
    · next entry hentry =>
      obtain ⟨before, after, heq, -⟩ := List.lookup_eq_some_iff.mp hentry
      have hmem : (id, entry) ∈ program.entries := by simp [heq]
      obtain ⟨p, hp, hrecord⟩ := List.mem_map.mp (List.mem_reverse.mp hmem)
      cases hrecord
      have hp := hlevel p.2 (List.mem_cons_of_mem _ (List.mem_map_of_mem hp))
      have hle := hp.holds.le_size
      rw [← Instr.eq_of_slot? hsize (by omega) htarget]
      exact hp.height_eq
    · exact hdraft level x target htarget
  · exact hdraft level x target htarget

theorem Stmt.peak_read_le {level N : Nat} (hN : 1 ≤ N) {targets : List (Located Symbol)}
    (h : ∀ t ∈ targets, Usage.Admits .target t.value) :
    Instr.peak 0 (targets.flatMap fun t => .operate .read :: t.value.storeCode level) ≤ N := by
  induction targets with
  | nil => simp
  | cons t rest ih =>
      obtain ⟨ht, hrest⟩ := List.forall_mem_cons.mp h
      simpa [Operator.pops, Operator.pushes, Symbol.storeCode_counts ht, hN] using ih hrest

theorem Stmt.peak_write_le {level base N : Nat} (hN : 1 ≤ N) {values : List Expr}
    (h : ∀ e ∈ values, e.Uses Usage.Admits) (hneed : ∀ x ∈ Expr.spread level base values, x.2.need ≤ N) :
    Instr.peak 0 (values.flatMap fun e => e.code level ++ [.operate .write]) ≤ N := by
  induction values generalizing base with
  | nil => simp
  | cons e rest ih =>
      obtain ⟨he, hrest⟩ := List.forall_mem_cons.mp h
      obtain ⟨hneed, hneeds⟩ := List.forall_mem_cons.mp hneed
      simpa [Operator.pops, Operator.pushes, Expr.code_counts he, hN, hneed] using ih hrest hneeds

mutual

/-- No more values are held at once than one or what an expression needs. -/
theorem Stmt.peak_code_le {link : Linkage} (hlink : link.Calls) {N : Nat} (hN : 1 ≤ N) {s : Stmt}
    (h : s.Uses Usage.Admits) {level : Nat} (base : Nat)
    (hneed : ∀ part ∈ s.parts level base, ∀ x ∈ part.operands, x.2.need ≤ N) :
    Instr.peak 0 (s.code link level base) ≤ N := by
  cases s with
  | assign target value _ =>
      have hvalue := List.forall_mem_singleton.mp (List.forall_mem_singleton.mp hneed)
      simp [Stmt.code, Expr.code_counts h.1, Symbol.storeCode_counts h.2, hN, hvalue]
  | read targets => exact Stmt.peak_read_le hN h
  | write values => exact Stmt.peak_write_le hN h (List.forall_mem_singleton.mp hneed)
  | call callee _ => simp [Stmt.code, Instr.after_call (hlink level callee)]
  | ifThen c body =>
      obtain ⟨hown, hbody⟩ := List.forall_mem_cons.mp hneed
      have hc := List.forall_mem_singleton.mp hown
      simp [Stmt.code_ifThen, Expr.code_counts h.1, hc, hN, Stmt.peak_code_le hlink hN h.2 _ hbody]
  | ifElse c body alternative =>
      obtain ⟨hown, hinner⟩ := List.forall_mem_cons.mp hneed
      obtain ⟨hbody, halternative⟩ := List.forall_mem_append.mp hinner
      have hc := List.forall_mem_singleton.mp hown
      simp [Stmt.code_ifElse, Expr.code_counts h.1, hc, hN, Stmt.rise_code hlink h.2.1,
        Stmt.peak_code_le hlink hN h.2.1 _ hbody, Stmt.peak_code_le hlink hN h.2.2 _ halternative]
  | whileDo c body =>
      obtain ⟨hown, hbody⟩ := List.forall_mem_cons.mp hneed
      have hc := List.forall_mem_singleton.mp hown
      simp [Stmt.code_whileDo, Expr.code_counts h.1, hc, hN, Stmt.rise_code hlink h.2,
        Stmt.peak_code_le hlink hN h.2 _ hbody]
  | sequence body => exact Stmt.peak_codes_le hlink hN h base (List.forall_mem_cons.mp hneed).2
  | ret => simp [Stmt.code, Operator.pops, Operator.pushes]

theorem Stmt.peak_codes_le {link : Linkage} (hlink : link.Calls) {N : Nat} (hN : 1 ≤ N) {ss : List Stmt}
    (h : Stmt.AllUse Usage.Admits ss) {level : Nat} (base : Nat)
    (hneed : ∀ part ∈ Stmt.partsIn level base ss, ∀ x ∈ part.operands, x.2.need ≤ N) :
    Instr.peak 0 (Stmt.codes link level base ss) ≤ N := by
  cases ss with
  | nil => simp [Stmt.codes]
  | cons s rest =>
      obtain ⟨hs, hrest⟩ := List.forall_mem_append.mp hneed
      simp [Stmt.codes_cons, Stmt.rise_code hlink h.1, Stmt.peak_code_le hlink hN h.1 _ hs,
        Stmt.peak_codes_le hlink hN h.2 _ hrest]

end

theorem Placed.peak_segments_le {link : Linkage} (hlink : link.Calls) {N : Nat} (hN : 1 ≤ N) {ps : List Placed}
    (huses : ∀ p ∈ ps, p.block.body.Uses Usage.Admits)
    (hneed : ∀ p ∈ ps, ∀ part ∈ p.block.body.parts p.block.level (p.entry + 1), ∀ x ∈ part.operands, x.2.need ≤ N) :
    Instr.peak 0 (ps.map (Placed.segment link)).flatten ≤ N := by
  induction ps with
  | nil => simp
  | cons p ps ih =>
      obtain ⟨hp, hps⟩ := List.forall_mem_cons.mp huses
      obtain ⟨hbody, hneeds⟩ := List.forall_mem_cons.mp hneed
      simpa [Placed.segment, Block.segment, Stmt.rise_code hlink hp, Operator.pops, Operator.pushes,
        Stmt.peak_code_le hlink hN hp _ hbody] using ih hps hneeds

/-- What there is to know about the heights in the code of a program. -/
theorem Resolved.heights {program : Block} {code : Code} (h : Resolved program)
    (hcode : code.toList = program.code program.linkage 0) (hsize : code.size < Decimal.int64Bound) :
    (∀ p ∈ program.placed 0, p.Level code program.linkage) ∧ code.height code.size = 0 ∧
      (∀ (pc : Nat) (i : Instr), code[pc]? = some i → i.Settled code.height pc) ∧
      ∀ N, 1 ≤ N → (∀ e ∈ program.exprs, e.need ≤ N) → ∀ pc, code.height pc ≤ N := by
  have huses : ∀ p ∈ program.placed 0, p.block.body.Uses Usage.Admits := by
    intro p hp
    have hnest : ∃ outer, Nest program (p :: outer) := by
      rcases List.mem_cons.mp hp with rfl | hp
      · exact ⟨[], .program⟩
      · obtain ⟨q, hq, rfl⟩ := List.mem_map.mp hp
        exact Nest.of_mem_places 0 program .program q hq
    obtain ⟨outer, hnest⟩ := hnest
    exact (h.uses hnest).imp fun _ _ hx => hx.1
  have hflatten := hcode.trans (Block.code_eq_flatten program.linkage 0 program)
  have hlength : code.size = 0 + program.size := by
    rw [← Array.length_toList, hcode, Block.length_code, Nat.zero_add]
  obtain ⟨hlevel, hstop⟩ := (program.stacked 0).level program.calls_linkage
    ⟨[], [], by simpa using hflatten, rfl⟩ huses code.height_zero
  have hsettled := (program.stacked 0).settled (Block.settled_linkage hsize hlevel) hsize hlevel
  refine ⟨hlevel, hlength ▸ hstop, fun pc i hi => ?_, fun N hN hneed pc => ?_⟩
  · have hlt := (Array.getElem?_eq_some_iff.mp hi).1
    exact hsettled pc i (Nat.zero_le _) (hlength ▸ hlt) hi
  · refine Nat.le_trans (code.height_le_peak pc) ?_
    rw [hflatten]
    refine Placed.peak_segments_le program.calls_linkage hN huses fun p hp part hpart x hx => hneed x.2 ?_
    exact List.mem_flatMap.mpr ⟨part, List.mem_flatMap.mpr ⟨p, hp, hpart⟩, List.mem_map_of_mem hx⟩

/-- The code of a source has a height at each index that every run agrees with. It is zero where a statement
starts and where a block is entered, left or called, and within an expression it is at most what that needs.
So no run comes to a limit of values that is enough for every expression. -/
theorem Source.compile_heights {source : String} {code : Code} (hcompile : (Source.compile source).1 = .ok code)
    (hsize : code.size < Decimal.int64Bound) :
    ∃ (program : Block) (h : Nat → Nat), Source.parse source = .ok program ∧
      (∀ (pc : Nat) (i : Instr), code[pc]? = some i → i.opcode = .enter ∨ i.opcode = .call ∨ i.Applies .ret →
        h pc = 0) ∧
      (∀ part ∈ program.parts,
        code.Holds part.index (part.stmt.code program.linkage part.level part.index) ∧ h part.index = 0 ∧
          ∀ x ∈ part.operands, code.Holds x.1 (x.2.code part.level) ∧ h x.1 = 0 ∧
            ∀ k ≤ (x.2.code part.level).length, h (x.1 + k) ≤ x.2.need) ∧
      ∀ limits input output n,
        (∀ m, Machine.runFor limits code n (.boot code input output) = .running m → m.pc < code.size →
          ∃ (below : Array Frame) (f : Frame), m.stack.frames = below.push f ∧ f.stack.size = h m.pc ∧
            ∀ g ∈ below, g.stack.size = 0) ∧
        (1 ≤ limits.stackSize → (∀ e ∈ program.exprs, e.need ≤ limits.stackSize) →
          ∀ failure m, Machine.runFor limits code n (.boot code input output) = .done (.error failure) m →
            ∀ limit, failure.cause ≠ .stackSizeLimit limit) := by
  obtain ⟨program, hparse, hcode, hresolved⟩ := Source.exists_resolved hcompile
  obtain ⟨hlevel, hhalt, hsettled, hbound⟩ := hresolved.heights hcode hsize
  refine ⟨program, code.height, hparse, fun pc i hi hcontrol => ?_, fun part hpart => ?_,
    fun limits input output n => ⟨fun m hrun hpc => ?_, fun hone hneed failure m hrun limit hcause => ?_⟩⟩
  · rcases hcontrol with henter | hcall | hreturn
    · rw [(hsettled pc i hi).height_eq (.inr (.inl henter))]
      simp [Instr.pops, henter]
    · rw [(hsettled pc i hi).height_eq (.inl (by simp [hcall, Opcode.isBranch]))]
      simp [Instr.pops, hcall]
    · rw [(hsettled pc i hi).height_eq (.inr (.inr hreturn))]
      simp [Instr.pops, hreturn.1, hreturn.2, Operator.pops]
  · obtain ⟨p, hp, hpart⟩ := List.mem_flatMap.mp hpart
    have hplaced := Stmt.placed_parts program.calls_linkage _ _ (hlevel p hp).body part hpart
    refine ⟨hplaced.holds, hplaced.height_eq, fun x hx => ?_⟩
    have hoperand := hplaced.operands x hx
    exact ⟨hoperand.holds, hoperand.height_eq, fun k hk => hoperand.height_le hk⟩
  · have hgives := Machine.gives_poised hsettled hhalt limits input output n
    rw [hrun] at hgives
    cases hgives with
    | running h =>
        obtain ⟨below, f, hframes⟩ : ∃ (below : Array Frame) (f : Frame), m.stack.frames = below.push f :=
          Array.eq_push_of_size_ne_zero (Nat.ne_of_gt (h.1.active hpc))
        obtain ⟨hcurrent, hwaiting⟩ := h.2.current (below.map Frame.shape) f.shape (by simp [Machine.shapes, hframes])
        exact ⟨below, f, hframes, hcurrent, fun g hg => hwaiting g.shape (Array.mem_map_of_mem hg)⟩
  · have hgives := Machine.gives_poised hsettled hhalt limits input output n
    rw [hrun] at hgives
    generalize hresult : (Except.error failure : Except (Failure Fault) Unit) = result at hgives
    cases hgives with
    | halted _ =>
        obtain ⟨message, hmessage⟩ := Machine.exists_of_conclude_error hresult.symm
        rw [hmessage] at hcause
        cases hcause
    | failed hfault =>
        cases hresult
        rw [Machine.cause_failure] at hcause
        obtain ⟨pc, hlt⟩ := hfault.resolve_right id limit hcause
        have := hbound limits.stackSize hone hneed pc
        omega

namespace DeepSum

/-- A procedure with an expression that needs four values at once. -/
def source : String := "var x; procedure p; x := 1 + 2 * (3 - x); call p."

def code : Code := #[
  ⟨.enter, 0, 4⟩, ⟨.call, 0, 3⟩, .operate .ret,
  ⟨.enter, 0, 3⟩, ⟨.loadConst, 0, 1⟩, ⟨.loadConst, 0, 2⟩, ⟨.loadConst, 0, 3⟩, ⟨.loadVar, 1, 0⟩,
  .operate (.binary .sub), .operate (.binary .mul), .operate (.binary .add), ⟨.storeVar, 1, 0⟩, .operate .ret]

def limits : Limits := { stackSize := 4 }

end DeepSum

theorem Source.compile_heights_deepSum :
    (Source.compile DeepSum.source).1 = .ok DeepSum.code ∧
      ∃ (program : Block) (h : Nat → Nat), Source.parse DeepSum.source = .ok program ∧ h 8 = 4 ∧
        (∀ e ∈ program.exprs, e.need ≤ 4) ∧
        ∀ n failure m, Machine.runFor DeepSum.limits DeepSum.code n (.boot DeepSum.code (.ofBytes []) .unlimited) =
          .done (.error failure) m → ∀ limit, failure.cause ≠ .stackSizeLimit limit := by
  have hcompile : (Source.compile DeepSum.source).1 = .ok DeepSum.code := by cbv
  have hrun : Machine.runFor DeepSum.limits DeepSum.code 7 (.boot DeepSum.code (.ofBytes []) .unlimited) =
      .running ⟨⟨#[⟨13, 0, none, none, #[], #[0]⟩, ⟨2, 3, some 0, some 0, #[1, 2, 3, 0], #[]⟩]⟩, 8, 7,
        .ofBytes [], .unlimited⟩ := by
    cbv
  have hexprs : (Source.parse DeepSum.source).toOption.all
      (fun program => program.exprs.all fun e => decide (e.need ≤ 4)) = true := by cbv
  obtain ⟨program, h, hparse, -, -, hruns⟩ := Source.compile_heights hcompile (by decide)
  have hneed : ∀ e ∈ program.exprs, e.need ≤ 4 := by
    rw [hparse] at hexprs
    simpa [Except.toOption] using hexprs
  obtain ⟨below, f, hframes, hsize, -⟩ := (hruns DeepSum.limits (.ofBytes []) .unlimited 7).1 _ hrun (by decide)
  obtain rfl : ⟨2, 3, some 0, some 0, #[1, 2, 3, 0], #[]⟩ = f := by simpa using congrArg Array.back? hframes
  exact ⟨hcompile, program, h, hparse, hsize.symm, hneed,
    fun n => (hruns DeepSum.limits (.ofBytes []) .unlimited n).2 (by decide) hneed⟩

end PLZero
