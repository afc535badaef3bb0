import Mathlib
import PLZero.Proofs.Compiled

/-!
# Segments

The code of a source is one segment after the other, one for each block of its program: a block, then
the blocks of its procedures in the order of their declaration. No jump leaves its segment, and the
calls of a segment are the calls of its block, each to the segment of the procedure it names.
-/

namespace PLZero

/-! ## What statements are made of -/

/-- The instruction starts no block, and a jump has its target between two indices. -/
def Instr.Inside (lo hi : Nat) (i : Instr) : Prop :=
  i.opcode ≠ .enter ∧
    (i.opcode = .jump ∨ i.opcode = .jumpIfFalse → ∃ target, i.address = .ofNat target ∧ lo ≤ target ∧ target ≤ hi)

/-- An instruction of an expression, or one that stores. -/
def Instr.IsPlain (i : Instr) : Prop :=
  i.opcode = .loadConst ∨ i.opcode = .loadVar ∨ i.opcode = .storeVar ∨ i.opcode = .operate

namespace Instr

variable {i : Instr} {lo hi lo' hi' : Nat}

theorem Inside.mono (h : i.Inside lo hi) (hlo : lo' ≤ lo) (hhi : hi ≤ hi') : i.Inside lo' hi' := by
  refine ⟨h.1, fun hjump => ?_⟩
  obtain ⟨target, haddress, hle, hle'⟩ := h.2 hjump
  exact ⟨target, haddress, by omega, by omega⟩

theorem IsPlain.inside (h : i.IsPlain) : i.Inside lo hi := by
  rcases h with h | h | h | h <;> simp [Inside, h]

theorem IsPlain.ne_call (h : i.IsPlain) : i.opcode ≠ .call := by
  rcases h with h | h | h | h <;> simp [h]

theorem inside_jump {level : Int64} {target : Nat} (hlo : lo ≤ target) (hhi : target ≤ hi) :
    Inside lo hi ⟨.jump, level, .ofNat target⟩ ∧ Inside lo hi ⟨.jumpIfFalse, level, .ofNat target⟩ :=
  ⟨⟨by simp, fun _ => ⟨target, rfl, hlo, hhi⟩⟩, ⟨by simp, fun _ => ⟨target, rfl, hlo, hhi⟩⟩⟩

end Instr

theorem Symbol.isPlain_loadCode {level : Nat} {x : Symbol} : ∀ i ∈ x.loadCode level, i.IsPlain := by
  unfold Symbol.loadCode
  cases x.binding <;> simp [Instr.IsPlain]

theorem Symbol.isPlain_storeCode {level : Nat} {x : Symbol} : ∀ i ∈ x.storeCode level, i.IsPlain := by
  unfold Symbol.storeCode
  cases x.binding <;> simp [Instr.IsPlain]

theorem Instr.isPlain_operate (op : Operator) : (Instr.operate op).IsPlain := .inr (.inr (.inr rfl))

theorem Expr.isPlain_code {level : Nat} {e : Expr} : ∀ i ∈ e.code level, i.IsPlain := by
  induction e with
  | binary op lhs rhs _ ihl ihr =>
      intro i hi
      simp only [Expr.code, List.mem_append, List.mem_map] at hi
      rcases hi with (hi | hi) | ⟨op, -, rfl⟩
      · exact ihl i hi
      · exact ihr i hi
      · exact Instr.isPlain_operate _
  | unary op operand _ ih =>
      intro i hi
      simp only [Expr.code, List.mem_append, List.mem_map] at hi
      rcases hi with hi | ⟨op, -, rfl⟩
      · exact ih i hi
      · exact Instr.isPlain_operate _
  | literal => simp [Expr.code, Instr.IsPlain]
  | name x _ => exact Symbol.isPlain_loadCode

/-- The statements that neither branch nor call. -/
def Stmt.IsPlain : Stmt → Prop
  | .assign .. | .read _ | .write _ | .ret => True
  | _ => False

theorem Stmt.IsPlain.code {link : Linkage} {level base : Nat} {s : Stmt} (h : s.IsPlain) :
    ∀ i ∈ s.code link level base, i.IsPlain := by
  cases s with
  | assign target value _ =>
      intro i hi
      rcases List.mem_append.mp hi with hi | hi
      · exact Expr.isPlain_code i hi
      · exact Symbol.isPlain_storeCode i hi
  | read targets =>
      intro i hi
      obtain ⟨target, -, hi⟩ := List.mem_flatMap.mp hi
      rcases List.mem_cons.mp hi with rfl | hi
      · exact Instr.isPlain_operate _
      · exact Symbol.isPlain_storeCode i hi
  | write values =>
      intro i hi
      obtain ⟨value, -, hi⟩ := List.mem_flatMap.mp hi
      rcases List.mem_append.mp hi with hi | hi
      · exact Expr.isPlain_code i hi
      · obtain rfl := List.mem_singleton.mp hi
        exact Instr.isPlain_operate _
  | ret =>
      intro i hi
      obtain rfl := List.mem_singleton.mp hi
      exact Instr.isPlain_operate _
  | _ => cases h

/-- Calls are written as calls. -/
def Linkage.Calls (link : Linkage) : Prop := ∀ level x, (link level x).opcode = .call

mutual

/-- Jumps of a statement stay in it, or go to the instruction after it. -/
theorem Stmt.inside_code {link : Linkage} (hlink : link.Calls) {level : Nat} (base : Nat) (s : Stmt) :
    ∀ i ∈ s.code link level base, i.Inside base (base + s.size level) := by
  intro i hi
  cases s with
  | call callee _ =>
      obtain rfl := List.mem_singleton.mp hi
      simp [Instr.Inside, hlink level callee]
  | ifThen condition body =>
      rw [Stmt.size_ifThen]
      simp only [Stmt.code_ifThen, List.mem_append, List.mem_cons] at hi
      rcases hi with hi | rfl | hi
      · exact (Expr.isPlain_code i hi).inside
      · exact (Instr.inside_jump (by omega) (by omega)).2
      · exact (body.inside_code hlink _ i hi).mono (by omega) (by omega)
  | ifElse condition body alternative =>
      rw [Stmt.size_ifElse]
      simp only [Stmt.code_ifElse, List.mem_append, List.mem_cons] at hi
      rcases hi with (hi | rfl | hi) | rfl | hi
      · exact (Expr.isPlain_code i hi).inside
      · exact (Instr.inside_jump (by omega) (by omega)).2
      · exact (body.inside_code hlink _ i hi).mono (by omega) (by omega)
      · exact (Instr.inside_jump (by omega) (by omega)).1
      · exact (alternative.inside_code hlink _ i hi).mono (by omega) (by omega)
  | whileDo condition body =>
      rw [Stmt.size_whileDo]
      simp only [Stmt.code_whileDo, List.mem_append, List.mem_cons, List.not_mem_nil, or_false] at hi
      rcases hi with (hi | rfl | hi) | rfl
      · exact (Expr.isPlain_code i hi).inside
      · exact (Instr.inside_jump (by omega) (by omega)).2
      · exact (body.inside_code hlink _ i hi).mono (by omega) (by omega)
      · exact (Instr.inside_jump (by omega) (by omega)).1
  | sequence body => exact Stmt.inside_codes hlink base body i hi
  | _ => exact (Stmt.IsPlain.code (by trivial) i hi).inside

theorem Stmt.inside_codes {link : Linkage} (hlink : link.Calls) {level : Nat} (base : Nat) (ss : List Stmt) :
    ∀ i ∈ Stmt.codes link level base ss, i.Inside base (base + Stmt.sizes level ss) := by
  intro i hi
  cases ss with
  | nil => simp [Stmt.codes] at hi
  | cons s rest =>
      rw [Stmt.sizes_cons]
      rw [Stmt.codes_cons] at hi
      rcases List.mem_append.mp hi with hi | hi
      · exact (s.inside_code hlink _ i hi).mono (by omega) (by omega)
      · exact (Stmt.inside_codes hlink _ rest i hi).mono (by omega) (by omega)

end

/-! ## Calls -/

mutual

/-- The procedures that a statement calls, in the order of the text. -/
def Stmt.callees : Stmt → List Symbol
  | .call callee _ => [callee]
  | .ifThen _ body => body.callees
  | .ifElse _ body alternative => body.callees ++ alternative.callees
  | .whileDo _ body => body.callees
  | .sequence body => Stmt.calleesIn body
  | _ => []

def Stmt.calleesIn : List Stmt → List Symbol
  | [] => []
  | s :: rest => s.callees ++ Stmt.calleesIn rest

end

/-- The calls among instructions. -/
def Instr.callsOf (instrs : List Instr) : List Instr := instrs.filter fun i => i.opcode = .call

namespace Instr

@[simp] theorem callsOf_append (is js : List Instr) : callsOf (is ++ js) = callsOf is ++ callsOf js := by
  simp [callsOf]

@[simp] theorem callsOf_cons_of_ne {i : Instr} (h : i.opcode ≠ .call) (is : List Instr) :
    callsOf (i :: is) = callsOf is := by
  simp [callsOf, h]

theorem callsOf_plain {is : List Instr} (h : ∀ i ∈ is, i.IsPlain) : callsOf is = [] := by
  simp only [callsOf, List.filter_eq_nil_iff]
  intro i hi
  simpa using (h i hi).ne_call

@[simp] theorem callsOf_expr (e : Expr) (level : Nat) : callsOf (e.code level) = [] :=
  callsOf_plain Expr.isPlain_code

end Instr

mutual

/-- The calls in the code of a statement are those of the statement, in their order. -/
theorem Stmt.callsOf_code {link : Linkage} (hlink : link.Calls) {level : Nat} (base : Nat) (s : Stmt) :
    Instr.callsOf (s.code link level base) = s.callees.map (link level) := by
  cases s with
  | call callee _ => simp [Stmt.code, Stmt.callees, Instr.callsOf, hlink level callee]
  | ifThen condition body => simp [Stmt.code_ifThen, Stmt.callees, body.callsOf_code hlink]
  | ifElse condition body alternative =>
      simp [Stmt.code_ifElse, Stmt.callees, body.callsOf_code hlink, alternative.callsOf_code hlink]
  | whileDo condition body =>
      simp [Stmt.code_whileDo, Stmt.callees, body.callsOf_code hlink]
      rfl
  | sequence body => exact Stmt.callsOf_codes hlink base body
  | _ => exact Instr.callsOf_plain (Stmt.IsPlain.code (by trivial))

theorem Stmt.callsOf_codes {link : Linkage} (hlink : link.Calls) {level : Nat} (base : Nat) (ss : List Stmt) :
    Instr.callsOf (Stmt.codes link level base ss) = (Stmt.calleesIn ss).map (link level) := by
  cases ss with
  | nil => rfl
  | cons s rest =>
      simp [Stmt.codes_cons, Stmt.calleesIn, s.callsOf_code hlink, Stmt.callsOf_codes hlink]

end

mutual

theorem Stmt.Uses.callees {V : Usage → Symbol → Prop} {s : Stmt} (h : s.Uses V) :
    ∀ x ∈ s.callees, V .callee x := by
  intro x hx
  cases s with
  | call callee _ =>
      obtain rfl := List.mem_singleton.mp hx
      exact h
  | ifThen _ body => exact Stmt.Uses.callees h.2 x hx
  | ifElse _ body alternative =>
      rcases List.mem_append.mp hx with hx | hx
      · exact Stmt.Uses.callees h.2.1 x hx
      · exact Stmt.Uses.callees h.2.2 x hx
  | whileDo _ body => exact Stmt.Uses.callees h.2 x hx
  | sequence body => exact Stmt.AllUse.callees h x hx
  | _ => simp [Stmt.callees] at hx

theorem Stmt.AllUse.callees {V : Usage → Symbol → Prop} {ss : List Stmt} (h : Stmt.AllUse V ss) :
    ∀ x ∈ Stmt.calleesIn ss, V .callee x := by
  intro x hx
  cases ss with
  | nil => simp [Stmt.calleesIn] at hx
  | cons s rest =>
      rcases List.mem_append.mp hx with hx | hx
      · exact Stmt.Uses.callees h.1 x hx
      · exact Stmt.AllUse.callees h.2 x hx

end

/-! ## Blocks in a row -/

/-- The blocks of a block that starts at `entry`, in the order of their code, with their places. -/
def Block.placed (entry : Nat) (b : Block) : List Placed := ⟨entry, b⟩ :: (b.places entry).map Prod.snd

def Placed.segment (link : Linkage) (p : Placed) : List Instr := p.block.segment link p.entry

/-- Places whose segments follow each other from one index to another. -/
inductive Stacked : Nat → List Placed → Nat → Prop where
  | nil {entry} : Stacked entry [] entry
  | cons {p ps stop} : Stacked p.inner ps stop → Stacked p.entry (p :: ps) stop

theorem Stacked.append {entry middle stop : Nat} {ps qs : List Placed} (h : Stacked entry ps middle)
    (h' : Stacked middle qs stop) : Stacked entry (ps ++ qs) stop := by
  induction h with
  | nil => exact h'
  | cons _ ih => exact .cons (ih h')

mutual

theorem Block.stacked (entry : Nat) (b : Block) : Stacked entry (b.placed entry) (entry + b.size) := by
  cases b with
  | mk level count consts vars procedures body =>
      have hprocs := Block.stackedIn (entry + (body.size level + 2)) procedures
      have hstop : entry + (body.size level + 2) + Block.sizes procedures = _ :=
        Placed.inner_add_sizes ⟨entry, ⟨level, count, consts, vars, procedures, body⟩⟩
      rw [hstop] at hprocs
      exact .cons (p := ⟨entry, _⟩) hprocs

theorem Block.stackedIn (entry : Nat) (ps : List (Procedure Block)) :
    Stacked entry ((Block.placesIn entry ps).map Prod.snd) (entry + Block.sizes ps) := by
  cases ps with
  | nil => exact .nil
  | cons p rest =>
      obtain ⟨x, block, position⟩ := p
      have hrest := Block.stackedIn (entry + block.size) rest
      have hsize : Block.sizes (⟨x, block, position⟩ :: rest) = block.size + Block.sizes rest := by
        rw [← Block.length_codes .draft 0, Block.codes_cons]
        simp
      rw [hsize, ← Nat.add_assoc]
      simpa [Block.placesIn, Block.placed] using (block.stacked entry).append hrest

end

mutual

theorem Block.code_eq_flatten (link : Linkage) (entry : Nat) (b : Block) :
    b.code link entry = ((b.placed entry).map (Placed.segment link)).flatten := by
  cases b with
  | mk level count consts vars procedures body =>
      rw [Block.code_eq, Block.codes_eq_flatten]
      rfl

theorem Block.codes_eq_flatten (link : Linkage) (entry : Nat) (ps : List (Procedure Block)) :
    Block.codes link entry ps = (((Block.placesIn entry ps).map Prod.snd).map (Placed.segment link)).flatten := by
  cases ps with
  | nil => rfl
  | cons p rest =>
      obtain ⟨x, block, position⟩ := p
      rw [Block.codes_cons, Block.code_eq_flatten, Block.codes_eq_flatten]
      simp [Block.placesIn, Block.placed]

end

/-- The first index of a segment in code that is made of segments. -/
def segmentStart (segments : List (List Instr)) (k : Nat) : Nat := (segments.take k).flatten.length

/-- A segment starts where its block has its place, and the next one starts where it ends. -/
theorem Stacked.segmentStart_eq {entry stop : Nat} {ps : List Placed} (h : Stacked entry ps stop)
    (link : Linkage) {k : Nat} {p : Placed} (hp : ps[k]? = some p) :
    p.entry = entry + segmentStart (ps.map (Placed.segment link)) k ∧
      p.inner = entry + segmentStart (ps.map (Placed.segment link)) (k + 1) := by
  induction h generalizing k with
  | nil => simp at hp
  | @cons q ps stop _ ih =>
      have hlength : (q.segment link).length = q.block.body.size q.block.level + 2 := by
        simp [Placed.segment]
      cases k with
      | zero =>
          cases hp
          simp [segmentStart, hlength, Placed.inner]
      | succ k =>
          obtain ⟨hentry, hinner⟩ := ih (by simpa using hp)
          simp only [segmentStart, List.map_cons, List.take_succ_cons, List.flatten_cons, List.length_append,
            hlength] at hentry hinner ⊢
          unfold Placed.inner at hentry hinner ⊢
          omega

theorem segmentStart_le (segments : List (List Instr)) (k : Nat) :
    segmentStart segments k ≤ segments.flatten.length := by
  conv => rhs; rw [← List.take_append_drop k segments, List.flatten_append, List.length_append]
  exact Nat.le_add_right _ _

mutual

theorem Nest.of_mem_places {program : Block} {outer : List Placed} (entry : Nat) (b : Block)
    (h : Nest program (⟨entry, b⟩ :: outer)) : ∀ p ∈ b.places entry, ∃ outer', Nest program (p.2 :: outer') := by
  cases b with
  | mk level count consts vars procedures body =>
      exact Nest.of_mem_placesIn _ procedures fun q hq => .procedure h hq

theorem Nest.of_mem_placesIn {program : Block} {chain : List Placed} (entry : Nat) (ps : List (Procedure Block))
    (h : ∀ q ∈ Placed.list entry ps, Nest program (q.2 :: chain)) :
    ∀ p ∈ Block.placesIn entry ps, ∃ outer', Nest program (p.2 :: outer') := by
  cases ps with
  | nil => simp [Block.placesIn]
  | cons q rest =>
      obtain ⟨x, block, position⟩ := q
      intro p hp
      simp only [Block.placesIn, List.mem_cons, List.mem_append] at hp
      have hfirst : Nest program (⟨entry, block⟩ :: chain) := h _ List.mem_cons_self
      rcases hp with rfl | hp | hp
      · exact ⟨chain, hfirst⟩
      · exact Nest.of_mem_places entry block hfirst p hp
      · exact Nest.of_mem_placesIn _ rest (fun q hq => h q (List.mem_cons_of_mem _ hq)) p hp

end

/-! ## The code of a source -/

/-- The instruction is a call from a block at `level` of the procedure `x` of the program, whose segment
is one of those given. -/
def Instr.CallsTo (program : Block) (code : Code) (segments : List (List Instr)) (level : Nat) (i : Instr)
    (x : Symbol) : Prop :=
  ∃ declared id k block, x.binding = .proc declared id ∧
    (Semantics.procedures program)[k]? = some (x, block) ∧ block.level = declared + 1 ∧
    declared ≤ level ∧ code.Counts i.level (level - declared) ∧
    code.Counts i.address (segmentStart segments (k + 1))

/-- What the segment of a block looks like, the block being the one with number `k`. -/
structure IsSegment (program : Block) (code : Code) (segments : List (List Instr)) (k : Nat)
    (b : Block) (segment : List Instr) : Prop where
  form : ∃ body, segment = ⟨.enter, 0, .ofNat (b.variableCount + reservedSlots)⟩ :: body ++ [.operate .ret] ∧
    ∀ i ∈ body, i.opcode ≠ .enter
  jumps : ∀ i ∈ segment, i.opcode = .jump ∨ i.opcode = .jumpIfFalse →
    ∃ target, code.Counts i.address target ∧ segmentStart segments k < target ∧
      target < segmentStart segments (k + 1)
  calls : List.Forall₂ (Instr.CallsTo program code segments b.level) (Instr.callsOf segment) b.body.callees

/-- Code is made of segments, one for each block of the program in turn. -/
structure Segmentation (program : Block) (code : Code) (segments : List (List Instr)) : Prop where
  flatten_eq : code.toList = segments.flatten
  length_eq : segments.length = program.blocks.length
  /-- Different procedures have different symbols. -/
  symbols : ((Semantics.procedures program).map Prod.fst).Nodup
  segment : ∀ (k : Nat) (b : Block) (segment : List Instr), program.blocks[k]? = some b →
    segments[k]? = some segment → IsSegment program code segments k b segment

theorem Block.map_placed (entry : Nat) (program : Block) :
    (program.placed entry).map Placed.block = program.blocks := by
  simp [Block.placed, Block.blocks, ← Block.map_places entry program, Function.comp_def]

theorem Block.calls_linkage (program : Block) : program.linkage.Calls := by
  intro level x
  unfold Block.linkage
  split
  · split <;> rfl
  · rfl

section

variable {program : Block} {code : Code} (hresolved : Resolved program)
  (hcode : code.toList = program.code program.linkage 0)

include hcode

theorem segmentStart_le_size (k : Nat) :
    segmentStart ((program.placed 0).map (Placed.segment program.linkage)) k ≤ code.size := by
  rw [← Array.length_toList, hcode, Block.code_eq_flatten]
  exact segmentStart_le _ _

include hresolved

/-- Every call of a block goes to a procedure of the program. -/
theorem Resolved.callsTo {s : Placed} {outer : List Placed} (hnest : Nest program (s :: outer)) {x : Symbol}
    (hx : Usage.Admits .callee x ∧ Visible (s :: outer) x) :
    Instr.CallsTo program code ((program.placed 0).map (Placed.segment program.linkage)) s.block.level
      (program.linkage s.block.level x) x := by
  obtain ⟨hadmits, hvisible⟩ := hx
  have hlevel := hresolved.level hnest
  cases hbinding : x.binding with
  | var => simp [Usage.Admits, hbinding] at hadmits
  | const => simp [Usage.Admits, hbinding] at hadmits
  | proc declared id =>
      obtain ⟨inner, t, around, u, hchain, rfl, hu⟩ := hvisible.exists_place hbinding
      have ht : Nest program (t :: around) := by
        rw [hchain] at hnest
        exact hnest.suffix
      have hle : around.length ≤ s.block.level := by
        have := congrArg List.length hchain
        simp at this
        omega
      obtain ⟨k, hk⟩ := List.getElem?_of_mem (Resolved.mem_places ht hu)
      have hplaced : (program.placed 0)[k + 1]? = some u := by
        simp [Block.placed, hk]
      have hstart := ((program.stacked 0).segmentStart_eq program.linkage hplaced).1
      rw [Nat.zero_add] at hstart
      rw [hresolved.linkage ht hu hbinding, Operand.ofNat_sub hle, hstart]
      refine ⟨around.length, id, k, u.block, hbinding, ?_, hresolved.level (.procedure ht hu), hle,
        Code.counts_ofNat ?_, Code.counts_ofNat (segmentStart_le_size hcode _)⟩
      · simp [← Block.map_places 0 program, hk]
      · have := hnest.length_le_entry
        have := (hnest.holds hcode).le_size
        omega

theorem Resolved.isSegment {s : Placed} {outer : List Placed} (hnest : Nest program (s :: outer)) {k : Nat}
    (hs : (program.placed 0)[k]? = some s) :
    IsSegment program code ((program.placed 0).map (Placed.segment program.linkage)) k s.block
      (s.segment program.linkage) := by
  obtain ⟨hentry, hinner⟩ := (program.stacked 0).segmentStart_eq program.linkage hs
  rw [Nat.zero_add] at hentry hinner
  have hinside : ∀ i ∈ s.block.body.code program.linkage s.block.level (s.entry + 1),
      i.Inside (s.entry + 1) (s.entry + 1 + s.block.body.size s.block.level) :=
    s.block.body.inside_code program.calls_linkage _
  refine ⟨⟨_, rfl, fun i hi => (hinside i hi).1⟩, ?_, ?_⟩
  · intro i hi hjump
    simp only [Placed.segment, Block.segment, List.mem_append, List.mem_cons, List.not_mem_nil, or_false] at hi
    rcases hi with (rfl | hi) | rfl
    · simp at hjump
    · obtain ⟨target, haddress, hlo, hhi⟩ := (hinside i hi).2 hjump
      have hstop : target < s.inner := by
        unfold Placed.inner
        omega
      have hle := segmentStart_le_size hcode (k + 1)
      rw [← hinner] at hle
      rw [haddress, ← hentry, ← hinner]
      exact ⟨target, Code.counts_ofNat (by omega), by omega, hstop⟩
    · simp [Instr.operate] at hjump
  · have hcalls : Instr.callsOf (s.segment program.linkage)
        = s.block.body.callees.map (program.linkage s.block.level) := by
      rw [← Stmt.callsOf_code program.calls_linkage (s.entry + 1)]
      simp [Placed.segment, Block.segment, Instr.callsOf, Instr.operate]
    rw [hcalls, List.forall₂_map_left_iff, List.forall₂_same]
    intro x hx
    exact hresolved.callsTo hcode hnest ((hresolved.uses hnest).callees x hx)

theorem Resolved.segmentation :
    Segmentation program code ((program.placed 0).map (Placed.segment program.linkage)) := by
  refine ⟨hcode.trans (Block.code_eq_flatten program.linkage 0 program), ?_,
    Semantics.nodup_symbols hresolved.ids, ?_⟩
  · rw [← Block.map_placed 0 program, List.length_map, List.length_map]
  · intro k b segment hb hsegment
    rw [← Block.map_placed 0 program, List.getElem?_map, Option.map_eq_some_iff] at hb
    obtain ⟨s, hs, rfl⟩ := hb
    obtain rfl : s.segment program.linkage = segment := by simpa [hs] using hsegment
    rcases List.mem_cons.mp (List.mem_of_getElem? hs) with rfl | hmem
    · exact hresolved.isSegment hcode .program hs
    · obtain ⟨p, hp, rfl⟩ := List.mem_map.mp hmem
      obtain ⟨outer, hnest⟩ := Nest.of_mem_places 0 program .program p hp
      exact hresolved.isSegment hcode hnest hs

end

/-- The code of a source is made of the segments of its program, and the numbers in its `enter`
instructions are exact as well. -/
theorem Source.compile_segments {source : String} {code : Code}
    (hcompile : (Source.compile source).1 = .ok code) :
    ∃ program segments, Source.parse source = .ok program ∧ Segmentation program code segments ∧
      (source.length < Decimal.int64Bound → program.FramesFit) := by
  obtain ⟨program, hparse, hcode, hresolved⟩ := Source.exists_resolved hcompile
  exact ⟨program, _, hparse, hresolved.segmentation hcode, Source.framesFit hparse⟩

/-! A procedure within a procedure, which calls the one around it and is called from a branch. -/

namespace NestedCalls

def source : String := "procedure p; procedure q; call p; if 1 = 1 then call q; call p."

def code : Code := #[
  ⟨.enter, 0, 3⟩, ⟨.call, 0, 3⟩, .operate .ret,
  ⟨.enter, 0, 3⟩, ⟨.loadConst, 0, 1⟩, ⟨.loadConst, 0, 1⟩, .operate (.binary .eq), ⟨.jumpIfFalse, 0, 9⟩,
  ⟨.call, 0, 10⟩, .operate .ret,
  ⟨.enter, 0, 3⟩, ⟨.call, 2, 3⟩, .operate .ret]

end NestedCalls

theorem Source.compile_segments_nested :
    (Source.compile NestedCalls.source).1 = .ok NestedCalls.code ∧
      ∃ program segments, Source.parse NestedCalls.source = .ok program ∧
        Segmentation program NestedCalls.code segments ∧
        (NestedCalls.source.length < Decimal.int64Bound → program.FramesFit) := by
  have hcompile : (Source.compile NestedCalls.source).1 = .ok NestedCalls.code := by cbv
  exact ⟨hcompile, Source.compile_segments hcompile⟩

end PLZero
