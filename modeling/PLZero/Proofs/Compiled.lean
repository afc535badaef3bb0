import PLZero.Pipeline
import PLZero.Proofs.Grammar.Soundness
import PLZero.Proofs.Layout.Emission
import PLZero.Proofs.Resolution
import PLZero.Proofs.Semantics

/-!
# The code of a program

What holds of the tree and the code of every source that compiles: where each block has its code, what
the names in it denote, how calls are linked, and that the numbers in its instructions are exact. This
is all that is used of the parser and the compiler when code is run.
-/

namespace PLZero

open Grammar

/-! ## Code of a program -/

/-- What there is to know about the code of a program. -/
structure Compiled (program : Block) (code : Code) : Prop where
  segment : ∀ {s outer}, Nest program (s :: outer) →
    code.Holds s.entry (s.block.segment program.linkage s.entry)
  level : ∀ {s outer}, Nest program (s :: outer) → s.block.level = outer.length
  uses : ∀ {s outer}, Nest program (s :: outer) →
    s.block.body.Uses fun use x => use.Admits x ∧ Visible (s :: outer) x
  linkage : ∀ {t u outer x declared id}, Nest program (t :: outer) → (x, u) ∈ t.procedures →
    x.binding = .proc declared id → ∀ level,
      program.linkage level x = ⟨.call, .ofNat level - .ofNat declared, .ofNat u.entry⟩
  callee : ∀ {t u outer x}, Nest program (t :: outer) → (x, u) ∈ t.procedures →
    (Semantics.procedures program).lookup x = some u.block
  size_lt : code.size < Decimal.int64Bound
  slots_lt : ∀ {s outer}, Nest program (s :: outer) →
    s.block.variableCount + reservedSlots < Decimal.int64Bound

/-! ## Sizes -/

/-- A source has at most one token for each character, and the end. -/
theorem Scanner.length_tokenize_le {s s' : Scanner} {tokens : List (Located Token)}
    (h : s.tokenize = (.ok tokens, s')) : tokens.length ≤ s.rest.length + 1 := by
  fun_induction Scanner.tokenize s generalizing tokens s' with
  | case1 s position hs =>
      cases h
      simp
  | case2 s c following position hs cause length hl => cases h
  | case3 s c following position hs token length hl tokens' s₁ hrest ih =>
      cases h
      have hpos := lexeme_length_pos hl
      have hblanks := s.length_skipBlanks_le
      have hle := ih hrest
      simp only [hs, advance, List.length_drop, List.length_cons] at hblanks hle ⊢
      omega
  | case4 s c following position hs token length hl e s₁ hrest ih => cases h

theorem Grammar.two_mul_length_le {w : Word} {names : List String} (h : Separated .comma Name w names) :
    2 * names.length ≤ w.length + 1 := by
  induction h with
  | one h =>
      cases h
      simp
  | more h _ ih =>
      cases h
      simp
      omega

/-- The blocks of a program, those of its procedures included. -/
def Block.blocks (program : Block) : List Block := program :: (Semantics.procedures program).map Prod.snd

mutual

/-- A block has at most one variable for two tokens, and so have its procedures. -/
theorem Grammar.BlockAt.two_mul_variableCount_le {Γ : Context} {n n' : Nat} {w : Word} {b : Block} :
    BlockAt Γ n w b n' → ∀ block ∈ b.blocks, 2 * block.variableCount ≤ w.length
  | .mk _ hvs _ hps _ => by
      intro block hblock
      rcases List.mem_cons.mp hblock with rfl | hblock
      · cases hvs with
        | none => simp
        | some hnames =>
            have := two_mul_length_le hnames
            simp
            omega
      · have := hps.two_mul_variableCount_le block hblock
        simp
        omega

theorem Grammar.ProceduresAt.two_mul_variableCount_le {Γ : Context} {scope scope' : List Symbol} {n n' : Nat}
    {w : Word} {ps : List (Procedure Block)} : ProceduresAt Γ scope n w ps scope' n' →
    ∀ block ∈ (Semantics.proceduresIn ps).map Prod.snd, 2 * block.variableCount ≤ w.length
  | .nil => by simp [Semantics.proceduresIn]
  | .cons _ hblock hps => by
      intro block hmem
      simp only [Semantics.proceduresIn, List.map_cons, List.map_append] at hmem
      rw [← List.cons_append, List.mem_append] at hmem
      rcases hmem with hmem | hmem
      · have := hblock.two_mul_variableCount_le block hmem
        simp
        omega
      · have := hps.two_mul_variableCount_le block hmem
        simp
        omega

end

/-- The sizes of the frames of a program fit an operand. -/
def Block.FramesFit (program : Block) : Prop :=
  ∀ block ∈ program.blocks, block.variableCount + reservedSlots < Decimal.int64Bound

/-! ## Procedures -/

mutual

theorem Block.map_places (entry : Nat) (b : Block) :
    (b.places entry).map (fun p => (p.1, p.2.block)) = Semantics.procedures b := by
  cases b with
  | mk => exact Block.map_placesIn _ _

theorem Block.map_placesIn (entry : Nat) (ps : List (Procedure Block)) :
    (Block.placesIn entry ps).map (fun p => (p.1, p.2.block)) = Semantics.proceduresIn ps := by
  cases ps with
  | nil => rfl
  | cons p rest =>
      obtain ⟨x, block, position⟩ := p
      simp only [Block.placesIn, Semantics.proceduresIn, List.map_cons, List.map_append,
        Block.map_places _ block, Block.map_placesIn _ rest]

end

theorem Semantics.nodup_symbols {program : Block}
    (hids : ((program.places 0).map fun p => p.1.procedureId).Nodup) :
    ((procedures program).map Prod.fst).Nodup := by
  rw [← Block.map_places 0 program, List.map_map]
  refine List.Pairwise.of_map (S := (· ≠ ·)) Symbol.procedureId (fun a b => mt (congrArg _)) ?_
  rw [List.map_map]
  exact hids

/-- The procedure that a symbol of the program denotes is the one at its place. -/
theorem Semantics.lookup_procedures {program : Block} {x : Symbol} {t : Placed}
    (hids : ((program.places 0).map fun p => p.1.procedureId).Nodup) (h : (x, t) ∈ program.places 0) :
    (procedures program).lookup x = some t.block := by
  refine lookup_of_mem (nodup_symbols hids) ?_
  rw [← Block.map_places 0 program]
  exact List.mem_map_of_mem (f := fun p : Symbol × Placed => (p.1, p.2.block)) h

/-! ## Sources -/

theorem Source.exists_of_compile {source : String} {code : Code} (h : (Source.compile source).1 = .ok code) :
    ∃ tokens program, Token.lex source = .ok tokens ∧ Block.parse tokens = .ok program ∧
      program.compile = .ok code := by
  unfold Source.compile at h
  split at h
  · cases h
  · next tokens hlex =>
    dsimp only at h
    split at h
    · cases h
    · next program hparse =>
      split at h
      · cases h
      · next code' compiler hcompile =>
        cases h
        exact ⟨tokens, program, hlex, hparse, by rw [Block.compile, hcompile]⟩

/-- The word of a parsed block is a part of its tokens. -/
theorem Block.exists_subset_of_parse {tokens : Word} {program : Block} (h : Block.parse tokens = .ok program) :
    ∃ w n, BlockAt [] 0 w program n ∧ (∀ t ∈ w, t ∈ tokens) ∧ w.length < tokens.length := by
  unfold Block.parse at h
  split at h
  · next b q hb =>
    cases h
    obtain ⟨w, n, a, rest, rfl, hw, -⟩ := Parser.program_sound hb
    exact ⟨w, n, hw, fun t ht => by simp [ht], by simp⟩
  · cases h

theorem Block.exists_of_parse {tokens : Word} {program : Block} (h : Block.parse tokens = .ok program) :
    ∃ w n, BlockAt [] 0 w program n ∧ w.length < tokens.length := by
  obtain ⟨w, n, hw, -, hlength⟩ := Block.exists_subset_of_parse h
  exact ⟨w, n, hw, hlength⟩

/-- The frames of a program are not larger than its source. -/
theorem Source.framesFit {source : String} {program : Block} (h : Source.parse source = .ok program)
    (hsource : source.length < Decimal.int64Bound) : program.FramesFit := by
  unfold Source.parse at h
  split at h
  · cases h
  · next tokens hlex =>
    split at h
    · cases h
    · next program' hparse =>
      cases h
      obtain ⟨w, n, hprogram, hlt⟩ := Block.exists_of_parse hparse
      have hle := Scanner.length_tokenize_le (s := .ofString source) (Prod.ext hlex rfl)
      simp only [Scanner.ofString, String.length_toList] at hle
      intro block hblock
      have := hprogram.two_mul_variableCount_le block hblock
      -- Half of the source is room enough for the reserved slots, unless it is very short.
      unfold Decimal.int64Bound reservedSlots at *
      omega

/-- What there is to know about the names of a program, whatever the sizes of its code and frames. -/
structure Resolved (program : Block) : Prop where
  ids : ((program.places 0).map fun p => p.1.procedureId).Nodup
  level : ∀ {s outer}, Nest program (s :: outer) → s.block.level = outer.length
  uses : ∀ {s outer}, Nest program (s :: outer) →
    s.block.body.Uses fun use x => use.Admits x ∧ Visible (s :: outer) x

namespace Resolved

variable {program : Block} {t u : Placed} {outer : List Placed} {x : Symbol}

theorem mem_places (hnest : Nest program (t :: outer)) (hu : (x, u) ∈ t.procedures) :
    (x, u) ∈ program.places 0 :=
  hnest.places_subset _ (Nest.mem_places hu).1

theorem linkage (h : Resolved program) {declared id : Nat} (hnest : Nest program (t :: outer))
    (hu : (x, u) ∈ t.procedures) (hx : x.binding = .proc declared id) (level : Nat) :
    program.linkage level x = ⟨.call, .ofNat level - .ofNat declared, .ofNat u.entry⟩ :=
  Block.linkage_eq h.ids (mem_places hnest hu) hx level

end Resolved

/-- The tree of a source that compiles, and its code. -/
theorem Source.exists_resolved {source : String} {code : Code} (h : (Source.compile source).1 = .ok code) :
    ∃ program, Source.parse source = .ok program ∧ code.toList = program.code program.linkage 0 ∧
      Resolved program := by
  obtain ⟨tokens, program, hlex, hparse, hcompile⟩ := Source.exists_of_compile h
  obtain ⟨w, n, hprogram, -⟩ := Block.exists_of_parse hparse
  obtain ⟨hcode, huses, hproper⟩ := Block.compile_eq hcompile
  refine ⟨program, by simp [Source.parse, hlex, hparse], hcode, hprogram.nodup_ids, ?_, ?_⟩
  · intro s outer hnest
    exact hnest.level_eq (hprogram.wellResolved .nil)
  · -- What a name is used for is checked by the compiler, that it is declared by the parser.
    intro s outer hnest
    have hadmits : s.block.body.Uses Usage.Admits := by
      cases hnest with
      | program => exact huses
      | procedure hnest hx => exact (hproper _ (Resolved.mem_places hnest hx)).2
    exact hadmits.combine (fun _ _ => .intro) (hnest.uses_visible (hprogram.wellResolved .nil))

/-- The same, where no size is too great for an operand. -/
theorem Source.exists_compiled {source : String} {code : Code} (h : (Source.compile source).1 = .ok code)
    (hsize : code.size < Decimal.int64Bound)
    (hframes : ∀ program, Source.parse source = .ok program → program.FramesFit) :
    ∃ program, Source.parse source = .ok program ∧ Compiled program code := by
  obtain ⟨program, hsource, hcode, hresolved⟩ := Source.exists_resolved h
  refine ⟨program, hsource, ?_, hresolved.level, hresolved.uses, hresolved.linkage, ?_, hsize, ?_⟩
  · intro s outer hnest
    have hholds := hnest.holds hcode
    rw [Block.code_eq] at hholds
    exact hholds.left
  · intro t u outer x hnest hu
    exact Semantics.lookup_procedures hresolved.ids (Resolved.mem_places hnest hu)
  · intro s outer hnest
    refine hframes program hsource _ ?_
    cases hnest with
    | program => exact List.mem_cons_self
    | procedure hnest hx =>
        rw [Block.blocks, ← Block.map_places 0 program, List.map_map]
        exact List.mem_cons_of_mem _
          (List.mem_map_of_mem (f := fun p => p.2.block) (Resolved.mem_places hnest hx))

end PLZero
