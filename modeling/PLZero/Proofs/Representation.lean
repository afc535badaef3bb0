import PLZero.Proofs.Execution
import PLZero.Proofs.Semantics

/-!
# Frames and environments

The cells of an environment are the local slots of the frames on a static chain. Work in an activation
changes local slots on its chain and nothing else of the frames that were there (`Alters`), so that a
caller finds its frame again, and its cells apart from those that the callee could reach.
-/

namespace PLZero

open Semantics (Env fresh)

/-! ## What a body may change -/

/-- A frame without its local slots. -/
def Frame.shell (f : Frame) : Frame := { f with locals := #[] }

@[simp] theorem Frame.returnAddress_shell (f : Frame) : f.shell.returnAddress = f.returnAddress := rfl

/-- The frames are the same, apart from local slots of the frames with the given indices. -/
structure Alters (links : List Nat) (before after : Array Frame) : Prop where
  shells : after.map Frame.shell = before.map Frame.shell
  outside : ∀ i, i ∉ links → after[i]? = before[i]?

namespace Alters

variable {links links' : List Nat} {fs gs hs : Array Frame} {f g : Frame}

theorem refl (links : List Nat) (fs : Array Frame) : Alters links fs fs := ⟨rfl, fun _ _ => rfl⟩

theorem trans (h : Alters links fs gs) (h' : Alters links gs hs) : Alters links fs hs :=
  ⟨h'.shells.trans h.shells, fun i hi => (h'.outside i hi).trans (h.outside i hi)⟩

theorem mono (h : Alters links fs gs) (hlinks : ∀ i ∈ links, i ∈ links') : Alters links' fs gs :=
  ⟨h.shells, fun i hi => h.outside i (mt (hlinks i) hi)⟩

theorem bones (h : Alters links fs gs) : gs.map Frame.bone = fs.map Frame.bone := by
  have hbone : Frame.bone = Frame.bone ∘ Frame.shell := rfl
  rw [hbone, ← Array.map_map, h.shells, Array.map_map]

theorem setLocal {j : Nat} (hj : j ∈ links) (slot : Nat) (v : Int64) :
    Alters links fs (fs.modify j (·.setLocal slot v)) := by
  refine ⟨Frame.map_modify_setLocal Frame.shell (fun _ => rfl) fs j, ?_⟩
  intro i hi
  rw [Array.getElem?_modify, if_neg]
  rintro rfl
  exact hi hj

theorem of_push (h : Alters (fs.size :: links) (fs.push f) (gs.push g)) :
    Alters links fs gs ∧ g.shell = f.shell := by
  have hshells := h.shells
  rw [Array.map_push, Array.map_push, Array.push_eq_push] at hshells
  obtain ⟨hlast, hshells⟩ := hshells
  have hsize : gs.size = fs.size := by simpa using congrArg Array.size hshells
  refine ⟨⟨hshells, ?_⟩, hlast⟩
  intro i hi
  by_cases hlt : i < fs.size
  · have := h.outside i (by simp [hi]; omega)
    rwa [Array.getElem?_push, if_neg (by omega), Array.getElem?_push, if_neg (by omega)] at this
  · rw [Array.getElem?_eq_none (by omega), Array.getElem?_eq_none (by omega)]

end Alters

/-! ## What a static chain holds -/

def cells (frames : Array Frame) (j : Nat) : Array Int64 := (frames[j]?.map Frame.locals).getD #[]

theorem cells_push {frames : Array Frame} {j : Nat} (hj : j < frames.size) (f : Frame) :
    cells (frames.push f) j = cells frames j := by
  unfold cells
  rw [Array.getElem?_push, if_neg (Nat.ne_of_lt hj)]

/-- What the frames of a static chain hold, outermost first. -/
def view (frames : Array Frame) (links : List Nat) : Env := (links.map (cells frames)).reverse

section

variable {fs gs : Array Frame} {links : List Nat}

@[simp] theorem length_view : (view fs links).length = links.length := by
  simp [view]

theorem view_congr (h : ∀ j ∈ links, cells gs j = cells fs j) : view gs links = view fs links := by
  unfold view
  rw [List.map_congr_left h]

theorem view_append (inner outer : List Nat) :
    view fs (inner ++ outer) = view fs outer ++ view fs inner := by
  simp [view]

theorem view_cons (j : Nat) : view fs (j :: links) = view fs links ++ [cells fs j] := by
  simp [view]

theorem view_split (inner outer : List Nat) (j : Nat) :
    view fs (inner ++ j :: outer) = view fs outer ++ cells fs j :: view fs inner := by
  simp [view]

theorem take_view (e : Nat) : (view fs links).take (links.length - e) = view fs (links.drop e) := by
  conv => lhs; rw [← List.take_append_drop e links, view_append]
  rw [List.take_left' (by simp)]

theorem drop_view (e : Nat) : (view fs links).drop (links.length - e) = view fs (links.take e) := by
  conv => lhs; rw [← List.take_append_drop e links, view_append]
  rw [List.drop_left' (by simp)]

theorem cells_setLocal (j slot : Nat) (v : Int64) (i : Nat) :
    cells (fs.modify j (·.setLocal slot v)) i =
      if j = i then (cells fs i).setIfInBounds slot v else cells fs i := by
  unfold cells
  rw [Array.getElem?_modify]
  by_cases h : j = i
  · rw [if_pos h, if_pos h]
    cases fs[i]? <;> rfl
  · rw [if_neg h, if_neg h]

/-- Storing into a frame of a static chain stores into the cells at its place. -/
theorem view_setLocal (fs : Array Frame) {inner outer : List Nat} {j : Nat}
    (hlinks : (inner ++ j :: outer).Nodup) (slot : Nat) (v : Int64) :
    view (fs.modify j (·.setLocal slot v)) (inner ++ j :: outer) =
      (view fs (inner ++ j :: outer)).modify outer.length (·.setIfInBounds slot v) := by
  obtain ⟨-, houter, hinner⟩ := List.nodup_append.mp hlinks
  have hsame : ∀ i, i ≠ j → cells (fs.modify j (·.setLocal slot v)) i = cells fs i := fun i hi => by
    rw [cells_setLocal, if_neg hi.symm]
  have houter : view (fs.modify j (·.setLocal slot v)) outer = view fs outer :=
    view_congr fun i hi => hsame i fun h => (List.nodup_cons.mp houter).1 (h ▸ hi)
  have hinner : view (fs.modify j (·.setLocal slot v)) inner = view fs inner :=
    view_congr fun i hi => hsame i (hinner i hi j List.mem_cons_self)
  rw [view_split, view_split, houter, hinner, cells_setLocal, if_pos rfl]
  have hmodify := modify_middle (view fs outer) (cells fs j) (view fs inner) (·.setIfInBounds slot v)
  rw [length_view] at hmodify
  exact hmodify.symm

end

/-! ## Environments -/

/-- The numbers of variables of the blocks of a chain, outermost first. -/
def slotCounts (chain : List Placed) : List Nat := (chain.map (·.block.variableCount)).reverse

theorem slotCounts_append (inner outer : List Placed) :
    slotCounts (inner ++ outer) = slotCounts outer ++ slotCounts inner := by
  simp [slotCounts]

@[simp] theorem length_slotCounts (chain : List Placed) : (slotCounts chain).length = chain.length := by
  simp [slotCounts]

/-- The frames stand for an environment: the last one is an activation of the first block of a chain,
and the cells of the blocks are the local slots on its static chain. -/
structure Represents (program : Block) (chain : List Placed) (links : List Nat) (frames : Array Frame)
    (env : Env) : Prop where
  linked : Linked program (frames.map Frame.bone)
  activation : Activation program (frames.map Frame.bone) (frames.size - 1) chain links
  env_eq : env = view frames links
  sizes : env.map Array.size = slotCounts chain

namespace Represents

variable {program : Block} {chain : List Placed} {links : List Nat}
  {frames below : Array Frame} {f : Frame} {env : Env}

theorem exists_push (h : Represents program chain links frames env) :
    ∃ (below : Array Frame) (f : Frame), frames = below.push f := by
  have hsize := h.activation.static.lt_size
  rw [Array.size_map] at hsize
  exact Array.exists_push_of_size_pos (by omega)

theorem length_links (h : Represents program chain links frames env) : links.length = chain.length :=
  h.activation.static.length_eq

theorem lt_of_mem (h : Represents program chain links frames env) {j : Nat} (hj : j ∈ links) :
    j < frames.size := by
  have hle := h.activation.le_of_mem hj
  have hlt := h.activation.static.lt_size
  rw [Array.size_map] at hlt
  omega

/-- The frame that a number of static links lead to holds the cells of the block as far out. -/
theorem access {inner outer : List Placed} {t : Placed}
    (h : Represents program (inner ++ t :: outer) links (below.push f) env) :
    ∃ j g, links[inner.length]? = some j ∧ CallStack.follow ⟨below.push f⟩ inner.length below.size = some j ∧
      (below.push f)[j]? = some g ∧ env[outer.length]? = some g.locals ∧
      g.locals.size = t.block.variableCount := by
  obtain ⟨j, hj, hstatic⟩ := h.activation.static.suffix
  have hlength := h.length_links
  rw [List.length_append, List.length_cons] at hlength
  have hfollow : CallStack.follow ⟨below.push f⟩ inner.length ((below.push f).size - 1) = links[inner.length]? :=
    Activates.follow_eq h.activation.static (by omega)
  rw [Array.size_push, Nat.add_sub_cancel, hj] at hfollow
  have hlt := hstatic.lt_size
  rw [Array.size_map] at hlt
  obtain ⟨hlt', rfl⟩ := List.getElem?_eq_some_iff.mp hj
  have hcells : env[outer.length]? = some (cells (below.push f) links[inner.length]) := by
    have hsplit : links = links.take inner.length ++ links[inner.length] :: links.drop (inner.length + 1) := by
      simp
    have houter : (view (below.push f) (links.drop (inner.length + 1))).length = outer.length := by
      rw [length_view, List.length_drop]
      omega
    rw [h.env_eq]
    conv => lhs; rw [hsplit, view_split, ← houter]
    simp
  have hsize := congrArg (·[outer.length]?) h.sizes
  have hplace : (slotCounts (inner ++ t :: outer))[outer.length]? = some t.block.variableCount := by
    simp [slotCounts]
  simp only [List.getElem?_map, hcells, hplace, Option.map_some, Option.some.injEq] at hsize
  have hg := Array.getElem?_eq_getElem hlt
  simp only [cells, hg, Option.map_some, Option.getD_some] at hcells hsize
  exact ⟨_, _, hj, hfollow, hg, hcells, hsize⟩

theorem congr {gs : Array Frame} (h : Represents program chain links frames env)
    (hbones : gs.map Frame.bone = frames.map Frame.bone)
    (hlocals : gs.map Frame.locals = frames.map Frame.locals) :
    Represents program chain links gs env := by
  have hsize : gs.size = frames.size := by simpa using congrArg Array.size hbones
  have hcells : ∀ j ∈ links, cells gs j = cells frames j := by
    intro j _
    unfold cells
    rw [← Array.getElem?_map, hlocals, Array.getElem?_map]
  exact ⟨hbones ▸ h.linked, hbones ▸ hsize ▸ h.activation, (view_congr hcells).symm ▸ h.env_eq, h.sizes⟩

theorem push (h : Represents program chain links (below.push f) env) (v : Int64) :
    Represents program chain links (below.push (f.push v)) env :=
  h.congr (by simp) (by simp [Frame.push])

theorem setLocal (h : Represents program chain links frames env) {j k level : Nat}
    (hj : links[k]? = some j) (hlevel : level + k + 1 = chain.length) (slot : Nat) (v : Int64) :
    Represents program chain links (frames.modify j (·.setLocal slot v))
      (env.modify level (·.setIfInBounds slot v)) := by
  have hbones := Frame.map_modify_setLocal Frame.bone (fun g => g.bone_setLocal slot v) frames j
  obtain ⟨hk, rfl⟩ := List.getElem?_eq_some_iff.mp hj
  have hsplit : links = links.take k ++ links[k] :: links.drop (k + 1) := by simp
  have hdrop : (links.drop (k + 1)).length = level := by
    rw [List.length_drop, h.length_links]
    omega
  refine ⟨hbones ▸ h.linked, ?_, ?_, ?_⟩
  · rw [hbones, Array.size_modify]
    exact h.activation
  · have hnodup := h.activation.nodup
    rw [hsplit] at hnodup
    have hview := view_setLocal frames hnodup slot v
    rw [← hsplit, hdrop] at hview
    rw [hview, h.env_eq]
  · rw [← h.sizes]
    apply List.ext_getElem?
    intro i
    rw [List.getElem?_map, List.getElem?_map, List.getElem?_modify]
    cases env[i]? with
    | none => rfl
    | some c => by_cases hi : level = i <;> simp [hi]

section

variable {inner outer : List Placed} {t u : Placed} {x : Symbol} {j : Nat} {g g' : Frame}
  {gs : Array Frame} {env' : Env}

theorem length_links_sub (h : Represents program (inner ++ t :: outer) links frames env) :
    links.length - inner.length = outer.length + 1 := by
  rw [h.length_links, List.length_append, List.length_cons]
  omega

/-- A called procedure has the cells of the blocks around it, and fresh ones. -/
theorem enter (h : Represents program (inner ++ t :: outer) links frames env)
    (hx : (x, u) ∈ t.procedures) (hj : links[inner.length]? = some j)
    (hbone : g.bone = (u.entry, some j)) (hlocals : g.locals = fresh u.block) :
    Represents program (u :: t :: outer) (frames.size :: links.drop inner.length) (frames.push g)
      (env.take (outer.length + 1) ++ [fresh u.block]) := by
  have hpos := h.activation.static.lt_size
  rw [Array.size_map] at hpos
  have hact := h.activation.call (by rw [Array.size_map]; omega) hx hj
  rw [Array.size_map, ← hbone, ← Array.map_push] at hact
  have hlength := h.length_links_sub
  refine ⟨?_, ?_, ?_, ?_⟩
  · rw [Array.map_push] at hact ⊢
    rw [← Array.size_map (f := Frame.bone)] at hact
    exact h.linked.push hact
  · rw [Array.size_push, Nat.add_sub_cancel]
    exact hact
  · have hcells : ∀ i ∈ links.drop inner.length, cells (frames.push g) i = cells frames i :=
      fun i hi => cells_push (h.lt_of_mem (List.mem_of_mem_drop hi)) g
    have hlast : cells (frames.push g) frames.size = fresh u.block := by simp [cells, hlocals]
    rw [view_cons, view_congr hcells, hlast, h.env_eq, ← take_view, hlength]
  · have hnew : slotCounts (u :: t :: outer) = slotCounts (t :: outer) ++ [(fresh u.block).size] := by
      simp [slotCounts, fresh]
    rw [List.map_append, List.map_take, h.sizes, slotCounts_append, List.take_left' (by simp), hnew]
    rfl

/-- When a procedure has ended, its caller has its own cells again, and finds the others as the
procedure left them. -/
theorem leave (h : Represents program (inner ++ t :: outer) links frames env)
    (halters : Alters (frames.size :: links.drop inner.length) (frames.push g) (gs.push g'))
    (h' : Represents program (u :: t :: outer) (frames.size :: links.drop inner.length) (gs.push g') env') :
    Represents program (inner ++ t :: outer) links gs
      (env'.take (outer.length + 1) ++ env.drop (outer.length + 1)) := by
  obtain ⟨hsame, -⟩ := halters.of_push
  have hsize : gs.size = frames.size := by simpa using congrArg Array.size hsame.shells
  have hlength := h.length_links_sub
  refine ⟨hsame.bones ▸ h.linked, ?_, ?_, ?_⟩
  · rw [hsame.bones, hsize]
    exact h.activation
  · -- The cells that the procedure could reach are those on the rest of the static chain.
    have hreached : env'.take (outer.length + 1) = view gs (links.drop inner.length) := by
      have hcells : ∀ i ∈ links.drop inner.length, cells (gs.push g') i = cells gs i :=
        fun i hi => cells_push (hsize ▸ h.lt_of_mem (List.mem_of_mem_drop hi)) g'
      rw [h'.env_eq, view_cons, view_congr hcells, List.take_left' (by simp [hlength])]
    -- The others belong to frames that it left alone.
    have hown : env.drop (outer.length + 1) = view gs (links.take inner.length) := by
      have hcells : ∀ i ∈ links.take inner.length, cells gs i = cells frames i := by
        intro i hi
        have hnodup := h.activation.nodup
        rw [← List.take_append_drop inner.length links, List.nodup_append] at hnodup
        unfold cells
        rw [hsame.outside i fun hi' => hnodup.2.2 i hi i hi' rfl]
      rw [h.env_eq, ← hlength, drop_view, view_congr hcells]
    rw [hreached, hown, ← view_append, List.take_append_drop]
  · have hinner : slotCounts (u :: t :: outer) = slotCounts (t :: outer) ++ slotCounts [u] :=
      slotCounts_append [u] _
    rw [List.map_append, List.map_take, List.map_drop, h.sizes, h'.sizes, hinner, slotCounts_append,
      List.take_left' (by simp), List.drop_left' (by simp)]

end

theorem boot (program : Block) (halt : Nat) :
    Represents program [⟨0, program⟩] [0] #[⟨halt, 0, none, none, #[], fresh program⟩] [fresh program] := by
  have hbones : #[(⟨halt, 0, none, none, #[], fresh program⟩ : Frame)].map Frame.bone
      = (CallStack.boot halt).skeleton := by
    simp [CallStack.boot, CallStack.skeleton, Frame.bone]
  exact ⟨hbones ▸ linked_boot program halt, hbones ▸ Activation.boot program halt,
    by simp [view, cells], by simp [slotCounts, fresh]⟩

end Represents

end PLZero
