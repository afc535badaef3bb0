import PLZero.Proofs.Execution

/-!
# Links between frames

Operations on a call stack, in any order and whether they succeed or fail, leave every frame linked to
its caller, right below it, and to a frame further down that encloses it. So following links comes to an
end within the stack, and no two distances lead to the same frame: a slot has one address.
-/

namespace PLZero.CallStack

open PLZero.Action (Yields answer leaves)

/-! ## What the operations do -/

/-- The frame that a distance leads to. -/
def reach (s : CallStack) (distance : Int64) : Option Nat :=
  if distance < 0 ∨ s.depth = 0 then none else s.follow distance.toInt.toNat (s.depth - 1)

section

variable {s s' : CallStack} {distance slot v : Int64} {fault : Fault}

theorem current_spec (s : CallStack) :
    Yields current s (fun f s' => s' = s ∧ s.frames.back? = some f) fun _ s' => s' = s := by
  unfold Yields current
  cases s.frames.back? <;> simp

theorem resolve_spec (s : CallStack) (distance : Int64) :
    Yields (resolve distance) s (fun j s' => s' = s ∧ s.reach distance = some j)
      fun _ s' => s' = s ∧ s.reach distance = none := by
  unfold Yields resolve reach
  by_cases hneg : distance < 0
  · simp [hneg]
  · by_cases hdepth : s.depth = 0
    · simp [hneg, hdepth]
    · simp only [hneg, hdepth, or_self, if_false]
      cases s.follow distance.toInt.toNat (s.depth - 1) <;> simp

/-- What a slot of a frame holds. -/
def local? (s : CallStack) (j : Nat) (slot : Int64) : Option Int64 :=
  match s.frames[j]?, slot? slot with
  | some f, some k => f.locals[k]?
  | _, _ => none

theorem load_of_ok {j : Nat} (h : resolve distance s = .ok j s) (slot : Int64) :
    load distance slot s = match s.local? j slot with
      | some v => .ok v s
      | none => .error (.slotOutOfRange slot) s := by
  refine (Action.bind_of_ok h).trans ?_
  dsimp only [local?]
  cases s.frames[j]? with
  | none => rfl
  | some f => cases slot? slot <;> rfl

theorem load_spec (s : CallStack) (distance slot : Int64) :
    Yields (load distance slot) s
      (fun v s' => s' = s ∧ ∃ j, s.reach distance = some j ∧ s.local? j slot = some v) fun _ s' => s' = s := by
  cases h : resolve distance s with
  | error fault s' =>
      obtain ⟨rfl, -⟩ := (resolve_spec s distance).error h
      exact .of_error (Action.bind_of_error h) rfl
  | ok j s' =>
      obtain ⟨rfl, hj⟩ := (resolve_spec s distance).ok h
      have hload := load_of_ok h slot
      cases hv : s'.local? j slot with
      | none =>
          rw [hv] at hload
          exact .of_error hload rfl
      | some v =>
          rw [hv] at hload
          exact .of_ok hload ⟨rfl, j, hj, hv⟩

theorem store_spec (s : CallStack) (distance slot v : Int64) :
    Yields (store distance slot v) s
      (fun _ s' => ∃ j k f, s.reach distance = some j ∧ slot? slot = some k ∧ s.frames[j]? = some f ∧
        k < f.locals.size ∧ s' = ⟨s.frames.modify j (·.setLocal k v)⟩)
      fun _ s' => s' = s := by
  refine .bind ((resolve_spec s distance).imp ?_ fun _ _ h => h.1)
  rintro j _ ⟨rfl, hj⟩
  refine .bind (.of_ok (Action.get_apply _) ?_)
  dsimp only
  split
  · next f k hf hk =>
    split
    · next hlt => exact ⟨j, k, f, hj, hk, hf, hlt, rfl⟩
    · rfl
  · rfl

theorem call_spec (s : CallStack) (returnAddress entry : Nat) (distance : Int64) :
    Yields (call returnAddress entry distance) s
      (fun _ s' => ∃ j, s.reach distance = some j ∧
        s' = ⟨s.frames.push (called returnAddress entry (s.depth - 1) j)⟩)
      fun _ s' => s' = s := by
  refine .bind (.of_ok (Action.get_apply s) (.bind ((current_spec s).imp ?_ fun _ _ => id)))
  rintro f _ ⟨rfl, -⟩
  refine .bind ((resolve_spec _ distance).imp ?_ fun _ _ h => h.1)
  rintro j _ ⟨rfl, hj⟩
  exact ⟨j, hj, rfl⟩

theorem leave_spec (s : CallStack) :
    Yields leave s (fun address s' => ∃ f, s.frames = s'.frames.push f ∧ f.returnAddress = address)
      fun _ s' => s' = s := by
  unfold Yields leave
  cases hback : s.frames.back? with
  | none => rfl
  | some f =>
      obtain ⟨below, hframes⟩ := Array.back?_eq_some_iff.mp hback
      exact ⟨f, by simp [hframes], rfl⟩

theorem push_spec (s : CallStack) (v : Int64) :
    Yields (push v) s (fun _ s' => s' = s.modifyCurrent (·.push v)) fun _ s' => s' = s := by
  refine .bind ((current_spec s).imp ?_ fun _ _ => id)
  rintro f _ ⟨rfl, -⟩
  rfl

theorem allocate_spec (s : CallStack) (count : Nat) :
    Yields (allocate count) s (fun _ s' => s' = s.modifyCurrent (·.allocate count)) fun _ s' => s' = s := by
  refine .bind ((current_spec s).imp ?_ fun _ _ => id)
  rintro f _ ⟨rfl, -⟩
  rfl

theorem pop_spec (s : CallStack) :
    Yields pop s
      (fun v s' => s' = s.modifyCurrent Frame.drop ∧ ∃ f, s.frames.back? = some f ∧ f.stack.back? = some v)
      fun _ s' => s' = s := by
  refine .bind ((current_spec s).imp ?_ fun _ _ => id)
  rintro f _ ⟨rfl, hf⟩
  cases hv : f.stack.back? with
  | none => rfl
  | some v => exact ⟨rfl, f, hf, hv⟩

end

/-! ## Links -/

/-- The first frame has no links. Every other one is linked to the frame right below it, its caller, and
to an enclosing one further down. -/
structure Chained (s : CallStack) : Prop where
  first : ∀ f, s.frames[0]? = some f → f.dynamicLink = none ∧ f.staticLink = none
  later : ∀ i f, 0 < i → s.frames[i]? = some f →
    f.dynamicLink = some (i - 1) ∧ ∃ j, f.staticLink = some j ∧ j < i

namespace Chained

variable {s : CallStack} {i j k : Nat} {f : Frame}

theorem empty : Chained .empty := ⟨by simp [CallStack.empty], by simp [CallStack.empty]⟩

theorem boot (halt : Nat) : Chained (.boot halt) := by
  refine ⟨?_, ?_⟩
  · intro f hf
    obtain rfl : _ = f := by simpa [CallStack.boot] using hf
    exact ⟨rfl, rfl⟩
  · intro i f hi hf
    have hlt : i < 1 := (Array.getElem?_eq_some_iff.mp hf).1
    omega

theorem modify (h : s.Chained) {g : Frame → Frame} (hdynamic : ∀ f, (g f).dynamicLink = f.dynamicLink)
    (hstatic : ∀ f, (g f).staticLink = f.staticLink) (j : Nat) : Chained ⟨s.frames.modify j g⟩ := by
  -- A frame of the new stack has the links of the one that stood in its place.
  have hlinks : ∀ (i : Nat) (f : Frame), (s.frames.modify j g)[i]? = some f → ∃ f', s.frames[i]? = some f' ∧
      f.dynamicLink = f'.dynamicLink ∧ f.staticLink = f'.staticLink := by
    intro i f hf
    rw [Array.getElem?_modify] at hf
    split at hf
    · obtain ⟨f', hf', rfl⟩ := Option.map_eq_some_iff.mp hf
      exact ⟨f', hf', hdynamic f', hstatic f'⟩
    · exact ⟨f, hf, rfl, rfl⟩
  refine ⟨fun f hf => ?_, fun i f hi hf => ?_⟩
  · obtain ⟨f', hf', hd, hs⟩ := hlinks 0 f hf
    rw [hd, hs]
    exact h.first f' hf'
  · obtain ⟨f', hf', hd, hs⟩ := hlinks i f hf
    rw [hd, hs]
    exact h.later i f' hi hf'

theorem push (h : s.Chained) (hdepth : 0 < s.depth) (hj : j < s.depth) (returnAddress entry : Nat) :
    Chained ⟨s.frames.push (called returnAddress entry (s.depth - 1) j)⟩ := by
  refine ⟨fun f hf => ?_, fun i f hi hf => ?_⟩
  · have hne : 0 ≠ s.frames.size := Nat.ne_of_lt hdepth
    rw [Array.getElem?_push, if_neg hne] at hf
    exact h.first f hf
  · rw [Array.getElem?_push] at hf
    split at hf
    · next hi' =>
      obtain rfl := Option.some.inj hf
      obtain rfl : i = s.depth := hi'
      exact ⟨rfl, j, rfl, hj⟩
    · exact h.later i f hi hf

theorem of_push {below : CallStack} (h : s.Chained) (hframes : s.frames = below.frames.push f) :
    Chained below := by
  have hsame : ∀ (i : Nat) (g : Frame), below.frames[i]? = some g → s.frames[i]? = some g := by
    intro i g hg
    have hlt := (Array.getElem?_eq_some_iff.mp hg).1
    rw [hframes, Array.getElem?_push, if_neg (Nat.ne_of_lt hlt)]
    exact hg
  exact ⟨fun g hg => h.first g (hsame 0 g hg), fun i g hi hg => h.later i g hi (hsame i g hg)⟩

/-! ### Following links -/

theorem staticLink_lt (h : s.Chained) (hf : s.frames[i]? = some f) (hj : f.staticLink = some j) : j < i := by
  cases i with
  | zero =>
      rw [(h.first f hf).2] at hj
      cases hj
  | succ i =>
      obtain ⟨-, j', hj', hlt⟩ := h.later (i + 1) f (Nat.succ_pos i) hf
      obtain rfl := Option.some.inj (hj.symm.trans hj')
      exact hlt

end Chained

theorem follow_succ {s : CallStack} {k i : Nat} :
    s.follow (k + 1) i = (s.frames[i]?.bind Frame.staticLink).bind (s.follow k) := by
  rw [follow]
  cases s.frames[i]? with
  | none => rfl
  | some f => cases hlink : f.staticLink <;> simp [hlink]

/-- Each link leads further down. -/
theorem Chained.follow_le {s : CallStack} {k i j : Nat} (h : s.Chained) (hj : s.follow k i = some j) :
    j + k ≤ i := by
  induction k generalizing i with
  | zero =>
      obtain rfl := Option.some.inj hj
      exact Nat.le_refl i
  | succ k ih =>
      simp only [follow_succ, Option.bind_eq_some_iff] at hj
      obtain ⟨i', ⟨f, hf, hlink⟩, hj⟩ := hj
      have hlt := h.staticLink_lt hf hlink
      have hle := ih hj
      omega

theorem follow_add {s : CallStack} (k l i : Nat) : s.follow (k + l) i = (s.follow k i).bind (s.follow l) := by
  induction k generalizing i with
  | zero => rw [Nat.zero_add]; rfl
  | succ k ih =>
      rw [Nat.succ_add, follow_succ, follow_succ, Option.bind_assoc _ (s.follow k)]
      exact Option.bind_congr fun i' _ => ih i'

/-- No two numbers of links lead to the same frame. -/
theorem Chained.follow_inj {s : CallStack} {k l i j : Nat} (h : s.Chained) (hk : s.follow k i = some j)
    (hl : s.follow l i = some j) : k = l := by
  have hmore : ∀ {k d : Nat}, s.follow k i = some j → s.follow (k + d) i = some j → d = 0 := by
    intro k d hk hd
    rw [follow_add, hk] at hd
    have := h.follow_le hd
    omega
  rcases Nat.le_total k l with hle | hle
  · obtain ⟨d, rfl⟩ := Nat.exists_eq_add_of_le hle
    rw [hmore hk hl, Nat.add_zero]
  · obtain ⟨d, rfl⟩ := Nat.exists_eq_add_of_le hle
    rw [hmore hl hk, Nat.add_zero]

/-! ### Chains of static links -/

/-- The frames that the static links lead to from frame `i`, one after the other, up to the last link. -/
inductive LinkChain (s : CallStack) : Nat → List Nat → Prop where
  | last {i f} : s.frames[i]? = some f → f.staticLink = none → LinkChain s i []
  | link {i j f links} : s.frames[i]? = some f → f.staticLink = some j → LinkChain s j links →
      LinkChain s i (j :: links)

theorem LinkChain.follow_eq {s : CallStack} {i : Nat} {links : List Nat} (h : LinkChain s i links) (k : Nat) :
    s.follow k i = (i :: links)[k]? := by
  induction h generalizing k with
  | last hf hlink =>
      cases k with
      | zero => rfl
      | succ k => simp [follow_succ, hf, hlink]
  | link hf hlink _ ih =>
      cases k with
      | zero => rfl
      | succ k => simpa [follow_succ, hf, hlink] using ih k

theorem Chained.exists_linkChain {s : CallStack} (h : s.Chained) {i : Nat} (hi : i < s.depth) :
    ∃ links, LinkChain s i links := by
  induction i using Nat.strongRecOn with
  | ind i ih =>
      have hf := Array.getElem?_eq_getElem hi
      cases hlink : s.frames[i].staticLink with
      | none => exact ⟨[], .last hf hlink⟩
      | some j =>
          have hlt := h.staticLink_lt hf hlink
          obtain ⟨links, hlinks⟩ := ih j hlt (Nat.lt_trans hlt hi)
          exact ⟨j :: links, .link hf hlink hlinks⟩

/-! ## Distances -/

theorem resolve_eq_ok {s s' : CallStack} {d : Int64} {j : Nat} :
    resolve d s = .ok j s' ↔ s' = s ∧ s.reach d = some j := by
  constructor
  · exact (resolve_spec s d).ok
  · rintro ⟨rfl, hj⟩
    cases h : resolve d s' with
    | ok j' t =>
        obtain ⟨rfl, hj'⟩ := (resolve_spec s' d).ok h
        rw [Option.some.inj (hj.symm.trans hj')]
    | error fault t =>
        obtain ⟨-, hnone⟩ := (resolve_spec s' d).error h
        cases hj.symm.trans hnone

theorem reach_eq_some {s : CallStack} {d : Int64} {j : Nat} :
    s.reach d = some j ↔ 0 < s.depth ∧ 0 ≤ d ∧ s.follow d.toInt.toNat (s.depth - 1) = some j := by
  unfold reach
  rw [Option.ite_none_left_eq_some, not_or, Int64.not_lt, Nat.pos_iff_ne_zero]
  exact ⟨fun h => ⟨h.1.2, h.1.1, h.2⟩, fun h => ⟨⟨h.2.1, h.1⟩, h.2.2⟩⟩

namespace Chained

variable {s : CallStack} (h : s.Chained)

include h

theorem reach_lt {d : Int64} {j : Nat} (hj : s.reach d = some j) : j < s.depth := by
  obtain ⟨hdepth, -, hj⟩ := reach_eq_some.mp hj
  have := h.follow_le hj
  omega

theorem reach_inj {d d' : Int64} {j : Nat} (hd : s.reach d = some j) (hd' : s.reach d' = some j) : d = d' := by
  obtain ⟨-, hnonneg, hj⟩ := reach_eq_some.mp hd
  obtain ⟨-, hnonneg', hj'⟩ := reach_eq_some.mp hd'
  rw [← Operand.ofNat_toNat (Int64.not_lt.mpr hnonneg), h.follow_inj hj hj',
    Operand.ofNat_toNat (Int64.not_lt.mpr hnonneg')]

/-- A distance can be resolved if the static chain of the current frame is that long. -/
theorem exists_reach {d : Int64} : (∃ j, s.reach d = some j) ↔
    0 < s.depth ∧ 0 ≤ d ∧ ∃ links, LinkChain s (s.depth - 1) links ∧ d.toInt ≤ links.length := by
  simp only [reach_eq_some, exists_and_left]
  refine and_congr_right fun hdepth => and_congr_right fun hd => ?_
  rw [Int64.le_iff_toInt_le, Int64.toInt_zero] at hd
  constructor
  · rintro ⟨j, hj⟩
    obtain ⟨links, hlinks⟩ := h.exists_linkChain (Nat.sub_lt hdepth Nat.one_pos)
    rw [hlinks.follow_eq] at hj
    have hlt := (List.getElem?_eq_some_iff.mp hj).1
    rw [List.length_cons] at hlt
    exact ⟨links, hlinks, by omega⟩
  · rintro ⟨links, hlinks, hle⟩
    rw [hlinks.follow_eq]
    exact ⟨_, List.getElem?_eq_getElem (by rw [List.length_cons]; omega)⟩

end Chained

/-! ## Slots -/

/-- The stacks are the same, but for a slot of one frame that holds the value in the second one. -/
structure SlotSet (s s' : CallStack) (j k : Nat) (v : Int64) : Prop where
  depth_eq : s'.depth = s.depth
  frame : ∀ n f, s.frames[n]? = some f → ∃ f', s'.frames[n]? = some f' ∧ f' = { f with locals := f'.locals } ∧
    ∀ l, f'.locals[l]? = if n = j ∧ l = k then some v else f.locals[l]?

theorem SlotSet.of_modify {s : CallStack} {j k : Nat} {f : Frame} (hf : s.frames[j]? = some f)
    (hk : k < f.locals.size) (v : Int64) : SlotSet s ⟨s.frames.modify j (·.setLocal k v)⟩ j k v := by
  refine ⟨by simp [depth], fun n g hg => ?_⟩
  by_cases hn : n = j
  · subst hn
    obtain rfl := Option.some.inj (hf.symm.trans hg)
    refine ⟨f.setLocal k v, by simp [Array.getElem?_modify, hf], rfl, fun l => ?_⟩
    simp only [Frame.setLocal, Array.getElem?_setIfInBounds, true_and, eq_comm (a := l), if_pos hk]
  · exact ⟨g, by simp [Array.getElem?_modify, Ne.symm hn, hg], rfl, fun l => by simp [hn]⟩

/-- The answer of a load, by the frame that the distance leads to and by what its slot holds. -/
theorem answer_load (s : CallStack) (d slot : Int64) :
    answer (load d slot) s = match answer (resolve d) s with
      | .ok j => match s.local? j slot with
        | some v => .ok v
        | none => .error (.slotOutOfRange slot)
      | .error fault => .error fault := by
  unfold answer
  cases h : resolve d s with
  | error fault s' =>
      have hload : load d slot s = .error fault s' := Action.bind_of_error h
      rw [hload]
  | ok j s' =>
      obtain ⟨rfl, -⟩ := (resolve_spec s d).ok h
      rw [load_of_ok h]
      dsimp only
      cases s'.local? j slot <;> rfl

theorem answer_resolve_of_reach {s : CallStack} {d : Int64} {j : Nat} (h : s.reach d = some j) :
    answer (resolve d) s = .ok j := by
  rw [answer, resolve_eq_ok.mpr ⟨rfl, h⟩]

theorem slot?_inj {slot slot' : Int64} {k : Nat} (h : slot? slot = some k) (h' : slot? slot' = some k) :
    slot = slot' := by
  obtain ⟨hneg, rfl⟩ := Operand.slot?_eq_some.mp h
  obtain ⟨hneg', heq⟩ := Operand.slot?_eq_some.mp h'
  rw [← Operand.ofNat_toNat hneg, ← heq, Operand.ofNat_toNat hneg']

namespace SlotSet

variable {s s' : CallStack} {j k : Nat} {v : Int64} (h : SlotSet s s' j k v)

include h

theorem getElem?_eq_none {n : Nat} (hn : s.frames[n]? = none) : s'.frames[n]? = none := by
  have hsize : s'.frames.size = s.frames.size := h.depth_eq
  rw [Array.getElem?_eq_none_iff] at hn ⊢
  omega

theorem follow_eq (l i : Nat) : s'.follow l i = s.follow l i := by
  induction l generalizing i with
  | zero => rfl
  | succ l ih =>
      have hlink : s'.frames[i]?.bind Frame.staticLink = s.frames[i]?.bind Frame.staticLink := by
        cases hf : s.frames[i]? with
        | none => rw [h.getElem?_eq_none hf]
        | some f =>
            obtain ⟨f', hf', hsame, -⟩ := h.frame i f hf
            rw [hf', hsame]
            rfl
      rw [follow_succ, follow_succ, hlink]
      exact Option.bind_congr fun i' _ => ih i'

theorem answer_resolve (d : Int64) : answer (resolve d) s' = answer (resolve d) s := by
  unfold answer resolve
  rw [h.depth_eq, h.follow_eq]
  by_cases hneg : d < 0
  · simp [hneg]
  · by_cases hdepth : s.depth = 0
    · simp [hneg, hdepth]
    · simp only [hneg, hdepth, if_false]
      cases s.follow d.toInt.toNat (s.depth - 1) <;> rfl

theorem local?_eq (n : Nat) (slot : Int64) (hn : n < s.depth) :
    s'.local? n slot = if n = j ∧ slot? slot = some k then some v else s.local? n slot := by
  obtain ⟨f', hf', -, hlocals⟩ := h.frame n _ (Array.getElem?_eq_getElem hn)
  have hf := Array.getElem?_eq_getElem hn
  unfold local?
  rw [hf, hf']
  cases slot? slot with
  | none => simp
  | some l => simpa using hlocals l

end SlotSet

/-! ## Any operations -/

inductive Operation where
  | reset (halt : Nat)
  | call (returnAddress entry : Nat) (distance : Int64)
  | leave
  | allocate (count : Nat)
  | push (value : Int64)
  | pop
  | load (distance slot : Int64)
  | store (distance slot value : Int64)
  | resolve (distance : Int64)

/-- The stack that an operation leaves, whether it succeeds or fails. -/
def Operation.after (s : CallStack) : Operation → CallStack
  | reset halt => .boot halt
  | call returnAddress entry distance => leaves (CallStack.call returnAddress entry distance) s
  | leave => leaves CallStack.leave s
  | allocate count => leaves (CallStack.allocate count) s
  | push value => leaves (CallStack.push value) s
  | pop => leaves CallStack.pop s
  | load distance slot => leaves (CallStack.load distance slot) s
  | store distance slot value => leaves (CallStack.store distance slot value) s
  | resolve distance => leaves (CallStack.resolve distance) s

/-- The stack after operations on an empty one. -/
def performed (operations : List Operation) : CallStack := operations.foldl Operation.after .empty

/-- An operation that fails changes nothing, so that only its success matters. -/
theorem Chained.leaves {α : Type} {s : CallStack} (h : s.Chained) {x : Action α} {Q : α → CallStack → Prop}
    (hx : Yields x s Q fun _ s' => s' = s) (hQ : ∀ a s', Q a s' → s'.Chained) : (leaves x s).Chained := by
  refine (hx.imp hQ ?_).leaves
  rintro _ _ rfl
  exact h

theorem Chained.after {s : CallStack} (h : s.Chained) (operation : Operation) : (operation.after s).Chained := by
  have hcurrent : ∀ g : Frame → Frame, (∀ f, (g f).dynamicLink = f.dynamicLink) →
      (∀ f, (g f).staticLink = f.staticLink) → (s.modifyCurrent g).Chained :=
    fun g hdynamic hstatic => h.modify hdynamic hstatic (s.depth - 1)
  cases operation with
  | reset halt => exact .boot halt
  | call returnAddress entry distance =>
      refine h.leaves (call_spec s returnAddress entry distance) ?_
      rintro _ _ ⟨j, hj, rfl⟩
      exact h.push (reach_eq_some.mp hj).1 (h.reach_lt hj) returnAddress entry
  | leave =>
      refine h.leaves (leave_spec s) ?_
      rintro _ _ ⟨f, hframes, -⟩
      exact h.of_push hframes
  | allocate count =>
      refine h.leaves (allocate_spec s count) ?_
      rintro _ _ rfl
      exact hcurrent _ (fun _ => rfl) fun _ => rfl
  | push value =>
      refine h.leaves (push_spec s value) ?_
      rintro _ _ rfl
      exact hcurrent _ (fun _ => rfl) fun _ => rfl
  | pop =>
      refine h.leaves (pop_spec s) ?_
      rintro _ _ ⟨rfl, -⟩
      exact hcurrent _ (fun _ => rfl) fun _ => rfl
  | load distance slot =>
      refine h.leaves (load_spec s distance slot) ?_
      rintro _ _ ⟨rfl, -⟩
      exact h
  | store distance slot value =>
      refine h.leaves (store_spec s distance slot value) ?_
      rintro _ _ ⟨j, k, f, -, -, -, -, rfl⟩
      exact h.modify (g := (·.setLocal k value)) (fun _ => rfl) (fun _ => rfl) j
  | resolve distance =>
      refine h.leaves ((resolve_spec s distance).imp (fun _ _ => id) fun _ _ => And.left) ?_
      rintro _ _ ⟨rfl, -⟩
      exact h

theorem chained_performed (operations : List Operation) : (performed operations).Chained := by
  have hfold : ∀ (operations : List Operation) (s : CallStack), s.Chained →
      (operations.foldl Operation.after s).Chained := by
    intro operations
    induction operations with
    | nil => exact fun s hs => hs
    | cons operation operations ih => exact fun s hs => ih _ (hs.after operation)
  exact hfold operations .empty .empty

/-- A value that is stored is found again, by its own distance and slot only. -/
theorem Chained.store_ok {s s' : CallStack} (h : s.Chained) {d slot v : Int64} (hs' : store d slot v s = .ok () s') :
    answer (load d slot) s' = .ok v ∧
      (∀ d' slot', (d', slot') ≠ (d, slot) → answer (load d' slot') s' = answer (load d' slot') s) ∧
      ∃ j k, resolve d s = .ok j s ∧ slot? slot = some k ∧ SlotSet s s' j k v := by
  obtain ⟨j, k, f, hj, hk, hf, hlt, rfl⟩ := (store_spec s d slot v).ok hs'
  have hset := SlotSet.of_modify hf hlt v
  refine ⟨?_, fun d' slot' hne => ?_, j, k, resolve_eq_ok.mpr ⟨rfl, hj⟩, hk, hset⟩
  · simp only [answer_load, hset.answer_resolve, answer_resolve_of_reach hj,
      hset.local?_eq j slot (h.reach_lt hj), hk, and_self, if_true]
  · simp only [answer_load, hset.answer_resolve]
    cases hd' : s.reach d' with
    | none =>
        cases hr : resolve d' s with
        | ok j' t =>
            obtain ⟨-, hj'⟩ := (resolve_spec s d').ok hr
            cases hd'.symm.trans hj'
        | error fault t => simp only [answer, hr]
    | some j' =>
        have hother : ¬ (j' = j ∧ slot? slot' = some k) := by
          rintro ⟨rfl, hk'⟩
          exact hne (by rw [h.reach_inj hd' hj, slot?_inj hk' hk])
        simp only [answer_resolve_of_reach hd', hset.local?_eq j' slot' (h.reach_lt hd'), if_neg hother]

theorem Chained.leave_ok {s s' : CallStack} (h : s.Chained) {address : Nat} (hs' : leave s = .ok address s') :
    ∃ f, s.frames = s'.frames.push f ∧ f.returnAddress = address ∧
      f.dynamicLink = if s'.depth = 0 then none else some (s'.depth - 1) := by
  obtain ⟨f, hframes, haddress⟩ := (leave_spec s).ok hs'
  have hf : s.frames[s'.depth]? = some f := by simp [hframes, depth]
  refine ⟨f, hframes, haddress, ?_⟩
  split
  · next hempty =>
    rw [hempty] at hf
    exact (h.first f hf).1
  · next hpos => exact (h.later s'.depth f (Nat.pos_of_ne_zero hpos) hf).1

/-- After any operations, successful or not: frames are linked to their callers and to frames further down,
which is what a return relies on; links never lead out of the stack, and they lead as far as the static chain
goes; no two distances lead to one frame. So a value that is stored is found again, nothing else changes,
and a refused operation changes nothing. -/
theorem performed_linked {operations : List Operation} {s : CallStack} (hs : performed operations = s) :
    s.Chained ∧
    (∀ address s', leave s = .ok address s' → ∃ f, s.frames = s'.frames.push f ∧ f.returnAddress = address ∧
      f.dynamicLink = if s'.depth = 0 then none else some (s'.depth - 1)) ∧
    (∀ k j, 0 < s.depth → s.follow k (s.depth - 1) = some j → j < s.depth) ∧
    (∀ d, (∃ j s', resolve d s = .ok j s') ↔
      0 < s.depth ∧ 0 ≤ d ∧ ∃ links, LinkChain s (s.depth - 1) links ∧ d.toInt ≤ links.length) ∧
    (∀ d d' j j' s₁ s₂, resolve d s = .ok j s₁ → resolve d' s = .ok j' s₂ → d ≠ d' → j ≠ j') ∧
    (∀ d slot v s', store d slot v s = .ok () s' →
      answer (load d slot) s' = .ok v ∧
      (∀ d' slot', (d', slot') ≠ (d, slot) → answer (load d' slot') s' = answer (load d' slot') s) ∧
      ∃ j k, resolve d s = .ok j s ∧ slot? slot = some k ∧ SlotSet s s' j k v) ∧
    (∀ d slot v fault s', store d slot v s = .error fault s' → s' = s) ∧
    (∀ returnAddress entry d fault s', call returnAddress entry d s = .error fault s' → s' = s) ∧
    (∀ d slot, leaves (load d slot) s = s) ∧ ∀ d, leaves (resolve d) s = s := by
  have h : s.Chained := hs ▸ chained_performed operations
  refine ⟨h, fun _ _ => h.leave_ok, fun k j hdepth hj => ?_, fun d => ?_, ?_, fun _ _ _ _ => h.store_ok, ?_, ?_, ?_, ?_⟩
  · have := h.follow_le hj
    omega
  · simpa [resolve_eq_ok] using h.exists_reach
  · rintro d d' j j' s₁ s₂ hd hd' hne rfl
    exact hne (h.reach_inj (resolve_eq_ok.mp hd).2 (resolve_eq_ok.mp hd').2)
  · exact fun d slot v _ _ => (store_spec s d slot v).error
  · exact fun returnAddress entry d _ _ => (call_spec s returnAddress entry d).error
  · exact fun d slot => Yields.leaves (P := (· = s)) ((load_spec s d slot).imp (fun _ _ h => h.1) fun _ _ => id)
  · exact fun d => Yields.leaves (P := (· = s)) ((resolve_spec s d).imp (fun _ _ h => h.1) fun _ _ h => h.1)

namespace Nested

/-- A program calls a procedure, which calls one of its own, which calls the first one again; in between, a
slot that is not there is asked for. -/
def operations : List Operation :=
  [.reset 100, .allocate 1, .call 10 20 0, .allocate 1, .call 21 30 0, .store 0 0 5, .call 31 20 2, .allocate 1]

def stack : CallStack :=
  ⟨#[⟨100, 0, none, none, #[], #[0]⟩, ⟨10, 20, some 0, some 0, #[], #[0]⟩, ⟨21, 30, some 1, some 1, #[], #[]⟩,
    ⟨31, 20, some 2, some 0, #[], #[0]⟩]⟩

end Nested

/-- The recursive call finds the variable of the program, and leaves that of the first call alone. -/
theorem performed_linked_nested :
    performed Nested.operations = Nested.stack ∧ (∃ j s', resolve 1 Nested.stack = .ok j s') ∧
      ∃ s', store 1 0 7 Nested.stack = .ok () s' ∧
        answer (load 1 0) s' = .ok 7 ∧ answer (load 0 0) s' = answer (load 0 0) Nested.stack := by
  have hs : performed Nested.operations = Nested.stack := rfl
  obtain ⟨-, -, -, hresolve, -, hstore, -⟩ := performed_linked hs
  obtain ⟨hload, hother, -⟩ := hstore 1 0 7 _ rfl
  have hchain : LinkChain Nested.stack 3 [0] := .link rfl rfl (.last rfl rfl)
  exact ⟨hs, (hresolve 1).mpr ⟨by decide, by decide, [0], hchain, by decide⟩, _, rfl, hload,
    hother 0 0 (by decide)⟩

end PLZero.CallStack
