import PLZero.Proofs.Grammar.Completeness
import PLZero.Proofs.Grammar.Phrases

/-!
# Reading phrases of a kind

A parser that looks for phrases of some kind stops at the end of one, or refuses a token. In both cases
what it has read and the token it looks at settle the matter, whatever comes after them: no input that
starts with them has a longer or shorter phrase there, or none has a phrase there at all. This is said
of each basic action, and carried through sequences, choices and repetitions.
-/

namespace PLZero

open Grammar

/-- What a parser looks for: some phrases, and when such a phrase is whole, given the token after it. -/
structure Kind where
  phrase : Phrase → Prop
  ends : Phrase → Token → Prop
  inhabited : ∃ w, phrase w

namespace Kind

/-- An input that starts with `w` and then `t` can start with the whole phrase `u`. -/
def Fits (k : Kind) (w : Phrase) (t : Token) (u : Phrase) : Prop :=
  ∃ t' z z', k.ends u t' ∧ u ++ t' :: z = w ++ t :: z'

/-- Before `t`, no phrase but `w` is whole. -/
def Settles (k : Kind) (w : Phrase) (t : Token) : Prop := ∀ u, k.Fits w t u → u = w

/-- Some phrase starts with `w`, but none that is whole has `t` after that. -/
def Breaks (k : Kind) (w : Phrase) (t : Token) : Prop :=
  (∃ v, k.phrase (w ++ v)) ∧ ∀ u, ¬ k.Fits w t u

/-- The first token of a phrase with something after it. -/
theorem append_cons_eq_headD (w : Phrase) (t : Token) (z : Phrase) :
    ∃ z', w ++ t :: z = w.headD t :: z' := by
  cases w with
  | nil => exact ⟨z, rfl⟩
  | cons s w => exact ⟨w ++ t :: z, rfl⟩

theorem headD_append (v w : Phrase) (t : Token) : (v ++ w).headD t = v.headD (w.headD t) := by
  cases v with
  | nil => rfl
  | cons s v => rfl

theorem headD_eq {u w z z' : Phrase} {t' t : Token} (h : u ++ t' :: z = w ++ t :: z') :
    u.headD t' = w.headD t := by
  obtain ⟨y, hy⟩ := append_cons_eq_headD u t' z
  obtain ⟨y', hy'⟩ := append_cons_eq_headD w t z'
  rw [hy, hy'] at h
  exact (List.cons.inj h).1

/-- Before the token `c`, whoever looks for `k'` can look for `k`. -/
structure Serves (k k' : Kind) (c : Token) : Prop where
  phrase : ∀ {w}, k.phrase w → k'.phrase w
  ends : ∀ {w t}, k'.ends w t → w.headD t = c → k.ends w t

namespace Serves

variable {k k' : Kind} {w : Phrase} {t : Token}

theorem fits {u : Phrase} (h : k.Serves k' (w.headD t)) (hu : k'.Fits w t u) : k.Fits w t u := by
  obtain ⟨t', z, z', hends, heq⟩ := hu
  exact ⟨t', z, z', h.ends hends (headD_eq heq), heq⟩

theorem settles (h : k.Serves k' (w.headD t)) (hk : k.Settles w t) : k'.Settles w t :=
  fun u hu => hk u (h.fits hu)

theorem breaks (h : k.Serves k' (w.headD t)) (hk : k.Breaks w t) : k'.Breaks w t := by
  obtain ⟨⟨v, hv⟩, hnone⟩ := hk
  exact ⟨⟨v, h.phrase hv⟩, fun u hu => hnone u (h.fits hu)⟩

end Serves

/-! ## Sequences -/

/-- A phrase of one kind and then one of another. -/
def seq (j k : Kind) : Kind where
  phrase u := ∃ v w, u = v ++ w ∧ j.phrase v ∧ k.phrase w
  ends u t := ∃ v w, u = v ++ w ∧ j.ends v (w.headD t) ∧ k.ends w t
  inhabited := by
    obtain ⟨v, hv⟩ := j.inhabited
    obtain ⟨w, hw⟩ := k.inhabited
    exact ⟨v ++ w, v, w, rfl, hv, hw⟩

section Sequences

variable {j k : Kind} {v w : Phrase} {t : Token}

theorem Fits.of_seq {u : Phrase} (h : (j.seq k).Fits (v ++ w) t u) :
    ∃ u₁ u₂, u = u₁ ++ u₂ ∧ j.Fits v (w.headD t) u₁ ∧ (u₁ = v → k.Fits w t u₂) := by
  obtain ⟨t', z, z', ⟨u₁, u₂, rfl, h₁, h₂⟩, heq⟩ := h
  rw [List.append_assoc, List.append_assoc] at heq
  obtain ⟨y, hy⟩ := append_cons_eq_headD u₂ t' z
  obtain ⟨y', hy'⟩ := append_cons_eq_headD w t z'
  refine ⟨u₁, u₂, rfl, ⟨u₂.headD t', y, y', h₁, ?_⟩, ?_⟩
  · rw [← hy, ← hy', heq]
  · rintro rfl
    exact ⟨t', z, z', h₂, List.append_cancel_left heq⟩

theorem seq_ends (hv : j.ends v (w.headD t)) (hw : k.ends w t) : (j.seq k).ends (v ++ w) t :=
  ⟨v, w, rfl, hv, hw⟩

theorem seq_assoc {i : Kind} {c : Token} : ((i.seq j).seq k).Serves (i.seq (j.seq k)) c := by
  refine ⟨?_, ?_⟩
  · rintro _ ⟨_, w, rfl, ⟨u, v, rfl, hu, hv⟩, hw⟩
    exact ⟨u, v ++ w, List.append_assoc u v w, hu, v, w, rfl, hv, hw⟩
  · rintro _ t ⟨u, _, rfl, hu, v, w, rfl, hv, hw⟩ -
    rw [headD_append] at hu
    exact ⟨u ++ v, w, (List.append_assoc u v w).symm, ⟨u, v, rfl, hu, hv⟩, hw⟩

theorem Settles.seq (hv : j.Settles v (w.headD t)) (hw : k.Settles w t) :
    (j.seq k).Settles (v ++ w) t := by
  intro u hu
  obtain ⟨u₁, u₂, rfl, h₁, h₂⟩ := hu.of_seq
  obtain rfl := hv u₁ h₁
  rw [hw u₂ (h₂ rfl)]

theorem Breaks.seq_left (h : j.Breaks w t) : (j.seq k).Breaks w t := by
  obtain ⟨⟨v, hv⟩, hnone⟩ := h
  obtain ⟨v', hv'⟩ := k.inhabited
  refine ⟨⟨v ++ v', w ++ v, v', by simp, hv, hv'⟩, fun u hu => ?_⟩
  rw [← List.append_nil w] at hu
  obtain ⟨u₁, -, -, h₁, -⟩ := hu.of_seq
  exact hnone u₁ h₁

theorem Breaks.seq_right (hv : j.phrase v) (hsettles : j.Settles v (w.headD t)) (h : k.Breaks w t) :
    (j.seq k).Breaks (v ++ w) t := by
  obtain ⟨⟨v', hv'⟩, hnone⟩ := h
  refine ⟨⟨v', v, w ++ v', by simp, hv, hv'⟩, fun u hu => ?_⟩
  obtain ⟨u₁, u₂, -, h₁, h₂⟩ := hu.of_seq
  exact hnone u₂ (h₂ (hsettles u₁ h₁))

end Sequences

/-! ## Building kinds -/

/-- Phrases that are whole before the tokens in `Next`. -/
def before (Item : Phrase → Prop) (Next : Token → Prop) (h : ∃ w, Item w) : Kind where
  phrase := Item
  ends w t := Item w ∧ Next t
  inhabited := h

/-- Nothing. -/
def empty : Kind := before (· = []) (fun _ => True) ⟨[], rfl⟩

/-- One token of a class. -/
def token (T : Token → Prop) (h : ∃ t, T t) : Kind :=
  before (Phrase.One T) (fun _ => True) <| by
    obtain ⟨t, ht⟩ := h
    exact ⟨[t], .mk ht⟩

/-- A certain token. -/
def one (t : Token) : Kind := token (· = t) ⟨t, rfl⟩

def name : Kind := token (fun t => ∃ n, t = .ident n) ⟨.ident "", "", rfl⟩

def number : Kind := token (fun t => ∃ v, t = .number v) ⟨.number 0, 0, rfl⟩

theorem serves_seq_empty {k : Kind} {c : Token} : (k.seq empty).Serves k c := by
  refine ⟨?_, fun {w t} hw _ => ⟨w, [], by simp, hw, rfl, trivial⟩⟩
  rintro _ ⟨v, _, rfl, hv, rfl⟩
  rwa [List.append_nil]

theorem token_ends {T : Token → Prop} {h : ∃ t, T t} {s t : Token} (hs : T s) : (token T h).ends [s] t :=
  ⟨.mk hs, trivial⟩

theorem name_ends {n : String} {t : Token} : name.ends [.ident n] t := token_ends ⟨n, rfl⟩

theorem token_seq_ends {T : Token → Prop} {h : ∃ t, T t} {k : Kind} {w : Phrase} {s t : Token}
    (hs : T s) (hw : k.ends w t) : ((token T h).seq k).ends (s :: w) t :=
  ⟨[s], w, rfl, token_ends hs, hw⟩

/-- The token `t` and what comes after it, or else something that does not start with `t`. -/
def either (t : Token) (j k : Kind) : Kind where
  phrase w := (∃ v, w = t :: v ∧ j.phrase v) ∨ k.phrase w
  ends w t' := (∃ v, w = t :: v ∧ j.ends v t') ∨ w.headD t' ≠ t ∧ k.ends w t'
  inhabited := by
    obtain ⟨w, hw⟩ := k.inhabited
    exact ⟨w, .inr hw⟩

/-- When items with a mark between them are whole: no such mark comes after them. -/
inductive SeparatedEnds (m : Mark) (k : Kind) : Phrase → Token → Prop where
  | one {w t} : k.ends w t → t ≠ .mark m → SeparatedEnds m k w t
  | more {w v t} : k.ends w (.mark m) → SeparatedEnds m k v t →
      SeparatedEnds m k (w ++ .mark m :: v) t

def separated (m : Mark) (k : Kind) : Kind where
  phrase := Phrase.Separated m k.phrase
  ends := SeparatedEnds m k
  inhabited := by
    obtain ⟨w, hw⟩ := k.inhabited
    exact ⟨w, .one hw⟩

/-- When a repetition is whole: no token that opens an item comes after it. -/
inductive RunEnds (Opener : Token → Prop) (k : Kind) : Phrase → Token → Prop where
  | nil {t} : ¬ Opener t → RunEnds Opener k [] t
  | cons {s v w t} : Opener s → k.ends v (w.headD t) → RunEnds Opener k w t →
      RunEnds Opener k (s :: v ++ w) t

def run (Opener : Token → Prop) (k : Kind) : Kind where
  phrase := Phrase.Run Opener k.phrase
  ends := RunEnds Opener k
  inhabited := ⟨[], .nil⟩

theorem serves_run_cons {Opener : Token → Prop} {h : ∃ t, Opener t} {k : Kind} {c : Token}
    (hc : Opener c) : ((token Opener h).seq (k.seq (k.run Opener))).Serves (k.run Opener) c := by
  refine ⟨?_, ?_⟩
  · rintro _ ⟨_, _, rfl, ⟨ht⟩, v, w, rfl, hv, hw⟩
    exact Phrase.Run.cons (v := v) ht hv hw
  · rintro _ t hw rfl
    cases hw with
    | nil hne => exact absurd hc hne
    | cons hs hv hw => exact token_seq_ends hs (seq_ends hv hw)

theorem serves_run_nil {Opener : Token → Prop} {k : Kind} {c : Token} (hc : ¬ Opener c) :
    empty.Serves (k.run Opener) c := by
  refine ⟨?_, ?_⟩
  · rintro _ rfl
    exact .nil
  · rintro _ t hw rfl
    cases hw with
    | nil => exact ⟨rfl, trivial⟩
    | cons hs => exact absurd hs hc

/-- A repetition and what follows it start with a token that opens an item, or with what follows. -/
theorem headD_of_run {Opener P : Token → Prop} {Item : Phrase → Prop} {w : Phrase} {t : Token}
    (h : Phrase.Run Opener Item w) (ht : P t) (hP : ∀ {s}, Opener s → P s) : P (w.headD t) := by
  cases h with
  | nil => exact ht
  | cons hs => exact hP hs

/-- Items that are whole before a token in `Next` make up a whole list of them. -/
theorem separatedEnds_of_separated {m : Mark} {Item : Phrase → Prop} (k : Kind) (Next : Token → Prop)
    (hitem : ∀ {w t}, Item w → Next t → k.ends w t) (hm : Next (.mark m)) {w : Phrase} {t : Token}
    (h : Phrase.Separated m Item w) (ht : Next t) (hne : t ≠ .mark m) : (separated m k).ends w t := by
  induction h with
  | one h => exact .one (hitem h ht) hne
  | more h _ ih => exact .more (hitem h hm) ih

theorem runEnds_of_run {Opener : Token → Prop} {Item : Phrase → Prop} (k : Kind) (Next : Token → Prop)
    (hitem : ∀ {w t}, Item w → Next t → k.ends w t) (hopener : ∀ {t}, Opener t → Next t) {w : Phrase}
    {t : Token} (h : Phrase.Run Opener Item w) (ht : Next t) (hne : ¬ Opener t) :
    (run Opener k).ends w t := by
  induction h with
  | nil => exact .nil hne
  | cons hs hv hw ih => exact .cons hs (hitem hv (headD_of_run hw ht hopener)) ih

end Kind

/-! ## Readers -/

/-- The values of located tokens. -/
def values (w : Word) : Phrase := w.map Located.value

@[simp] theorem values_cons (t : Located Token) (w : Word) : values (t :: w) = t.value :: values w := rfl

@[simp] theorem values_append (v w : Word) : values (v ++ w) = values v ++ values w := List.map_append

/-- An error about a name: it is not declared, or declared twice. -/
def SyntaxError.Cause.IsScoping : SyntaxError.Cause → Prop
  | .undeclared _ | .definition (.duplicate _) => True
  | _ => False

open PLZero.Action (Yields)

/-- Where a scope is open, a definition fails only because of its name, and opens or closes none. -/
def ScopeChain.Adds (definition : ScopeChain.Update Symbol) : Prop :=
  ∀ c, c.scopes ≠ [] → Yields definition c (fun _ c' => c'.scopes.length = c.scopes.length)
    fun e _ => ∃ n, e = .duplicate n

namespace Parser

/-- A parser that has read some of the tokens but not the last, with a scope open. -/
structure Live (tokens : Word) (p : Parser) : Prop where
  suffix : p.rest <:+ tokens
  once : EndsOnce p.rest
  inScope : p.scopes.scopes ≠ []

/-- An error about a name, at one of the tokens. -/
def Misnamed (tokens : Word) (e : SyntaxError) : Prop :=
  e.value.IsScoping ∧ ∃ t ∈ tokens, t.position = e.position

/-- From `p` to `q`, a phrase of the kind is read, and no other could be. -/
structure Passes (tokens : Word) (p : Parser) (k : Kind) (q : Parser) (w : Word) : Prop where
  rest : p.rest = w ++ q.rest
  live : q.Live tokens
  depth : q.scopes.scopes.length = p.scopes.scopes.length
  phrase : k.phrase (values w)
  settles : k.Settles (values w) q.current

/-- From `p` on, no phrase of the kind has the token at the place of the error. -/
def Stops (p : Parser) (k : Kind) (e : SyntaxError) : Prop :=
  ∃ w t r, p.rest = w ++ t :: r ∧ t.position = e.position ∧ k.Breaks (values w) t.value

/-- The action reads a phrase of the kind, or stops at a token that no phrase of the kind has there, or
finds fault with a name. -/
def Reads {α : Type} (tokens : Word) (x : Parse α) (p : Parser) (k : Kind) : Prop :=
  Yields x p (fun _ q => ∃ w, Passes tokens p k q w) fun e _ => Misnamed tokens e ∨ Stops p k e

variable {tokens : Word} {p q : Parser} {α β : Type} {x y : Parse α} {f : α → Parse β} {j k : Kind}

theorem current_eq_headD {w : Word} (h : p.rest = w ++ q.rest) :
    p.current = (values w).headD q.current := by
  cases w with
  | nil => simp [current, h, values]
  | cons t w => simp [current, h]

theorem Live.exists_rest (h : p.Live tokens) :
    ∃ t r, p.rest = t :: r ∧ t.value = p.current ∧ t.position = p.place := by
  obtain ⟨body, a, hrest, -⟩ := h.once
  cases hp : p.rest with
  | nil => simp [hp] at hrest
  | cons t r => exact ⟨t, r, rfl, by simp [current, hp], by simp [place, hp]⟩

theorem Live.length_pos (h : p.Live tokens) : 0 < p.rest.length := by
  obtain ⟨t, r, hrest, -⟩ := h.exists_rest
  simp [hrest]

theorem Live.exists_place (h : p.Live tokens) : ∃ t ∈ tokens, t.position = p.place := by
  obtain ⟨t, r, hrest, -, hplace⟩ := h.exists_rest
  exact ⟨t, h.suffix.subset (by simp [hrest]), hplace⟩

/-- The parser after the next token. -/
def tail (p : Parser) : Parser := { p with rest := p.rest.tail }

theorem Live.tail (h : p.Live tokens) (hc : p.current ≠ .eof) : p.tail.Live tokens := by
  obtain ⟨t, r, hrest, hvalue, -⟩ := h.exists_rest
  refine ⟨(List.tail_suffix p.rest).trans h.suffix, ?_, h.inScope⟩
  obtain ⟨body, a, hbody, hne⟩ := h.once
  cases body with
  | nil =>
      rw [hbody] at hrest
      cases hrest
      exact absurd hvalue.symm hc
  | cons s body =>
      refine ⟨body, a, by simp [Parser.tail, hbody], fun u hu => hne u (by simp [hu])⟩

namespace Reads

theorem congr (h : Reads tokens y p k) (heq : x p = y p) : Reads tokens x p k := by
  unfold Reads Yields
  rw [heq]
  exact h

theorem mono {k' : Kind} (h : Reads tokens x p k) (hk : k.Serves k' p.current) :
    Reads tokens x p k' := by
  refine h.imp ?_ ?_
  · rintro a q ⟨w, hw⟩
    rw [current_eq_headD hw.rest] at hk
    exact ⟨w, hw.rest, hw.live, hw.depth, hk.phrase hw.phrase, hk.settles hw.settles⟩
  · rintro e q (he | ⟨w, t, r, hrest, hplace, hbreaks⟩)
    · exact .inl he
    · have hcurrent : p.current = (values w).headD t.value :=
        current_eq_headD (q := ⟨t :: r, p.ending, p.scopes⟩) hrest
      rw [hcurrent] at hk
      exact .inr ⟨w, t, r, hrest, hplace, hk.breaks hbreaks⟩

/-- A sequence reads a phrase of the first kind and then one of the second. -/
theorem bind_of_phrase (hx : Reads tokens x p j)
    (hf : ∀ a q w, p.rest = w ++ q.rest → j.phrase (values w) → q.Live tokens →
      Reads tokens (f a) q k) : Reads tokens (x >>= f) p (j.seq k) := by
  refine .bind (hx.imp ?_ ?_)
  · rintro a q ⟨v, hv⟩
    refine (hf a q v hv.rest hv.phrase hv.live).imp ?_ ?_
    · rintro b r ⟨w, hw⟩
      have hsettles := hv.settles
      rw [current_eq_headD hw.rest] at hsettles
      refine ⟨v ++ w, ?_, hw.live, hw.depth.trans hv.depth, ?_, ?_⟩
      · rw [hv.rest, hw.rest, List.append_assoc]
      · exact ⟨values v, values w, values_append v w, hv.phrase, hw.phrase⟩
      · rw [values_append]
        exact hsettles.seq hw.settles
    · rintro e r (he | ⟨w, t, z, hrest, hplace, hbreaks⟩)
      · exact .inl he
      · have hsettles := hv.settles
        rw [current_eq_headD (q := ⟨t :: z, q.ending, q.scopes⟩) hrest] at hsettles
        refine .inr ⟨v ++ w, t, z, by rw [hv.rest, hrest, List.append_assoc], hplace, ?_⟩
        rw [values_append]
        exact hbreaks.seq_right hv.phrase hsettles
  · rintro e q (he | ⟨w, t, r, hrest, hplace, hbreaks⟩)
    · exact .inl he
    · exact .inr ⟨w, t, r, hrest, hplace, hbreaks.seq_left⟩

theorem bind (hx : Reads tokens x p j)
    (hf : ∀ a q, q.Live tokens → q.rest.length ≤ p.rest.length → Reads tokens (f a) q k) :
    Reads tokens (x >>= f) p (j.seq k) := by
  refine hx.bind_of_phrase fun a q w hrest _ hq => hf a q hq ?_
  simp [hrest]

/-- What becomes of the value read does not matter. -/
theorem map (h : Reads tokens x p k) (g : α → β) : Reads tokens (x >>= fun a => pure (g a)) p k :=
  Yields.bind (h.imp (fun a q hq => Yields.of_ok (Action.pure_apply (g a) q) hq) fun _ _ => id)

/-- An action that only looks. -/
theorem after_ok {a : α} (hx : x p = .ok a p) (h : Reads tokens (f a) p k) :
    Reads tokens (x >>= f) p k :=
  Yields.bind (.of_ok hx h)

theorem of_pure (hp : p.Live tokens) (a : α) : Reads tokens (pure a) p .empty := by
  refine .of_ok (Action.pure_apply a p) ⟨[], rfl, hp, rfl, rfl, ?_⟩
  rintro u ⟨_, _, _, ⟨rfl, -⟩, -⟩
  rfl

/-- An action that refuses the next token, which starts no phrase. -/
theorem of_refusal {e : SyntaxError} (hp : p.Live tokens) (hx : x p = .error e q)
    (he : e.position = p.place) (hk : ∀ {u t}, k.ends u t → u.headD t ≠ p.current) :
    Reads tokens x p k := by
  obtain ⟨t, r, hrest, hvalue, hplace⟩ := hp.exists_rest
  refine .of_error hx (.inr ⟨[], t, r, hrest, hplace.trans he.symm, k.inhabited, ?_⟩)
  rintro u ⟨t', z, z', hends, heq⟩
  exact hk hends ((Kind.headD_eq heq).trans hvalue)

theorem refuse {cause : Token → SyntaxError.Cause} (hp : p.Live tokens)
    (hk : ∀ {u t}, k.ends u t → u.headD t ≠ p.current) :
    Reads tokens (Parser.refuse cause : Parse α) p k :=
  of_refusal (e := ⟨cause p.current, p.place⟩) hp rfl rfl hk

/-! ## Tokens -/

theorem token {T : Token → Prop} {h : ∃ t, T t} {a : α} (hp : p.Live tokens)
    (hx : x p = .ok a p.tail) (hc : p.current ≠ .eof) (hT : T p.current) :
    Reads tokens x p (.token T h) := by
  obtain ⟨t, r, hrest, hvalue, -⟩ := hp.exists_rest
  refine .of_ok hx ⟨[t], by simp [tail, hrest], hp.tail hc, rfl, ?_, ?_⟩
  · exact .mk (hvalue ▸ hT)
  · rintro u ⟨t', z, z', ⟨⟨-⟩, -⟩, heq⟩
    simpa [values] using (List.cons.inj heq).1

/-- A token is read first, after which less is left. -/
theorem token_bind {T : Token → Prop} {h : ∃ t, T t} {a : α} (hp : p.Live tokens)
    (hx : x p = .ok a p.tail) (hc : p.current ≠ .eof) (hT : T p.current)
    (hf : ∀ q, q.Live tokens → q.rest.length < p.rest.length → Reads tokens (f a) q k) :
    Reads tokens (x >>= f) p ((Kind.token T h).seq k) := by
  have h : Reads tokens (x >>= fun _ => f a) p ((Kind.token T h).seq k) := by
    refine (token hp hx hc hT).bind_of_phrase fun _ q w hrest hw hq => hf q hq ?_
    have hlength : w.length = 1 := by
      generalize hv : values w = v at hw
      obtain ⟨-⟩ := hw
      simpa [values] using congrArg List.length hv
    simp [hrest, hlength]
  exact h.congr (by rw [Action.bind_of_ok hx, Action.bind_of_ok hx])

/-- Reads the next token and goes on, if it is one that `T` allows. -/
theorem advance_bind {f : Token → Parse β} {T : Token → Prop} {h : ∃ t, T t} (hp : p.Live tokens)
    (hc : p.current ≠ .eof) (hT : T p.current)
    (hf : ∀ q, q.Live tokens → q.rest.length < p.rest.length → Reads tokens (f p.current) q k) :
    Reads tokens (advance >>= f) p ((Kind.token T h).seq k) :=
  token_bind hp (advance_apply p) hc hT hf

theorem advance_one {t : Token} {f : Token → Parse β} (hp : p.Live tokens) (hc : p.current = t)
    (ht : t ≠ .eof)
    (hf : ∀ q, q.Live tokens → q.rest.length < p.rest.length → Reads tokens (f t) q k) :
    Reads tokens (advance >>= f) p ((Kind.one t).seq k) := by
  subst hc
  exact advance_bind hp ht rfl hf

/-- A token that is read before it is found to be wrong is still the one that is reported. -/
theorem advance_if (test : Token → Bool) {f : Token → Parse β} {e : Token → SyntaxError}
    {h : ∃ t, test t = true} (hp : p.Live tokens) (heof : test .eof = false)
    (he : (e p.current).position = p.place)
    (hf : ∀ q, q.Live tokens → q.rest.length < p.rest.length → Reads tokens (f p.current) q k) :
    Reads tokens (advance >>= fun t => if test t then f t else throw (e t)) p
      ((Kind.token (test · = true) h).seq k) := by
  by_cases hc : test p.current = true
  · have hne : p.current ≠ .eof := by
      intro h
      simp [h, heof] at hc
    refine advance_bind hp hne hc fun q hq hlt => ?_
    rw [if_pos hc]
    exact hf q hq hlt
  · have hx : (advance >>= fun t => if test t then f t else throw (e t)) p
        = .error (e p.current) p.tail := by
      rw [Action.bind_of_ok (advance_apply p), if_neg hc]
      rfl
    refine of_refusal hp hx he ?_
    rintro _ t ⟨_, w, rfl, ⟨⟨hs⟩, -⟩, -⟩ rfl
    exact hc hs

theorem accept_bind {t : Token} {f : Bool → Parse β} (ht : t ≠ .eof) (hp : p.Live tokens)
    (htrue : ∀ q, q.Live tokens → q.rest.length < p.rest.length → Reads tokens (f true) q j)
    (hfalse : p.current ≠ t → Reads tokens (f false) p k) :
    Reads tokens (accept t >>= f) p (.either t j k) := by
  have haccept := accept_apply t p
  by_cases hc : p.current = t
  · rw [if_pos hc] at haccept
    refine (token_bind (T := (· = t)) (h := ⟨t, rfl⟩) hp haccept (hc ▸ ht) hc htrue).mono ⟨?_, ?_⟩
    · rintro _ ⟨_, v, rfl, ⟨rfl⟩, hv⟩
      exact .inl ⟨v, rfl, hv⟩
    · rintro w t' (⟨v, rfl, hv⟩ | ⟨hne, -⟩) hhead
      · exact Kind.token_seq_ends rfl hv
      · exact absurd (hhead.trans hc) hne
  · rw [if_neg hc] at haccept
    refine (after_ok haccept (hfalse hc)).mono ⟨.inr, ?_⟩
    rintro w t' (⟨v, rfl, -⟩ | ⟨-, hw⟩) hhead
    · exact absurd hhead.symm hc
    · exact hw

theorem expect {t : Token} (ht : t ≠ .eof) (hp : p.Live tokens) :
    Reads tokens (expect t) p (.one t) := by
  refine (accept_bind (j := .empty) (k := .one t) ht hp (fun q hq _ => of_pure hq ()) fun hc => ?_).mono
    ⟨?_, ?_⟩
  · refine refuse hp ?_
    rintro u t' ⟨⟨rfl⟩, -⟩
    exact Ne.symm hc
  · rintro w (⟨v, rfl, rfl⟩ | hw)
    · exact .mk rfl
    · exact hw
  · rintro w t' ⟨⟨rfl⟩, -⟩ -
    exact .inl ⟨[], rfl, rfl, trivial⟩

theorem identifier (hp : p.Live tokens) : Reads tokens identifier p .name := by
  cases hc : p.current with
  | ident n =>
      obtain ⟨a, q, rfl⟩ := exists_unread_of_current hc (by simp)
      exact token (a := n) hp rfl (by simp) ⟨n, rfl⟩
  | _ =>
      refine after_ok (peek_apply p) ?_
      rw [hc]
      refine refuse hp ?_
      rintro u t ⟨⟨⟨n, rfl⟩⟩, -⟩
      simp [hc]

theorem number (hp : p.Live tokens) : Reads tokens number p .number := by
  cases hc : p.current with
  | number v =>
      obtain ⟨a, q, rfl⟩ := exists_unread_of_current hc (by simp)
      exact token (a := v) hp rfl (by simp) ⟨v, rfl⟩
  | _ =>
      refine after_ok (peek_apply p) ?_
      rw [hc]
      refine refuse hp ?_
      rintro u t ⟨⟨⟨v, rfl⟩⟩, -⟩
      simp [hc]

/-! ## Names -/

theorem declaredName (hp : p.Live tokens) : Reads tokens declaredName p .name := by
  refine after_ok (position_apply p) ?_
  refine ((identifier hp).bind fun n q hq _ => ?_).mono Kind.serves_seq_empty
  refine after_ok (Action.get_apply q) ?_
  cases q.scopes.resolve n with
  | some symbol => exact of_pure hq _
  | none => exact Yields.of_error rfl (.inl ⟨trivial, hp.exists_place⟩)

theorem declare {place : Position} {definition : ScopeChain.Update Symbol} (hp : p.Live tokens)
    (hplace : ∃ t ∈ tokens, t.position = place) (hd : ScopeChain.Adds definition) :
    Reads tokens (declare place definition) p .empty := by
  have h := hd p.scopes hp.inScope
  unfold Reads Yields Parser.declare
  cases hx : definition p.scopes with
  | ok symbol c =>
      have hlength := h.ok hx
      refine ⟨[], rfl, ⟨hp.suffix, hp.once, ?_⟩, hlength, rfl, ?_⟩
      · exact List.ne_nil_of_length_pos (hlength ▸ List.length_pos_iff.mpr hp.inScope)
      · rintro u ⟨_, _, _, ⟨rfl, -⟩, -⟩
        rfl
  | error e c =>
      obtain ⟨n, rfl⟩ := h.error hx
      exact .inl ⟨trivial, hplace⟩

/-- A scope that is opened is closed again before the rest is read. -/
theorem scope_bind {x : Parse α} {f : α → Parse β} (hp : p.Live tokens)
    (hx : Reads tokens x { p with scopes := p.scopes.enter } j)
    (hf : ∀ a q, q.Live tokens → q.rest.length ≤ p.rest.length → Reads tokens (f a) q k) :
    Reads tokens (do enterScope; let a ← x; leaveScope; f a) p (j.seq k) := by
  have h : Reads tokens (do enterScope; let a ← x; leaveScope; pure a) p j := by
    refine Yields.bind (.of_ok (enterScope_apply p) (Yields.bind (hx.imp ?_ fun _ _ => id)))
    rintro a q ⟨w, hw⟩
    have hdepth : q.scopes.scopes.tail.length = p.scopes.scopes.length := by
      rw [List.length_tail, hw.depth]
      simp [ScopeChain.enter]
    refine Yields.bind (.of_ok (leaveScope_apply q) (Yields.of_ok (Action.pure_apply a _)
      ⟨w, hw.rest, ⟨hw.live.suffix, hw.live.once, ?_⟩, hdepth, hw.phrase, hw.settles⟩))
    exact List.ne_nil_of_length_pos (hdepth ▸ List.length_pos_iff.mpr hp.inScope)
  refine congr (bind h hf) ?_
  simp only [bind_assoc, pure_bind]

/-! ## Lists -/

/-- Less is left after each mark, so that the bound is not met. -/
theorem separated {m : Mark} {item : Parse α} {n bound : Nat} (hp : p.Live tokens)
    (hn : p.rest.length ≤ n) (hbound : p.rest.length ≤ bound)
    (hitem : ∀ q, q.Live tokens → q.rest.length ≤ n → Reads tokens item q k) :
    Reads tokens (separated m item bound) p (k.separated m) := by
  induction bound generalizing p with
  | zero => exact absurd hp.length_pos (by omega)
  | succ bound ih =>
      unfold Parser.separated
      refine mono (bind (hitem p hp hn) fun first q hq hle => accept_bind (by simp) hq
        (fun r hr hlt => map (ih hr (by omega) (by omega)) _) fun _ => of_pure hq _) ⟨?_, ?_⟩
      · rintro _ ⟨v, w, rfl, hv, ⟨w, rfl, hw⟩ | rfl⟩
        · exact .more hv hw
        · rw [List.append_nil]
          exact .one hv
      · rintro w t hw -
        cases hw with
        | one hw hne => exact ⟨w, [], by simp, hw, .inr ⟨hne, rfl, trivial⟩⟩
        | @more w v _ hw hv => exact ⟨w, .mark m :: v, rfl, hw, .inl ⟨v, rfl, hv⟩⟩

end Reads

end Parser

end PLZero
