/-!
# Actions with state and failure

What it means that an action succeeds, or that it comes to one of two outcomes, taken apart along its
binds. The parser, the compiler and the machine are all written as such actions.
-/

namespace PLZero.Action

variable {ε σ α β : Type}

/-- A sequence succeeds if its first part does and the second part does from there. -/
theorem bind_eq_ok {x : EStateM ε σ α} {f : α → EStateM ε σ β} {s t : σ} {b : β} :
    (x >>= f) s = .ok b t ↔ ∃ a u, x s = .ok a u ∧ f a u = .ok b t := by
  show EStateM.bind x f s = .ok b t ↔ _
  unfold EStateM.bind
  cases h : x s with
  | ok a u =>
      constructor
      · intro hf
        exact ⟨a, u, rfl, hf⟩
      · rintro ⟨a', u', h', hf⟩
        cases h'
        exact hf
  | error e u => simp

theorem bind_of_ok {x : EStateM ε σ α} {f : α → EStateM ε σ β} {s t : σ} {a : α}
    (h : x s = .ok a t) : (x >>= f) s = f a t := by
  show EStateM.bind x f s = _
  simp only [EStateM.bind, h]

theorem bind_of_error {x : EStateM ε σ α} {f : α → EStateM ε σ β} {s t : σ} {e : ε}
    (h : x s = .error e t) : (x >>= f) s = .error e t := by
  show EStateM.bind x f s = _
  simp only [EStateM.bind, h]

theorem pure_apply (a : α) (s : σ) : (pure a : EStateM ε σ α) s = .ok a s := rfl

theorem get_apply (s : σ) : (get : EStateM ε σ σ) s = .ok s s := rfl

theorem modify_apply (f : σ → σ) (s : σ) : (modify f : EStateM ε σ Unit) s = .ok () (f s) := rfl

@[simp] theorem pure_eq_ok {a b : α} {s t : σ} :
    (pure a : EStateM ε σ α) s = .ok b t ↔ a = b ∧ s = t := by
  show EStateM.Result.ok a s = .ok b t ↔ _
  simp

@[simp] theorem throw_eq_ok {e : ε} {b : α} {s t : σ} :
    ((throw e : EStateM ε σ α) s = .ok b t) = False := by
  show (EStateM.Result.error e s = .ok b t) = False
  simp

/-! ## Both outcomes -/

/-- The action ends with a value and a state in `Q`, or with an error and a state in `E`. -/
def Yields (x : EStateM ε σ α) (s : σ) (Q : α → σ → Prop) (E : ε → σ → Prop) : Prop :=
  match x s with
  | .ok a t => Q a t
  | .error e t => E e t

namespace Yields

variable {x : EStateM ε σ α} {f : α → EStateM ε σ β} {s : σ} {Q Q' : α → σ → Prop} {E E' : ε → σ → Prop}

theorem of_ok {a : α} {t : σ} (h : x s = .ok a t) (hQ : Q a t) : Yields x s Q E := by
  simpa only [Yields, h] using hQ

theorem of_error {e : ε} {t : σ} (h : x s = .error e t) (hE : E e t) : Yields x s Q E := by
  simpa only [Yields, h] using hE

theorem ok (h : Yields x s Q E) {a : α} {t : σ} (hx : x s = .ok a t) : Q a t := by
  simpa only [Yields, hx] using h

theorem error (h : Yields x s Q E) {e : ε} {t : σ} (hx : x s = .error e t) : E e t := by
  simpa only [Yields, hx] using h

theorem imp (h : Yields x s Q E) (hQ : ∀ a t, Q a t → Q' a t) (hE : ∀ e t, E e t → E' e t) :
    Yields x s Q' E' := by
  cases hx : x s with
  | ok a t => exact .of_ok hx (hQ a t (h.ok hx))
  | error e t => exact .of_error hx (hE e t (h.error hx))

theorem bind {R : β → σ → Prop} (h : Yields x s (fun a t => Yields (f a) t R E) E) :
    Yields (x >>= f) s R E := by
  cases hx : x s with
  | ok a t =>
      have hf := h.ok hx
      unfold Yields at hf ⊢
      rwa [bind_of_ok hx]
  | error e t => exact .of_error (bind_of_error hx) (h.error hx)

end Yields

/-- Wherever the action fails, its error is in `E`. -/
def Raises (x : EStateM ε σ α) (E : ε → Prop) : Prop :=
  ∀ s, Yields x s (fun _ _ => True) fun e _ => E e

theorem Raises.bind {x : EStateM ε σ α} {f : α → EStateM ε σ β} {E : ε → Prop} (hx : Raises x E)
    (hf : ∀ a, Raises (f a) E) : Raises (x >>= f) E :=
  fun s => .bind ((hx s).imp (fun a t _ => hf a t) fun _ _ => id)

/-- The state that an action leaves, whether it succeeds or fails. -/
def leaves (x : EStateM ε σ α) (s : σ) : σ :=
  match x s with
  | .ok _ t | .error _ t => t

/-- The value or the error that an action ends with. -/
def answer (x : EStateM ε σ α) (s : σ) : Except ε α :=
  match x s with
  | .ok a _ => .ok a
  | .error e _ => .error e

theorem leaves_of_error {x : EStateM ε σ α} {s t : σ} {e : ε} (h : x s = .error e t) : leaves x s = t := by
  rw [leaves, h]

theorem Yields.leaves {x : EStateM ε σ α} {s : σ} {P : σ → Prop}
    (h : Yields x s (fun _ => P) fun _ => P) : P (leaves x s) := by
  unfold Action.leaves
  cases hx : x s with
  | ok a t => exact h.ok hx
  | error e t => exact h.error hx

end PLZero.Action
