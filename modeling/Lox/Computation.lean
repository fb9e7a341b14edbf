/-!
# Computations with a state and errors

The compiler, the machine and the parser are all computations in `EStateM`. These lemmas take such a
computation apart one step at a time.

* `apply_bind_of_ok`, `apply_bind_of_error` : a sequence when the outcome of its first part is known;
* `apply_bind_eq_ok`, `apply_bind_eq_error` : a sequence that succeeds or fails, split into its two parts;
* `apply_pure`, `apply_get`, ... : the primitive computations;
* `Keeps R x s` : however `x` ends, it leaves a state that `R` relates to `s`; `Keeps.bind` carries this through a
  sequence;
* `FailsOnly P x` : `x` fails with nothing but what `P` allows.
-/

namespace Lox

variable {ε σ α β : Type}

theorem apply_bind_of_ok {x : EStateM ε σ α} {f : α → EStateM ε σ β} {s t : σ} {a : α}
    (h : x s = .ok a t) : (x >>= f) s = f a t := by
  change EStateM.bind x f s = _
  unfold EStateM.bind
  rw [h]

theorem apply_bind_of_error {x : EStateM ε σ α} {f : α → EStateM ε σ β} {s t : σ} {e : ε}
    (h : x s = .error e t) : (x >>= f) s = .error e t := by
  change EStateM.bind x f s = _
  unfold EStateM.bind
  rw [h]

theorem apply_bind_eq_ok {x : EStateM ε σ α} {f : α → EStateM ε σ β} {s s' : σ} {b : β} :
    (x >>= f) s = .ok b s' ↔ ∃ a t, x s = .ok a t ∧ f a t = .ok b s' := by
  constructor
  · intro h
    cases hx : x s with
    | ok a t => exact ⟨a, t, rfl, by rwa [apply_bind_of_ok hx] at h⟩
    | error e t => rw [apply_bind_of_error hx] at h; cases h
  · rintro ⟨a, t, hx, hf⟩
    rw [apply_bind_of_ok hx, hf]

theorem apply_bind_eq_error {x : EStateM ε σ α} {f : α → EStateM ε σ β} {s s' : σ} {e : ε} :
    (x >>= f) s = .error e s' ↔ x s = .error e s' ∨ ∃ a t, x s = .ok a t ∧ f a t = .error e s' := by
  constructor
  · intro h
    cases hx : x s with
    | ok a t => exact .inr ⟨a, t, rfl, by rwa [apply_bind_of_ok hx] at h⟩
    | error e' t =>
        rw [apply_bind_of_error hx] at h
        cases h
        exact .inl rfl
  · rintro (hx | ⟨a, t, hx, hf⟩)
    · exact apply_bind_of_error hx
    · rw [apply_bind_of_ok hx, hf]

/-- Two sequences with the same first part agree if they agree on what it gives. -/
theorem apply_bind_congr {x : EStateM ε σ α} {f g : α → EStateM ε σ β} {s : σ}
    (h : ∀ a t, x s = .ok a t → f a t = g a t) : (x >>= f) s = (x >>= g) s := by
  cases hx : x s with
  | ok a t => rw [apply_bind_of_ok hx, apply_bind_of_ok hx, h a t hx]
  | error e t => rw [apply_bind_of_error hx, apply_bind_of_error hx]

theorem apply_map_eq_ok {f : α → β} {x : EStateM ε σ α} {s s' : σ} {b : β} :
    (f <$> x) s = .ok b s' ↔ ∃ a, x s = .ok a s' ∧ f a = b := by
  change EStateM.map f x s = _ ↔ _
  unfold EStateM.map
  cases x s with
  | ok a t => simp only [EStateM.Result.ok.injEq]; grind
  | error e t => simp

theorem apply_map_of_ok {f : α → β} {x : EStateM ε σ α} {s t : σ} {a : α} (h : x s = .ok a t) :
    (f <$> x) s = .ok (f a) t :=
  apply_map_eq_ok.mpr ⟨a, h, rfl⟩

theorem apply_map_of_error {f : α → β} {x : EStateM ε σ α} {s t : σ} {e : ε} (h : x s = .error e t) :
    (f <$> x) s = .error e t := by
  change EStateM.map f x s = _
  unfold EStateM.map
  rw [h]

@[simp] theorem apply_pure (a : α) (s : σ) : (pure a : EStateM ε σ α) s = .ok a s := rfl

@[simp] theorem apply_get (s : σ) : (get : EStateM ε σ σ) s = .ok s s := rfl

@[simp] theorem apply_modify (f : σ → σ) (s : σ) : (modify f : EStateM ε σ PUnit) s = .ok ⟨⟩ (f s) := rfl

def finalState : EStateM.Result ε σ α → σ
  | .ok _ s => s
  | .error _ s => s

/-- However the computation ends, the state it leaves is related to the one it began with. -/
def Keeps (R : σ → σ → Prop) (x : EStateM ε σ α) (s : σ) : Prop :=
  R s (finalState (x s))

theorem Keeps.bind {R : σ → σ → Prop} [Trans R R R] {x : EStateM ε σ α} {f : α → EStateM ε σ β} {s : σ}
    (hx : Keeps R x s) (hf : ∀ a t, x s = .ok a t → Keeps R (f a) t) : Keeps R (x >>= f) s := by
  unfold Keeps at hx ⊢
  cases h : x s with
  | ok a t =>
      rw [h] at hx
      rw [apply_bind_of_ok h]
      exact Trans.trans hx (hf a t h)
  | error e t =>
      rw [h] at hx
      rw [apply_bind_of_error h]
      exact hx

/-- Whatever the computation fails with, `P` holds of it. -/
def FailsOnly (P : ε → Prop) (x : EStateM ε σ α) : Prop :=
  ∀ s e t, x s = .error e t → P e

namespace FailsOnly

variable {P : ε → Prop} {x : EStateM ε σ α}

theorem bind {f : α → EStateM ε σ β} (hx : FailsOnly P x) (hf : ∀ a, FailsOnly P (f a)) : FailsOnly P (x >>= f) := by
  intro s e t h
  rcases apply_bind_eq_error.mp h with h | ⟨a, s', -, h⟩
  · exact hx s e t h
  · exact hf a s' e t h

theorem of_pure (a : α) : FailsOnly P (pure a : EStateM ε σ α) := by
  intro s e t h
  cases h

theorem of_get : FailsOnly P (get : EStateM ε σ σ) := by
  intro s e t h
  cases h

theorem of_modify (f : σ → σ) : FailsOnly P (modify f : EStateM ε σ PUnit) := by
  intro s e t h
  cases h

theorem of_throw {e : ε} (he : P e) : FailsOnly P (throw e : EStateM ε σ α) := by
  intro s e' t h
  cases h
  exact he

end FailsOnly

end Lox
