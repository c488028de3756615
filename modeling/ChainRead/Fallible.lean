/-! # Computations that fail and keep their state

A computation over a state either returns a value or fails with a cause, and the state that it
reached is there in both cases. A computation on a part of a state runs on the whole by leaving
the rest alone.
-/

namespace ChainRead

/-- A computation over `σ` that may fail with a cause of type `ε` and keeps its state either way. -/
abbrev Fallible (ε σ α : Type) := ExceptT ε (StateM σ) α

namespace Fallible

variable {ε ε' σ τ α β : Type}

@[simp] theorem pure_apply (a : α) (s : σ) : (pure a : Fallible ε σ α) s = (.ok a, s) := rfl

@[simp] theorem throw_apply (e : ε) (s : σ) : (throw e : Fallible ε σ α) s = (.error e, s) := rfl

@[simp] theorem get_apply (s : σ) : (get : Fallible ε σ σ) s = (.ok s, s) := rfl

@[simp] theorem modify_apply (f : σ → σ) (s : σ) :
    (modify f : Fallible ε σ PUnit) s = (.ok ⟨⟩, f s) := rfl

theorem bind_apply (x : Fallible ε σ α) (f : α → Fallible ε σ β) (s : σ) :
    (x >>= f) s = match x s with
      | (.ok a, s) => f a s
      | (.error e, s) => (.error e, s) := by
  show (match x s with | (r, s) => ExceptT.bindCont f r s) = _
  rcases x s with ⟨_ | _, _⟩ <;> rfl

theorem bind_of_ok {x : Fallible ε σ α} {f : α → Fallible ε σ β} {s t : σ} {a : α}
    (h : x s = (.ok a, t)) : (x >>= f) s = f a t := by
  rw [bind_apply, h]

theorem map_of_ok {x : Fallible ε σ α} {f : α → β} {s t : σ} {a : α} (h : x s = (.ok a, t)) :
    (f <$> x) s = (.ok (f a), t) := by
  rw [map_eq_pure_bind, bind_of_ok h]
  rfl

theorem bind_ok {x : Fallible ε σ α} {f : α → Fallible ε σ β} {s s' : σ} {b : β}
    (h : (x >>= f) s = (.ok b, s')) : ∃ a t, x s = (.ok a, t) ∧ f a t = (.ok b, s') := by
  rw [bind_apply] at h
  rcases hx : x s with ⟨e | a, t⟩ <;> rw [hx] at h
  · cases h
  · exact ⟨a, t, rfl, h⟩

theorem exists_ok {x : Fallible ε σ α} {s : σ} {p : α → Prop}
    (h : ∃ a ∈ (x s).1.toOption, p a) : ∃ a s', x s = (.ok a, s') ∧ p a := by
  obtain ⟨a, ha, hp⟩ := h
  rcases hx : x s with ⟨e | b, s'⟩ <;> rw [hx] at ha <;> cases ha
  exact ⟨a, s', rfl, hp⟩

/-- Run a computation on the part of the state that `get` reads and `set` writes back. -/
def zoom (get : σ → τ) (set : τ → σ → σ) (action : Fallible ε τ α) : Fallible ε σ α := fun s =>
  let (outcome, part) := action (get s)
  (outcome, set part s)

theorem zoom_apply (get : σ → τ) (set : τ → σ → σ) (x : Fallible ε τ α) (s : σ) :
    zoom get set x s = ((x (get s)).1, set (x (get s)).2 s) := rfl

theorem zoom_bind {get : σ → τ} {set : τ → σ → σ} (hget : ∀ p s, get (set p s) = p)
    (hset : ∀ p q s, set p (set q s) = set p s) (x : Fallible ε τ α) (f : α → Fallible ε τ β) :
    zoom get set (x >>= f) = zoom get set x >>= fun a => zoom get set (f a) := by
  funext s
  rw [bind_apply, zoom_apply, bind_apply, zoom_apply]
  rcases x (get s) with ⟨_ | a, p⟩
  · rfl
  · simp only [zoom_apply, hget, hset]

def ofExcept (result : Except ε α) : Fallible ε σ α := fun s => (result, s)

def ofState (action : StateM σ α) : Fallible ε σ α := fun s =>
  let (a, s) := action s
  (.ok a, s)

def mapError (f : ε → ε') (action : Fallible ε σ α) : Fallible ε' σ α := fun s =>
  let (outcome, s) := action s
  (outcome.mapError f, s)

end Fallible

end ChainRead
