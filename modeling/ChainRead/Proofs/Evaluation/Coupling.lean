import Mathlib.Order.CompletePartialOrder
import Mathlib.Order.ConditionallyCompleteLattice.Basic
import Mathlib.Order.Hom.Order
import ChainRead.Error
import ChainRead.Fallible

/-! # Computations side by side

Two computations run side by side on two states. While both go on, their states are related at a
world, which collects what has happened so far and only grows. The comparison may also end: both
computations failed, or one of them went where the other cannot follow.
-/

namespace ChainRead

/-- A statement about a world that stays true at later worlds. -/
abbrev Fact (W : Type) [Preorder W] := W →o Prop

def Fact.of {W : Type} [Preorder W] (p : Prop) : Fact W := OrderHom.const W p

def forget {α S : Type} (p : Except EvalError α × S) : Except EvalError Unit × S :=
  (p.1.map fun _ => (), p.2)

theorem eq_error_of_forget {α S : Type} {p : Except EvalError α × S} {e : EvalError}
    (h : (forget p).1 = .error e) : p.1 = .error e := by
  rcases hp : p.1 with e' | a <;> simp only [forget, hp] at h <;> cases h
  rfl

/-- How two computations on states of types `S` and `T` are compared. -/
structure Coupling (W S T : Type) [Preorder W] where
  inv : S → T → W → Prop
  /-- The comparison has ended, whatever either side does from then on. -/
  ended : Except EvalError Unit × S → Except EvalError Unit × T → Prop
  ended_left : ∀ {s q} (e : EvalError), ended (.ok (), s) q → ended (.error e, s) q
  ended_right : ∀ {p t} (q : Except EvalError Unit × T), ended p (.ok (), t) → ended p q

namespace Coupling

variable {W S T : Type} [Preorder W] {α β : Type} (C : Coupling W S T)

/-- Both computations returned and their states are related at a later world, or the comparison
has ended. -/
inductive Result (w : W) (Q : α → α → Fact W) (p : Except EvalError α × S)
    (q : Except EvalError α × T) : Prop
  | both (v : W) (a b : α) (le : w ≤ v) (left : p.1 = .ok a) (right : q.1 = .ok b)
      (post : Q a b v) (inv : C.inv p.2 q.2 v)
  | halted (h : C.ended (forget p) (forget q))

/-- From related states at a world with `P`, the computations give related results. A comparison
that has ended stays so when the left one goes on. -/
structure Follows (P : Fact W) (x : Fallible EvalError S α) (y : Fallible EvalError T α)
    (Q : α → α → Fact W) : Prop where
  run : ∀ {w s t}, P w → C.inv s t w → C.Result w Q (x s) (y t)
  stays : ∀ {s q}, C.ended (.ok (), s) q → C.ended (forget (x s)) q

abbrev same : α → α → Fact W := fun a b => Fact.of (a = b)

abbrev any : α → α → Fact W := fun _ _ => Fact.of True

variable {C} {P P' : Fact W} {x : Fallible EvalError S α} {y : Fallible EvalError T α}
  {Q Q' : α → α → Fact W} {R : β → β → Fact W}

/-- What happened before a world was reached may be left out. -/
theorem Result.since {w w' : W} {p : Except EvalError α × S} {q : Except EvalError α × T}
    (h : C.Result w' Q p q) (hw : w ≤ w') : C.Result w Q p q := by
  cases h with
  | both v a b le left right post inv => exact .both v a b (hw.trans le) left right post inv
  | halted h => exact .halted h

namespace Follows

theorem weaken (h : C.Follows P x y Q) (hP : P' ≤ P) (hQ : ∀ a b, Q a b ≤ Q' a b) :
    C.Follows P' x y Q' where
  run hw hi := by
    cases h.run (hP _ hw) hi with
    | both v a b le left right post inv => exact .both v a b le left right (hQ a b v post) inv
    | halted h => exact .halted h
  stays := h.stays

theorem before (h : C.Follows P x y Q) (hP : P' ≤ P) : C.Follows P' x y Q :=
  h.weaken hP fun _ _ => le_rfl

theorem pure {a b : α} (h : P ≤ Q a b) :
    C.Follows P (Pure.pure a) (Pure.pure b) Q where
  run hw hi := .both _ a b le_rfl rfl rfl (h _ hw) hi
  stays h := h

theorem throw {e : EvalError}
    (h : ∀ {w s t}, C.inv s t w → C.ended (.error e, s) (.error e, t)) :
    C.Follows P (MonadExcept.throw e) (MonadExcept.throw e) Q where
  run _ hi := .halted (h hi)
  stays h := C.ended_left e h

/-- What is known before the first computation is still known after it. -/
theorem bind {f : α → Fallible EvalError S β} {g : α → Fallible EvalError T β}
    (hx : C.Follows P x y Q) (hf : ∀ a b, C.Follows (P ⊓ Q a b) (f a) (g b) R) :
    C.Follows P (x >>= f) (y >>= g) R := by
  have hs : ∀ {s q}, C.ended (forget (x s)) q → C.ended (forget ((x >>= f) s)) q := by
    intro s q h
    rw [Fallible.bind_apply]
    rcases hp : x s with ⟨_ | a, s'⟩ <;> rw [hp] at h
    · exact h
    · exact (hf a a).stays h
  refine ⟨fun {w s t} hw hi => ?_, fun h => hs (hx.stays h)⟩
  cases hx.run hw hi with
  | both v a b le left right post inv =>
    have hp : (x >>= f) s = f a (x s).2 := by
      rw [Fallible.bind_apply, ← Prod.eta (x s), left]
    have hq : (y >>= g) t = g b (y t).2 := by
      rw [Fallible.bind_apply, ← Prod.eta (y t), right]
    rw [hp, hq]
    cases (hf a b).run ⟨P.monotone le hw, post⟩ inv with
    | both v' a' b' le' left right post inv =>
      exact .both v' a' b' (le.trans le') left right post inv
    | halted h => exact .halted h
  | halted h =>
    -- the left computation goes on by itself; the right one has failed or does not matter
    refine .halted ?_
    have h := hs h
    rw [Fallible.bind_apply y]
    rcases hq : y t with ⟨_ | b, t'⟩ <;> rw [hq] at h
    · exact h
    · exact C.ended_right _ h

theorem bind_eq {f : α → Fallible EvalError S β} {g : α → Fallible EvalError T β} {K : α → Fact W}
    (hx : C.Follows P x y fun a b => Fact.of (a = b) ⊓ K a)
    (hf : ∀ a, C.Follows (P ⊓ K a) (f a) (g a) R) : C.Follows P (x >>= f) (y >>= g) R := by
  refine hx.bind fun a b => ⟨fun {w s t} hw hi => ?_, (hf a).stays⟩
  obtain ⟨hP, rfl : a = b, hK⟩ := hw
  exact (hf a).run ⟨hP, hK⟩ hi

theorem bind_same {f : α → Fallible EvalError S β} {g : α → Fallible EvalError T β}
    (hx : C.Follows P x y same) (hf : ∀ a, C.Follows P (f a) (g a) R) :
    C.Follows P (x >>= f) (y >>= g) R := by
  have hx : C.Follows P x y fun a b => Fact.of (a = b) ⊓ ⊤ :=
    hx.weaken le_rfl fun _ _ _ h => ⟨h, trivial⟩
  exact hx.bind_eq fun a => (hf a).before inf_le_left

theorem bind_any {f : α → Fallible EvalError S β} {g : α → Fallible EvalError T β}
    (hx : C.Follows P x y any) (hf : ∀ a b, C.Follows P (f a) (g b) R) :
    C.Follows P (x >>= f) (y >>= g) R :=
  hx.bind fun a b => (hf a b).before fun _ h => h.1

theorem keeps (h : C.Follows P x y Q) : C.Follows P x y fun a b => Q a b ⊓ P where
  run hw hi := by
    cases h.run hw hi with
    | both v a b le left right post inv =>
      exact .both v a b le left right ⟨post, P.monotone le hw⟩ inv
    | halted h => exact .halted h
  stays := h.stays

/-- What a computation never fails to return. -/
theorem returns {φ : α → Prop} (h : C.Follows P x y Q) (hx : ∀ {s a}, (x s).1 = .ok a → φ a) :
    C.Follows P x y fun a b => Q a b ⊓ Fact.of (φ a) where
  run hw hi := by
    cases h.run hw hi with
    | both v a b le left right post inv => exact .both v a b le left right ⟨post, hx left⟩ inv
    | halted h => exact .halted h
  stays := h.stays

theorem ite {c : Prop} [Decidable c] {x' : Fallible EvalError S α} {y' : Fallible EvalError T α}
    (h : C.Follows P x y Q) (h' : C.Follows P x' y' Q) :
    C.Follows P (if c then x else x') (if c then y else y') Q := by
  split
  · exact h
  · exact h'

end Follows

end Coupling

end ChainRead
