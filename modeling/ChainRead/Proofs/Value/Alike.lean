import Mathlib.Data.List.Forall2
import ChainRead.Proofs.Value.Resolve

/-! # Computations that do alike

Two computations do alike if related states give the same result and stay related. A comparison may
be one-sided: then the second one may also go on where the first one fails. Where questions are
answered alike and settling an outcome keeps sessions related, values resolve alike.
-/

namespace ChainRead

namespace Fallible

variable {ε ε' S T α β : Type} {E : Prop} {R : S → T → Prop}

/-- The result is the same and related states are left, unless the first computation failed and `E`
allows for that. -/
def SameResult (E : Prop) (R : S → T → Prop) (p : Except ε α × S) (q : Except ε α × T) : Prop :=
  (p.1 = q.1 ∧ R p.2 q.2) ∨ E ∧ ∃ e, p.1 = .error e

structure Alike (E : Prop) (R : S → T → Prop) (x : Fallible ε S α) (y : Fallible ε T α) : Prop where
  run : ∀ {s t}, R s t → SameResult E R (x s) (y t)

namespace Alike

variable {x : Fallible ε S α} {y : Fallible ε T α}

theorem of_same (h : ∀ {s t}, R s t → (x s).1 = (y t).1 ∧ R (x s).2 (y t).2) : Alike E R x y :=
  ⟨fun hr => Or.inl (h hr)⟩

theorem same (h : Alike False R x y) {s : S} {t : T} (hr : R s t) :
    (x s).1 = (y t).1 ∧ R (x s).2 (y t).2 :=
  (h.run hr).resolve_right And.left

theorem ok (h : Alike E R x y) {s s' : S} {t : T} {a : α} (hr : R s t) (hx : x s = (.ok a, s')) :
    ∃ t', y t = (.ok a, t') ∧ R s' t' := by
  rcases h.run hr with ⟨he, hr⟩ | ⟨_, e, he⟩ <;> rw [hx] at he
  · rw [hx] at hr
    exact ⟨_, Prod.ext he.symm rfl, hr⟩
  · cases he

theorem ofExcept (r : Except ε α) : Alike E R (Fallible.ofExcept r) (Fallible.ofExcept r) :=
  of_same fun h => ⟨rfl, h⟩

theorem pure (a : α) : Alike E R (Pure.pure a : Fallible ε S α) (Pure.pure a) :=
  of_same fun h => ⟨rfl, h⟩

theorem throw (e : ε) : Alike E R (throw e : Fallible ε S α) (throw e) :=
  of_same fun h => ⟨rfl, h⟩

theorem bind {f : α → Fallible ε S β} {g : α → Fallible ε T β} (h : Alike E R x y)
    (hf : ∀ a, Alike E R (f a) (g a)) : Alike E R (x >>= f) (y >>= g) := by
  refine ⟨fun {s t} hs => ?_⟩
  have h := h.run hs
  rw [bind_apply, bind_apply]
  rcases hx : x s with ⟨e | a, u⟩ <;> rcases hy : y t with ⟨e' | a', u'⟩ <;> rw [hx, hy] at h <;>
    rcases h with ⟨he, hr⟩ | ⟨hE, e'', he⟩ <;> cases he
  · exact Or.inl ⟨rfl, hr⟩
  · exact Or.inr ⟨hE, e, rfl⟩
  · exact Or.inr ⟨hE, e, rfl⟩
  · exact (hf a).run hr

theorem mapError (h : Alike E R x y) (f : ε → ε') : Alike E R (x.mapError f) (y.mapError f) := by
  refine ⟨fun {s t} hs => (h.run hs).imp (fun ⟨he, hr⟩ => ⟨congrArg (Except.mapError f) he, hr⟩) ?_⟩
  rintro ⟨hE, e, he⟩
  exact ⟨hE, f e, congrArg (Except.mapError f) he⟩

end Alike

end Fallible

open Fallible

variable {Q σ τ : Type} {answers : Answers Q σ} {answers' : Answers Q τ} {E : Prop}
  {K : Q → Q → Prop} {R : Session σ → Session τ → Prop}

/-- Values that differ at most in the questions that they put. -/
inductive Value.Twin (K : Q → Q → Prop) : Value Q → Value Q → Prop
  | known (bytes : Bytes) : Twin K (.known bytes) (.known bytes)
  | asked (id : Nat) (hint : Option Nat) {q q' : Q} (h : K q q') :
    Twin K (.asked id hint q) (.asked id hint q')
  | joined (id : Nat) (hint : Option Nat) {parts parts' : List (Value Q)}
    (h : List.Forall₂ (Twin K) parts parts') :
    Twin K (.joined id hint parts) (.joined id hint parts')
  | mapped (id : Nat) (hint : Option Nat) {base base' : Value Q} (f : Bytes → Outcome)
    (h : Twin K base base') : Twin K (.mapped id hint base f) (.mapped id hint base' f)

namespace Value.Twin

mutual

theorem refl (v : Value Q) : Twin Eq v v := by
  cases v with
  | known bytes => exact .known bytes
  | asked id hint q => exact .asked id hint rfl
  | joined id hint parts => exact .joined id hint (reflAll parts)
  | mapped id hint base f => exact .mapped id hint f (refl base)

theorem reflAll (vs : List (Value Q)) : List.Forall₂ (Twin Eq) vs vs := by
  cases vs with
  | nil => exact .nil
  | cons v vs => exact .cons (refl v) (reflAll vs)

end

variable {v v' : Value Q}

theorem id? (h : Twin K v v') : v.id? = v'.id? := by
  cases h <;> rfl

theorem hint? (h : Twin K v v') : v.hint? = v'.hint? := by
  cases h <;> rfl

end Value.Twin

namespace Session

/-- Whatever is done to resolve a value does alike in related sessions, where questions stand for
one another. -/
structure Matched (E : Prop) (K : Q → Q → Prop) (answers : Answers Q σ) (answers' : Answers Q τ)
    (R : Session σ → Session τ → Prop) : Prop where
  settled {s t} : R s t → s.settled = t.settled
  mark (id : Nat) : Alike E R (mark id) (mark id)
  ask {q q' : Q} : K q q' → Alike E R (ask answers q) (ask answers' q')
  settle {s t} (id : Nat) (o : Outcome) : R s t →
    R { s with settled := (id, o) :: s.settled } { t with settled := (id, o) :: t.settled }

namespace Matched

theorem once (h : Matched E K answers answers' R) (id : Nat)
    {x : Fallible EvalError (Session σ) Bytes} {y : Fallible EvalError (Session τ) Bytes}
    (hx : Alike E R x y) : Alike E R (once id x) (once id y) := by
  refine ⟨fun {s t} hr => ?_⟩
  have ht : t.outcome? id = s.outcome? id := by
    unfold Session.outcome?
    rw [h.settled hr]
  rcases ho : s.outcome? id with _ | o
  · rw [once_of_not_settled ho, once_of_not_settled (ht.trans ho)]
    refine (hx.run hr).imp_left fun ⟨he, hu⟩ => ?_
    rw [he]
    exact ⟨rfl, h.settle id _ hu⟩
  · rw [once_of_settled ho, once_of_settled (ht.trans ho)]
    exact Or.inl ⟨rfl, hr⟩

mutual

theorem resolveTwin (h : Matched E K answers answers' R) (v : Value Q) {v' : Value Q}
    (hv : v.Twin K v') : Alike E R (v.resolve answers) (v'.resolve answers') := by
  cases hv with
  | known bytes => exact .pure bytes
  | asked id hint hq =>
    rw [Value.resolve, Value.resolve]
    exact h.once id ((h.mark id).bind fun _ => h.ask hq)
  | @joined id hint parts _ hp =>
    rw [Value.resolve, Value.resolve]
    exact h.once id ((resolveTwins h parts hp).bind fun _ => .pure _)
  | @mapped id hint base _ f hb =>
    rw [Value.resolve, Value.resolve]
    refine h.once id ((resolveTwin h base hb).bind fun bytes => ?_)
    exact (h.mark id).bind fun _ => .ofExcept _

theorem resolveTwins (h : Matched E K answers answers' R) (vs : List (Value Q))
    {vs' : List (Value Q)} (hv : List.Forall₂ (Value.Twin K) vs vs') :
    Alike E R (Value.resolveAll answers vs) (Value.resolveAll answers' vs') := by
  cases hv with
  | nil => exact .pure []
  | @cons v _ vs _ hv hvs =>
    rw [Value.resolveAll, Value.resolveAll]
    exact (resolveTwin h v hv).bind fun bytes => (resolveTwins h vs hvs).bind fun _ => .pure _

end

theorem resolve (h : Matched E Eq answers answers' R) (v : Value Q) :
    Alike E R (v.resolve answers) (v.resolve answers') :=
  h.resolveTwin v (.refl v)

theorem resolveAll (h : Matched E Eq answers answers' R) (vs : List (Value Q)) :
    Alike E R (Value.resolveAll answers vs) (Value.resolveAll answers' vs) :=
  h.resolveTwins vs (Value.Twin.reflAll vs)

end Matched

end Session

end ChainRead
