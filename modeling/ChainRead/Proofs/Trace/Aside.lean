import ChainRead.Proofs.Trace.Charges

/-! # What registering leaves alone

Registering targets and slots changes a trace in four ways. A part of the trace that none of them
changes is left alone by every operation that registers needs of chain state, whether or not the
operation fails.
-/

namespace ChainRead.Trace

variable {Q α β γ : Type} {p : Trace Q → γ}

def LeavesAlone (p : Trace Q → γ) (x : Fallible EvalError (Trace Q) α) : Prop :=
  ∀ t, p (x t).2 = p t

theorem LeavesAlone.bind {x : Fallible EvalError (Trace Q) α}
    {f : α → Fallible EvalError (Trace Q) β} (hx : LeavesAlone p x)
    (hf : ∀ a, LeavesAlone p (f a)) : LeavesAlone p (x >>= f) := by
  intro t
  have h := hx t
  rw [Fallible.bind_apply]
  rcases hp : x t with ⟨e | a, u⟩ <;> rw [hp] at h
  · exact h
  · exact (hf a u).trans h

/-- A part of a trace that registering targets and slots does not change. -/
structure Aside (p : Trace Q → γ) : Prop where
  pay (k : ProofKey) (t : Trace Q) : p (t.pay k) = p t
  select (a : Address) (r : Bool) (t : Trace Q) : p (t.select a r) = p t
  slot (s : Word) (t : Trace Q) : p (record (.storage s) t) = p t
  require (t : Trace Q) : p t.require = p t

namespace Aside

variable (h : Aside p)
include h

theorem register (k : ProofKey) {f : Trace Q → Trace Q} (hf : ∀ t, p (f t) = p t)
    (t : Trace Q) : p (t.register k f).2 = p t := by
  unfold Trace.register
  split
  · rw [hf, h.pay]
  · exact h.pay k t

theorem addTarget (a : Address) (r : Bool) : LeavesAlone p (addTarget a r) := by
  intro t
  rw [addTarget_eq]
  exact h.register _ (h.select a r) t

theorem addSlot (a : Address) (s : Word) : LeavesAlone p (addSlot a s) := by
  intro t
  rw [addSlot_eq]
  exact h.register _ (h.slot s) t

theorem requireTarget (a : Address) : LeavesAlone p (requireTarget a) := by
  intro t
  rw [requireTarget_eq]
  split
  · exact h.require t
  · exact h.register _ (h.select a true) t

theorem aim (a : Address) : LeavesAlone p (aim a) := by
  intro t
  unfold Trace.aim
  split
  · dsimp only
    split
    · exact h.require t
    · rfl
  · exact h.register _ (h.select a _) t

theorem addStorage (a : Address) (s : Word) : LeavesAlone p (addStorage a s) := by
  intro t
  by_cases ht : t.lastTarget? ≠ none ∨ t.requireTargetBeforeSlot = true
  · rw [addStorage_eq a s ht]
    exact (h.aim a).bind (fun _ => h.addSlot a s) t
  · rw [not_or, not_not, Bool.not_eq_true] at ht
    rw [addStorage_of_unselected a s ht.1 ht.2]
    exact h.register _ (h.slot s) t

end Aside

end ChainRead.Trace
