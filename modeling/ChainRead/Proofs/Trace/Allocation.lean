import ChainRead.Proofs.Trace.Aside

/-! # What charges bytes

Bytes are charged to a budget of their own, which registering needs leaves alone.
-/

namespace ChainRead.Trace

variable {Q α β : Type} {t : Trace Q}

theorem alloc_ok {n : Nat} {u : Trace Q} {a : Unit} (h : alloc n t = (.ok a, u)) :
    n ≤ t.allocLeft ∧ u.allocLeft = t.allocLeft - n := by
  unfold alloc at h
  split at h
  · cases h
    exact ⟨‹_›, rfl⟩
  · cases h

theorem allocWords_ok {n size : Nat} {u : Trace Q} (h : allocWords n t = (.ok size, u)) :
    size = n * 32 ∧ size ≤ maxSize ∧ alloc size t = (.ok (), u) := by
  unfold allocWords at h
  split at h
  · obtain ⟨_, v, ha, h⟩ := Fallible.bind_ok h
    cases h
    exact ⟨rfl, ‹_›, ha⟩
  · cases h

def ChargesNone (x : Fallible EvalError (Trace Q) α) : Prop :=
  ∀ t, (x t).2.allocLeft = t.allocLeft

theorem allocLeft_record (r : Read Q) (t : Trace Q) : (record r t).allocLeft = t.allocLeft := by
  unfold record
  split <;> rfl

theorem aside_allocLeft : Aside (allocLeft (Q := Q)) where
  pay k t := by
    rcases h : t.charged k with _ | _
    · rw [pay_of_not_charged h]
      cases k <;> rfl
    · rw [pay_of_charged h]
  select _ _ _ := rfl
  slot s t := allocLeft_record _ t
  require t := by
    unfold require
    split <;> rfl

namespace ChargesNone

theorem addTarget (a : Address) (r : Bool) : ChargesNone (addTarget (Q := Q) a r) :=
  aside_allocLeft.addTarget a r

theorem addHashed (hash : Word) (v : Value Q) : ChargesNone (addHashed hash v) := by
  intro t
  rw [addHashed_eq]
  exact aside_allocLeft.register _ (allocLeft_record _) t

theorem requireTarget (a : Address) : ChargesNone (requireTarget (Q := Q) a) :=
  aside_allocLeft.requireTarget a

theorem addStorage (a : Address) (s : Word) : ChargesNone (addStorage (Q := Q) a s) :=
  aside_allocLeft.addStorage a s

end ChargesNone

end ChainRead.Trace
