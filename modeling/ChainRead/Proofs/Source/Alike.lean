import ChainRead.Backing.Prove
import ChainRead.Proofs.Source.Answers
import ChainRead.Proofs.Value.Alike

/-! # Sources that answer alike

Two sources answer alike if related states give the same answer to every call and stay related.
Values then resolve alike, and the same proofs are fetched.
-/

namespace ChainRead

open Fallible

variable {σ τ α : Type} {src : Source σ} {src' : Source τ} {R : σ → τ → Prop}

/-- From related states every call has the same answer. -/
def Source.Alike (src : Source σ) (src' : Source τ) (R : σ → τ → Prop) : Prop :=
  ∀ c, Fallible.Alike False R (src.answer c) (src'.answer c)

/-- The sessions number and hold the same values, and their sources are related. -/
structure Session.Over (R : σ → τ → Prop) (s : Session σ) (t : Session τ) : Prop where
  next : s.next = t.next
  settled : s.settled = t.settled
  source : R s.source t.source

theorem Session.Over.zoom {x : Fallible EvalError σ α} {y : Fallible EvalError τ α}
    (h : Fallible.Alike False R x y) :
    Fallible.Alike False (Session.Over R) (x.zoom Session.source fun source s => { s with source })
      (y.zoom Session.source fun source s => { s with source }) := by
  refine .of_same fun {s t} hs => ?_
  obtain ⟨he, hr⟩ := h.same hs.source
  exact ⟨he, hs.next, hs.settled, hr⟩

namespace Source.Alike

variable (h : src.Alike src' R)
include h

theorem call (c : Call) : Fallible.Alike False R (src.call c) (src'.call c) :=
  (h c).mapError EvalError.backing

theorem answers (q : Question) : Fallible.Alike False R (src.answers q) (src'.answers q) := by
  refine .of_same fun {s t} hs => ?_
  obtain ⟨he, hr⟩ := (h q.call).same hs
  rw [answers_apply, answers_apply, he]
  exact ⟨rfl, hr⟩

theorem matched : Session.Matched False Eq src.answers src'.answers (Session.Over R) where
  settled hs := hs.settled
  mark _ := .of_same fun hs => ⟨rfl, hs.next, hs.settled, hs.source⟩
  ask {q _} := by
    rintro rfl
    exact Session.Over.zoom (h.answers q)
  settle _ _ hs := ⟨hs.next, congrArg _ hs.settled, hs.source⟩

theorem proveBatch (b : Batch) : Fallible.Alike False R (b.prove src) (b.prove src') := by
  unfold Batch.prove
  split
  · split
    · exact h.call _
    · exact .pure _
  · refine (h.call _).bind fun isContract => ?_
    split
    · refine (h.call _).bind fun proofs => ?_
      split
      · exact .pure _
      · exact .throw _
    · exact (h.call _).bind fun _ => .pure _

theorem proveAll (bs : List Batch) :
    Fallible.Alike False R (Batch.proveAll src bs) (Batch.proveAll src' bs) := by
  induction bs with
  | nil => exact .pure _
  | cons b bs ih => exact (h.proveBatch b).bind fun _ => ih.bind fun _ => .pure _

theorem proofs (needs : List (Need Question)) (proven : List (Batch × AccountProofs))
    (keys : List ProofKey) :
    Fallible.Alike False (Session.Over R) (ProofKey.proofs src.answers needs proven keys)
      (ProofKey.proofs src'.answers needs proven keys) := by
  have proof (key : ProofKey) : Fallible.Alike False (Session.Over R)
      (key.proof src.answers needs proven) (key.proof src'.answers needs proven) := by
    cases key with
    | supplied position =>
      simp only [ProofKey.proof]
      split
      · exact h.matched.resolve _
      · exact .pure _
    | _ => exact .pure _
  induction keys with
  | nil => exact .pure _
  | cons key keys ih => exact (proof key).bind fun _ => ih.bind fun _ => .pure _

theorem prove (needs : List (Need Question)) :
    Fallible.Alike False (Session.Over R) (prove src src.answers needs)
      (prove src' src'.answers needs) := by
  refine Fallible.Alike.bind (.ofExcept _) fun plan => ?_
  refine (Session.Over.zoom (h.proveAll plan.batches)).bind fun proven => ?_
  exact (h.proofs needs proven plan.keys).bind fun _ => .pure _

end Source.Alike

end ChainRead
