import ChainRead.Proofs.Trace.Operations

/-! # Traces made by calls

Whatever calls made a trace, it is balanced if none of those that register proofs failed. The plan
for its needs then exists, and it wants as many proofs as the trace counted.
-/

namespace ChainRead

variable {Q : Type}

inductive TraceCall (Q : Type)
  | addTarget (address : Address) (required : Bool)
  | requireTarget (address : Address)
  | addStorage (target : Address) (slot : Word)
  | addHashed (hash : Word) (value : Value Q)
  | alloc (bytes : Nat)
  | allocWords (count : Nat)

namespace TraceCall

def run : TraceCall Q → Fallible EvalError (Trace Q) Unit
  | addTarget a r => Trace.addTarget a r
  | requireTarget a => Trace.requireTarget a
  | addStorage a s => Trace.addStorage a s
  | addHashed hash v => Trace.addHashed hash v
  | alloc n => Trace.alloc n
  | allocWords n => do
    let _ ← Trace.allocWords n
    return ()

/-- Whether a call registers a proof. The others only allocate. -/
def registers : TraceCall Q → Bool
  | alloc _ | allocWords _ => false
  | _ => true

/-- Calls made one after the other, of which those that register a proof succeed. -/
inductive Succeed : List (TraceCall Q) → Trace Q → Trace Q → Prop
  | nil (t : Trace Q) : Succeed [] t t
  | cons {c : TraceCall Q} {cs : List (TraceCall Q)} {t u : Trace Q}
    (h : c.registers = true → (c.run t).1 = .ok ()) (rest : Succeed cs (c.run t).2 u) :
    Succeed (c :: cs) t u

open Trace

variable {limit : Nat} {t u : Trace Q}

theorem run_balanced {c : TraceCall Q} (hc : c.registers = true → (c.run t).1 = .ok ())
    (h : Balanced limit t) : Balanced limit (c.run t).2 := by
  cases c with
  | addTarget a r => exact (Effect.addTarget a r).balanced (hc rfl) h
  | requireTarget a => exact (Effect.requireTarget a).balanced (hc rfl) h
  | addStorage a s => exact (Effect.addStorage a s).balanced (hc rfl) h
  | addHashed hash v => exact (Effect.addHashed hash v).balanced (hc rfl) h
  | alloc n => exact (silent_alloc n t).balanced h
  | allocWords n =>
    have hs : ((allocWords n).run t).2 = (Trace.allocWords n t).2 := by
      simp only [run, Fallible.bind_apply]
      rcases Trace.allocWords n t with ⟨_ | _, _⟩ <;> rfl
    rw [hs]
    exact (silent_allocWords n t).balanced h

theorem Succeed.balanced {cs : List (TraceCall Q)} (h : Succeed cs t u) (hb : Balanced limit t) :
    Balanced limit u := by
  induction h with
  | nil => exact hb
  | cons hc _ ih => exact ih (run_balanced hc hb)

end TraceCall

namespace Trace

variable {limit : Nat} {t : Trace Q}

theorem new_balanced (c : Config) : Balanced c.proofLimit (new c : Trace Q) := by
  constructor
  · rfl
  · exact Int.natCast_nonneg _
  · exact Int.add_zero _
  · intro k
    cases k <;> simp [new, charged, needs, ProofKey.keys, ProofKey.ofNeeds]

theorem Balanced.uniqueProofs (h : Balanced limit t) :
    (ProofKey.keys t.needs).eraseDups.length = t.uniqueProofs ∧ t.uniqueProofs ≤ limit := by
  have h₁ := h.bound
  have h₂ := h.nonneg
  have h₃ := h.left
  unfold Trace.uniqueProofs
  omega

theorem Balanced.plan (h : Balanced limit t) (hl : limit ≤ Config.maxProofIndex) :
    ∃ plan, ProofPlan.ofNeeds t.needs = .ok plan ∧ plan.keys.length = t.uniqueProofs := by
  obtain ⟨hk, hu⟩ := h.uniqueProofs
  have hn : ¬ Config.maxProofIndex < (ProofKey.keys t.needs).eraseDups.length := by omega
  unfold ProofPlan.ofNeeds
  exact ⟨_, if_neg hn, hk⟩

end Trace

theorem Config.proofLimit_le (c : Config) : c.proofLimit ≤ Config.maxProofIndex :=
  Nat.min_le_right _ _

end ChainRead
