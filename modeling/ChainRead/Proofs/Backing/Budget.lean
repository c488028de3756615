import ChainRead.Proofs.Backing.Keys
import ChainRead.Proofs.Evaluation.Determinacy

/-! # Proofs within budget

The trace of an evaluation that succeeded has counted its distinct proofs, so they can be planned
for. Fetching them can then fail only because of a source.
-/

namespace ChainRead

open Need

variable {σ α β : Type}

theorem EvalError.FromSource.not_tooManyProofs {e : EvalError} (h : e.FromSource) (max : Nat) :
    e ≠ .budget (.tooManyProofs max) := by
  rintro rfl
  cases h

/-- Only sources can make a computation fail. -/
def FailsAtSource (x : Fallible EvalError σ α) : Prop := ∀ s e, (x s).1 = .error e → e.FromSource

namespace FailsAtSource

theorem pure (a : α) : FailsAtSource (pure a : Fallible EvalError σ α) := fun _ _ h => nomatch h

theorem throw {e : EvalError} (h : e.FromSource) :
    FailsAtSource (throw e : Fallible EvalError σ α) := by
  rintro s _ ⟨⟩
  exact h

theorem bind {x : Fallible EvalError σ α} {f : α → Fallible EvalError σ β} (hx : FailsAtSource x)
    (hf : ∀ a, FailsAtSource (f a)) : FailsAtSource (x >>= f) := by
  intro s e h
  rw [Fallible.bind_apply] at h
  rcases hp : x s with ⟨e' | a, s'⟩ <;> rw [hp] at h
  · cases h
    exact hx s e (by rw [hp])
  · exact hf a s' e h

theorem ite {c : Prop} [Decidable c] {x y : Fallible EvalError σ α} (hx : FailsAtSource x)
    (hy : FailsAtSource y) : FailsAtSource (if c then x else y) := by
  split
  · exact hx
  · exact hy

theorem call (src : Source σ) (c : Call) : FailsAtSource (src.call c) := by
  intro s e h
  rw [Source.call_apply] at h
  rcases hr : (src.answer c s).1 with cause | answer <;> rw [hr] at h <;> cases h
  exact .backing cause

end FailsAtSource

namespace Batch

variable (src : Source σ)

theorem prove_fails (b : Batch) : FailsAtSource (b.prove src) := by
  unfold prove
  refine .ite (.ite (.call src _) (.pure _)) (.bind (.call src _) fun isContract => .ite ?_ ?_)
  · refine .bind (.call src _) fun proofs => .ite (.pure _) (.throw ?_)
    exact .backing _
  · exact .bind (.call src _) fun proofs => .pure _

theorem proveAll_fails (bs : List Batch) : FailsAtSource (proveAll src bs) := by
  induction bs with
  | nil => exact .pure _
  | cons b bs ih => exact .bind (b.prove_fails src) fun _ => .bind ih fun _ => .pure _

end Batch

theorem Lockstep.Inv.resume {config : Config} {src : Source σ} {s : Session (σ × List Call)}
    {s' : Session σ} {t : Trace Question} {w : Progress}
    (h : (Lockstep.itself config src).Inv s s' t w) (source : σ) :
    (Lockstep.itself config src).Inv { s with source := (source, s.source.2) } { s' with source }
      t w where
  next := h.next
  settled := h.settled
  rel := rfl
  sound := ⟨h.sound.covers, h.sound.selected, h.sound.supplied, h.sound.failures, h.sound.balanced⟩

section Proving

variable {config : Config} {src : Source σ} {s : Session (σ × List Call)} {s' : Session σ}
  {t : Trace Question} {w : Progress} {needs : List (Need Question)}

theorem ProofKey.proofs_fails (hi : (Lockstep.itself config src).Inv s s' t w)
    (hv : ∀ hash v, .read (.hashed hash v) ∈ needs → v.Valid w.1)
    (proven : List (Batch × AccountProofs)) (keys : List ProofKey) {e : EvalError}
    (h : (ProofKey.proofs src.answers needs proven keys s').1 = .error e) : e.FromSource := by
  induction keys generalizing s s' with
  | nil => cases h
  | cons key keys ih =>
    have step : (∀ e, (key.proof src.answers needs proven s').1 = .error e → e.FromSource) ∧
        ∃ s, (Lockstep.itself config src).Inv s (key.proof src.answers needs proven s').2 t w := by
      rcases key.proof_cases src.answers needs proven with ⟨hash, v, hn, hp⟩ | ⟨proof, hp⟩
      · obtain ⟨_, he, hi⟩ := hi.resolve Lockstep.itself_not_gone (hv hash v hn)
        rw [hp]
        exact ⟨he, _, hi⟩
      · rw [hp]
        exact ⟨fun e h => (nomatch h), s, hi⟩
    obtain ⟨he, s₁, hi⟩ := step
    simp only [ProofKey.proofs, Fallible.bind_apply] at h
    rcases hp : key.proof src.answers needs proven s' with ⟨e' | proof, s₂⟩ <;> rw [hp] at h hi he
    · cases h
      exact he e rfl
    · rcases hr : ProofKey.proofs src.answers needs proven keys s₂ with ⟨e' | rest, s₃⟩ <;>
        simp only [hr] at h <;> cases h
      exact ih hi (by rw [hr])

theorem prove_fails (hi : (Lockstep.itself config src).Inv s s' t w)
    (hv : ∀ hash v, .read (.hashed hash v) ∈ needs → v.Valid w.1) (prover : Source σ)
    {plan : ProofPlan} (hp : ProofPlan.ofNeeds needs = .ok plan) {e : EvalError}
    (h : (prove prover src.answers needs s').1 = .error e) : e.FromSource := by
  simp only [prove, hp, Fallible.bind_apply, Fallible.ofExcept, Fallible.zoom_apply] at h
  have hb := Batch.proveAll_fails prover plan.batches s'.source
  rcases hs : Batch.proveAll prover plan.batches s'.source with ⟨e' | proven, source⟩ <;>
    rw [hs] at h hb
  · cases h
    exact hb e rfl
  · rcases hr : ProofKey.proofs src.answers needs proven plan.keys { s' with source } with
      ⟨e' | proofs, s₁⟩ <;> simp only [hr] at h <;> cases h
    exact ProofKey.proofs_fails (hi.resume source) hv proven plan.keys (by rw [hr])

end Proving

/-- Whatever calls made a trace, if those that register proofs succeeded, its needs can be planned
for, with as many proofs as the trace counted and no more than the limits allow. So proving the
needs of an evaluation that succeeded never exceeds the number of proof indices. -/
theorem budget_agrees (c : Config) :
    (∀ {Q : Type} (calls : List (TraceCall Q)) (t : Trace Q),
      TraceCall.Succeed calls (Trace.new c) t →
        ∃ plan, ProofPlan.ofNeeds t.needs = .ok plan ∧ plan.keys.length = t.uniqueProofs ∧
          t.uniqueProofs ≤ min c.maxUniqueProofs.toNat 256) ∧
    ∀ {σ : Type} (src prover : Source σ) (program : Program) (source : σ) (e : Evaluation)
      (s : Session σ), Env.evaluate ⟨src, c⟩ program { source } = (.ok e, s) →
        ∀ vs, (∀ v ∈ vs, e.Leaves v) → ∀ max,
          (prove prover src.answers e.needs (Value.resolveEach src.answers vs s).2).1 ≠
            .error (.budget (.tooManyProofs max)) := by
  constructor
  · intro Q calls t h
    have hb := h.balanced (Trace.new_balanced c)
    obtain ⟨plan, hp, hk⟩ := hb.plan c.proofLimit_le
    exact ⟨plan, hp, hk, hb.uniqueProofs.2⟩
  · intro σ src prover program source e s he vs hv max h
    obtain ⟨s₀, t, w, _, together⟩ := src.logged_evaluate he
    -- the trace of an evaluation that succeeded counted the keys of its needs
    obtain ⟨plan, hp, _⟩ := together.inv.sound.balanced.plan c.proofLimit_le
    rw [← together.needs] at hp
    have hi := (together.inv.resolveEach Lockstep.itself_not_gone fun v h =>
      together.valid v (hv v h)).2
    refine (prove_fails hi (fun hash v h => ?_) prover hp h).not_tooManyProofs max rfl
    exact together.valid v (Or.inr ⟨hash, h⟩)

/-- A slot that is read twice and a target that is left and selected again take one proof each. -/
theorem budget_agrees_reselected :
    ∃ (t : Trace Question) (plan : ProofPlan),
      TraceCall.Succeed [.addTarget 1 false, .addStorage 1 5, .addStorage 2 5, .addStorage 1 5]
        (Trace.new {}) t ∧
      ProofPlan.ofNeeds t.needs = .ok plan ∧ plan.keys.length = t.uniqueProofs ∧
      t.uniqueProofs = 4 := by
  have h : TraceCall.Succeed (Q := Question)
      [.addTarget 1 false, .addStorage 1 5, .addStorage 2 5, .addStorage 1 5] (Trace.new {}) _ :=
    .cons (fun _ => rfl) <| .cons (fun _ => rfl) <| .cons (fun _ => rfl) <|
      .cons (fun _ => rfl) <| .nil _
  obtain ⟨plan, hp, hk, _⟩ := (budget_agrees {}).1 _ _ h
  exact ⟨_, plan, h, hp, hk, by decide +kernel⟩

end ChainRead
