import ChainRead.Proofs.Evaluation.Calls
import ChainRead.Source.Chain

/-! # Needs determine the outcome

An evaluation learns from its source only what its needs stand for. Against another source that
agrees on that, it gives the same outcome with the same needs, and every value that it leaves
resolves to the same.
-/

namespace ChainRead

open Need

/-- Two ways to answer calls agree on what needs stand for: the slots that they read, the code
checks of required targets and the bytes supplied for hashes. -/
structure AgreeOn (needs : List (Need Question)) (f g : (c : Call) → Except BackingError c.Answer) :
    Prop where
  storage : ∀ p ∈ slotsRead needs, f (.storage p.1 p.2) = g (.storage p.1 p.2)
  isContract : ∀ a, .target a true ∈ needs → f (.isContract a) = g (.isContract a)
  hashedBytes : ∀ h ∈ hashesRead needs, f (.hashedBytes h) = g (.hashedBytes h)

variable {σ τ : Type} {f g : (c : Call) → Except BackingError c.Answer}

theorem AgreeOn.call {needs : List (Need Question)} (h : AgreeOn needs f g) {c : Call}
    {calls : List Call} (hb : Back needs (c :: calls)) : f c = g c := by
  have hc := hb c
  rw [List.count_cons_self] at hc
  cases c with
  | storage a s =>
    exact h.storage (a, s) (List.count_pos_iff.mp (Nat.lt_of_lt_of_le (Nat.succ_pos _) hc))
  | isContract a => exact h.isContract a (hc (Nat.succ_pos _))
  | hashedBytes hash =>
    exact h.hashedBytes hash (List.count_pos_iff.mp (Nat.lt_of_lt_of_le (Nat.succ_pos _) hc))
  | proofs => cases hc

theorem Source.logged_evaluate {config : Config} {src : Source σ} {program : Program} {source : σ}
    {e : Evaluation} {s : Session σ}
    (he : Env.evaluate ⟨src, config⟩ program { source } = (.ok e, s)) :
    ∃ s₀ t w, Env.evaluate ⟨src.logged, config⟩ program { source := (source, []) } = (.ok e, s₀) ∧
      (Lockstep.itself config src).Together e s₀ s t w := by
  have h := (Lockstep.itself config src).evaluate program (x := source) rfl
  have he : Env.evaluate ⟨(Lockstep.itself config src).right, (Lockstep.itself config src).config⟩
    program { source } = (.ok e, s) := he
  rw [he] at h
  cases h with
  | both e' t w left right together =>
    cases right
    exact ⟨_, t, w, Prod.ext left rfl, together⟩
  | failed _ _ right => cases right
  | gone h => cases h

end ChainRead
