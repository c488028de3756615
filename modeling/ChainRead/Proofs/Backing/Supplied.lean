import ChainRead.Proofs.Backing.Assembly

/-! # Proofs of supplied bytes

The proof of a need for supplied bytes is what its value resolves to in the session that remains.
All that proving does besides resolving such values is to make calls about accounts. This holds
whatever a source answers.
-/

namespace ChainRead

open Need Session

variable {Q σ α β : Type}

theorem Fallible.bind_error {ε : Type} {x : Fallible ε σ α} {f : α → Fallible ε σ β} {s s' : σ}
    {e : ε} (h : (x >>= f) s = (.error e, s')) :
    x s = (.error e, s') ∨ ∃ a t, x s = (.ok a, t) ∧ f a t = (.error e, s') := by
  rw [bind_apply] at h
  rcases hx : x s with ⟨e' | a, t⟩ <;> rw [hx] at h
  · cases h
    exact Or.inl rfl
  · exact Or.inr ⟨a, t, rfl, h⟩

/-- A computation keeps what holds of its state, whether it fails or not. -/
def Maintains (I : σ → Prop) (x : Fallible EvalError σ α) : Prop := ∀ s, I s → I (x s).2

namespace Maintains

variable {I : σ → Prop}

theorem pure (a : α) : Maintains I (pure a : Fallible EvalError σ α) := fun _ h => h

theorem throw (e : EvalError) : Maintains I (throw e : Fallible EvalError σ α) := fun _ h => h

theorem bind {x : Fallible EvalError σ α} {f : α → Fallible EvalError σ β} (hx : Maintains I x)
    (hf : ∀ a, Maintains I (f a)) : Maintains I (x >>= f) := by
  intro s hs
  have ht := hx s hs
  rw [Fallible.bind_apply]
  rcases hp : x s with ⟨e | a, t⟩ <;> rw [hp] at ht
  · exact ht
  · exact hf a t ht

theorem ite {c : Prop} [Decidable c] {x y : Fallible EvalError σ α} (hx : Maintains I x)
    (hy : Maintains I y) : Maintains I (if c then x else y) := by
  split
  · exact hx
  · exact hy

end Maintains

def Call.isSupply : Call → Bool
  | .hashedBytes _ => true
  | _ => false

section Keeps

variable {src : Source σ} {J : σ → Prop}
  (hJ : ∀ (c : Call) s, c.isSupply = false → J s → J (src.answer c s).2)
include hJ

theorem Batch.prove_maintains (b : Batch) : Maintains J (b.prove src) := by
  have call (c : Call) (h : c.isSupply = false) : Maintains J (src.call c) := fun s => hJ c s h
  unfold prove
  refine .ite (.ite (call _ rfl) (.pure _)) (.bind (call _ rfl) fun isContract => .ite ?_ ?_)
  · exact .bind (call _ rfl) fun proofs => .ite (.pure _) (.throw _)
  · exact .bind (call _ rfl) fun proofs => .pure _

theorem Batch.proveAll_maintains (bs : List Batch) : Maintains J (proveAll src bs) := by
  induction bs with
  | nil => exact .pure _
  | cons b bs ih => exact .bind (prove_maintains hJ b) fun _ => .bind ih fun _ => .pure _

end Keeps

/-- What holds of a session holds after proving needs, if it is kept by resolving the values of the
needs and by calls that are not for supplied bytes. -/
theorem prove_maintains {src : Source σ} {answers : Answers Q σ} {needs : List (Need Q)}
    {I : Session σ → Prop}
    (hv : ∀ hash v, .read (.hashed hash v) ∈ needs → Maintains I (v.resolve answers))
    (hc : ∀ (c : Call) s, c.isSupply = false → I s →
      I { s with source := (src.answer c s.source).2 }) :
    Maintains I (prove src answers needs) := by
  have proofs (proven : List (Batch × AccountProofs)) (keys : List ProofKey) :
      Maintains I (ProofKey.proofs answers needs proven keys) := by
    induction keys with
    | nil => exact .pure _
    | cons key keys ih =>
      refine .bind ?_ fun _ => .bind ih fun _ => .pure _
      rcases key.proof_cases answers needs proven with ⟨hash, v, hn, h⟩ | ⟨proof, h⟩ <;> rw [h]
      · exact hv hash v hn
      · exact .pure proof
  refine .bind (fun s hs => hs) fun plan => .bind (fun s hs => ?_) fun proven => ?_
  · exact Batch.proveAll_maintains (J := fun source => I { s with source })
      (fun c source h hs => hc c _ h hs) plan.batches s.source hs
  · exact .bind (proofs proven plan.keys) fun _ => .pure _

section Supplied

variable {src : Source σ} {answers : Answers Q σ} {needs : List (Need Q)} {s s' : Session σ}

theorem prove_supplied {seq : ProofSequence} (h : prove src answers needs s = (.ok seq, s'))
    {i : Nat} {hash : Word} {v : Value Q} (hn : needs[i]? = some (.read (.hashed hash v))) :
    ∃ n proof, seq.order[i]? = some n ∧ seq.proofs[n.toNat]? = some proof ∧
      (v.resolve answers s').1 = .ok proof := by
  obtain ⟨plan, proven, source, hplan, _, hproofs, horder⟩ := prove_ok_iff.mp h
  obtain ⟨_, _, hkeys⟩ := ProofKey.proofs_ok hproofs
  obtain ⟨hl, rfl⟩ := ProofPlan.ofNeeds_ok hplan
  have hi : keyAt needs i = some (.supplied i) := by
    unfold keyAt
    rw [hn]
  obtain ⟨n, proof, ho, hx, hproof⟩ := ProofKey.proof_at hl hkeys hi
  refine ⟨n, proof, by rw [horder]; exact ho, hx, ?_⟩
  rw [ProofKey.proof, hn] at hproof
  exact hproof

theorem ProofKey.proofs_error {proven : List (Batch × AccountProofs)} {keys : List ProofKey}
    {e : EvalError} (h : proofs answers needs proven keys s = (.error e, s')) :
    ∃ hash v, .read (.hashed hash v) ∈ needs ∧ (v.resolve answers s').1 = .error e := by
  induction keys generalizing s with
  | nil => cases h
  | cons key keys ih =>
    rcases Fallible.bind_error h with hp | ⟨proof, t, _, h⟩
    · have again : (key.proof answers needs proven s').1 = (key.proof answers needs proven s).1 :=
        proof_again (by rw [hp]; exact fun _ _ h => h)
      rw [hp] at again
      rcases key.proof_cases answers needs proven with ⟨hash, v, hn, hv⟩ | ⟨proof, hv⟩
      · rw [hv] at again
        exact ⟨hash, v, hn, again⟩
      · rw [hv] at again
        cases again
    · rcases Fallible.bind_error h with hr | ⟨rest, u, _, h⟩
      · exact ih hr
      · cases h

/-- If proving needs fails, there are too many of them, or a request for an account failed, or the
value of a need does. -/
theorem prove_error {e : EvalError} (h : prove src answers needs s = (.error e, s')) :
    ProofPlan.ofNeeds needs = .error e ∨
      (∃ plan, ProofPlan.ofNeeds needs = .ok plan ∧
        (Batch.proveAll src plan.batches s.source).1 = .error e) ∨
      ∃ hash v, .read (.hashed hash v) ∈ needs ∧ (v.resolve answers s').1 = .error e := by
  rcases Fallible.bind_error h with h | ⟨plan, t, hplan, h⟩
  · exact Or.inl (congrArg Prod.fst h)
  have hof : ProofPlan.ofNeeds needs = .ok plan := congrArg Prod.fst hplan
  cases congrArg Prod.snd hplan
  right
  rcases Fallible.bind_error h with h | ⟨proven, u, _, h⟩
  · exact Or.inl ⟨plan, hof, congrArg Prod.fst h⟩
  · rcases Fallible.bind_error h with h | ⟨proofs, v, _, h⟩
    · exact Or.inr (ProofKey.proofs_error h)
    · cases h

end Supplied

end ChainRead
