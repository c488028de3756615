import Mathlib.Data.Set.Card
import ChainRead.Proofs.Backing.Supplied
import ChainRead.Source.Fault

/-! # Why proving fails

Needs with more distinct keys than proof indices are refused before anything is asked. Otherwise
each key finds its proof, however the source answers: the account's batch is among the proven ones,
and a batch that was proven holds a proof for each of its slots. What is left to fail is a call for
an account, the number of storage proofs that it was answered with, and a supplied value.
-/

namespace ChainRead

open Need Session

variable {Q σ : Type} {src : Source σ}

namespace Source

theorem call_error_iff {c : Call} {s : σ} {e : EvalError} :
    (src.call c s).1 = .error e ↔
      ∃ cause, (src.answer c s).1 = .error cause ∧ e = .backing cause := by
  rw [call_apply]
  rcases (src.answer c s).1 with cause | answer
  · simp [Except.mapError, eq_comm]
  · simp [Except.mapError]

theorem call_ok_iff {c : Call} {s s' : σ} {a : c.Answer} :
    src.call c s = (.ok a, s') ↔ src.answer c s = (.ok a, s') := by
  rw [call_apply]
  rcases src.answer c s with ⟨cause | answer, t⟩
  · exact ⟨nofun, nofun⟩
  · constructor <;>
    · intro h
      cases h
      rfl

end Source

def Need.distinctKeys (needs : List (Need Q)) : Set ProofKey :=
  {key | ∃ i, keyAt needs i = some key}

theorem ProofKey.ncard_distinctKeys (needs : List (Need Q)) :
    (distinctKeys needs).ncard = (keys needs).eraseDups.length := by
  have h : distinctKeys needs = ((keys needs).eraseDups.toFinset : Set ProofKey) := by
    ext key
    rw [List.coe_toFinset, Set.mem_ofPred_eq, List.mem_eraseDups, List.mem_iff_getElem?]
    show (∃ i, keyAt needs i = some key) ↔ _
    simp only [getElem?_keys]
  rw [h, Set.ncard_coe_finset, List.toFinset_card_of_nodup (nodup_eraseDups _)]

theorem ProofPlan.ofNeeds_cases (needs : List (Need Q)) :
    (256 < (distinctKeys needs).ncard ∧
      ofNeeds needs = .error (.budget (.tooManyProofs 256))) ∨
    ((distinctKeys needs).ncard ≤ 256 ∧ ∃ plan, ofNeeds needs = .ok plan) := by
  rw [ProofKey.ncard_distinctKeys]
  unfold ofNeeds
  by_cases h : Config.maxProofIndex < (ProofKey.keys needs).eraseDups.length
  · exact Or.inl ⟨h, if_pos h⟩
  · exact Or.inr ⟨Nat.le_of_not_lt h, _, if_neg h⟩

namespace Batch

/-- Why a batch is not proven: a call for its account fails, or the account has code and the number
of its storage proofs is not that of its slots. -/
inductive Fails (src : Source σ) (b : Batch) : σ → EvalError → Prop
  | account {s : σ} {cause : BackingError} (hs : b.slots = []) (hr : b.required = true)
    (h : (src.answer (.proofs b.target []) s).1 = .error cause) : Fails src b s (.backing cause)
  | code {s : σ} {cause : BackingError} (hs : b.slots ≠ [])
    (h : (src.answer (.isContract b.target) s).1 = .error cause) : Fails src b s (.backing cause)
  | codeless {s t : σ} {cause : BackingError} (hs : b.slots ≠ [])
    (hc : src.answer (.isContract b.target) s = (.ok false, t))
    (h : (src.answer (.proofs b.target []) t).1 = .error cause) : Fails src b s (.backing cause)
  | slots {s t : σ} {cause : BackingError} (hs : b.slots ≠ [])
    (hc : src.answer (.isContract b.target) s = (.ok true, t))
    (h : (src.answer (.proofs b.target b.slots) t).1 = .error cause) :
    Fails src b s (.backing cause)
  | count {s t : σ} {p : AccountProofs} (hs : b.slots ≠ [])
    (hc : src.answer (.isContract b.target) s = (.ok true, t))
    (h : (src.answer (.proofs b.target b.slots) t).1 = .ok p)
    (hl : p.storage.length ≠ b.slots.length) : Fails src b s (b.countMismatch p.storage.length)

/-- One of several batches fails after those before it were proven. -/
inductive SomeFails (src : Source σ) : List Batch → σ → EvalError → Prop
  | here {b : Batch} {bs : List Batch} {s : σ} {e : EvalError} :
    Fails src b s e → SomeFails src (b :: bs) s e
  | later {b : Batch} {bs : List Batch} {s t : σ} {p : AccountProofs} {e : EvalError} :
    b.prove src s = (.ok p, t) → SomeFails src bs t e → SomeFails src (b :: bs) s e

theorem fails_of_prove {b : Batch} {s s' : σ} {e : EvalError}
    (h : b.prove src s = (.error e, s')) : Fails src b s e := by
  unfold prove at h
  split at h
  · next hs =>
    split at h
    · next hr =>
      obtain ⟨cause, hc, rfl⟩ := Source.call_error_iff.mp (congrArg Prod.fst h)
      exact .account (List.isEmpty_iff.mp hs) hr hc
    · cases h
  · next hs =>
    have hn : b.slots ≠ [] := mt List.isEmpty_iff.mpr hs
    rcases Fallible.bind_error h with h | ⟨isContract, t, hc, h⟩
    · obtain ⟨cause, hc, rfl⟩ := Source.call_error_iff.mp (congrArg Prod.fst h)
      exact .code hn hc
    rw [Source.call_ok_iff] at hc
    cases isContract with
    | true =>
      rcases Fallible.bind_error h with h | ⟨p, u, hp, h⟩
      · obtain ⟨cause, hp, rfl⟩ := Source.call_error_iff.mp (congrArg Prod.fst h)
        exact .slots hn hc hp
      · split at h
        · cases h
        · next hl =>
          cases h
          exact .count hn hc (congrArg Prod.fst (Source.call_ok_iff.mp hp)) hl
    | false =>
      rcases Fallible.bind_error h with h | ⟨p, u, hp, h⟩
      · obtain ⟨cause, hp, rfl⟩ := Source.call_error_iff.mp (congrArg Prod.fst h)
        exact .codeless hn hc hp
      · cases h

theorem Fails.prove_eq {b : Batch} {s : σ} {e : EvalError} (h : Fails src b s e) :
    (b.prove src s).1 = .error e := by
  have error {c : Call} {s : σ} {cause : BackingError} (h : (src.answer c s).1 = .error cause) :
      ∃ t, src.call c s = (.error (.backing cause), t) :=
    ⟨_, Prod.ext (Source.call_error_iff.mpr ⟨cause, h, rfl⟩) rfl⟩
  cases h with
  | account hs hr h =>
    obtain ⟨t, h⟩ := error h
    rw [prove, if_pos (List.isEmpty_iff.mpr hs), if_pos hr, h]
  | code hs h =>
    obtain ⟨t, h⟩ := error h
    rw [prove, if_neg (mt List.isEmpty_iff.mp hs), Fallible.bind_apply, h]
  | codeless hs hc h =>
    obtain ⟨t, h⟩ := error h
    rw [prove, if_neg (mt List.isEmpty_iff.mp hs), Fallible.bind_of_ok (Source.call_ok_iff.mpr hc),
      if_neg Bool.false_ne_true, Fallible.bind_apply, h]
  | slots hs hc h =>
    obtain ⟨t, h⟩ := error h
    rw [prove, if_neg (mt List.isEmpty_iff.mp hs), Fallible.bind_of_ok (Source.call_ok_iff.mpr hc),
      if_pos rfl, Fallible.bind_apply, h]
  | count hs hc h hl =>
    have hp := Source.call_ok_iff.mpr (Prod.ext h rfl)
    rw [prove, if_neg (mt List.isEmpty_iff.mp hs), Fallible.bind_of_ok (Source.call_ok_iff.mpr hc),
      if_pos rfl, Fallible.bind_of_ok hp, if_neg hl]
    rfl

theorem someFails_of_proveAll {bs : List Batch} {s : σ} {e : EvalError}
    (h : (proveAll src bs s).1 = .error e) : SomeFails src bs s e := by
  induction bs generalizing s with
  | nil => cases h
  | cons b bs ih =>
    rcases Fallible.bind_error (Prod.ext h rfl) with h | ⟨p, t, hp, h⟩
    · exact .here (fails_of_prove h)
    · rcases Fallible.bind_error h with h | ⟨rest, u, _, h⟩
      · exact .later hp (ih (congrArg Prod.fst h))
      · cases h

theorem SomeFails.proveAll_eq {bs : List Batch} {s : σ} {e : EvalError} (h : SomeFails src bs s e) :
    (proveAll src bs s).1 = .error e := by
  induction h with
  | @here b bs s e h =>
    have hb : b.prove src s = (.error e, (b.prove src s).2) := Prod.ext h.prove_eq rfl
    rw [proveAll, Fallible.bind_apply, hb]
  | @later b bs s t p e hp _ ih =>
    have hbs : proveAll src bs t = (.error e, (proveAll src bs t).2) := Prod.ext ih rfl
    rw [proveAll, Fallible.bind_of_ok hp, Fallible.bind_apply, hbs]

theorem length_storage {b : Batch} {s s' : σ} {p : AccountProofs}
    (h : b.prove src s = (.ok p, s')) (hs : b.slots ≠ []) :
    p.storage.length = b.slots.length := by
  rw [prove, if_neg (mt List.isEmpty_iff.mp hs)] at h
  obtain ⟨isContract, t, _, h⟩ := Fallible.bind_ok h
  cases isContract with
  | true =>
    obtain ⟨q, u, _, h⟩ := Fallible.bind_ok h
    split at h
    · next hl =>
      cases h
      exact hl
    · cases h
  | false =>
    obtain ⟨q, u, _, h⟩ := Fallible.bind_ok h
    cases h
    exact List.length_map _

theorem proveAll_ok {bs : List Batch} {s s' : σ} {proven : List (Batch × AccountProofs)}
    (h : proveAll src bs s = (.ok proven, s')) :
    proven.map Prod.fst = bs ∧
      ∀ b p, (b, p) ∈ proven → b.slots ≠ [] → p.storage.length = b.slots.length := by
  induction bs generalizing s s' proven with
  | nil =>
    cases h
    exact ⟨rfl, fun _ _ h => nomatch h⟩
  | cons b bs ih =>
    obtain ⟨p, t, hp, h⟩ := Fallible.bind_ok h
    obtain ⟨rest, u, hr, h⟩ := Fallible.bind_ok h
    cases h
    obtain ⟨hm, hl⟩ := ih hr
    refine ⟨congrArg (b :: ·) hm, fun b' p' hm' => ?_⟩
    rcases List.mem_cons.mp hm' with heq | hm'
    · cases heq
      exact length_storage hp
    · exact hl b' p' hm'

theorem proofsOf_of_mem {a : Address} {proven : List (Batch × AccountProofs)} {b : Batch}
    (hn : (proven.map fun p => p.1.target).Nodup) (hb : b ∈ proven.map Prod.fst)
    (ha : b.target = a) :
    ∃ p, (b, p) ∈ proven ∧ proofsOf a proven = some (b, p) := by
  induction proven with
  | nil => cases hb
  | cons q proven ih =>
    rw [List.map_cons, List.nodup_cons] at hn
    unfold proofsOf
    rcases List.mem_cons.mp hb with rfl | hm
    · exact ⟨q.2, List.mem_cons_self, List.find?_cons_of_pos (by simpa using ha)⟩
    · have hne : q.1.target ≠ a := by
        rintro rfl
        obtain ⟨q', hq', rfl⟩ := List.mem_map.mp hm
        exact hn.1 (List.mem_map.mpr ⟨q', hq', ha⟩)
      obtain ⟨p, hp, hf⟩ := ih hn.2 hm
      exact ⟨p, List.mem_cons_of_mem _ hp, by
        rw [List.find?_cons_of_neg (by simpa using hne)]; exact hf⟩

end Batch

/-- A key's proof is where it is looked up: an account's among the proven batches, a slot's at its
place among the storage proofs of its account, and supplied bytes in the need at their position. -/
inductive ProofKey.Found (needs : List (Need Q)) (proven : List (Batch × AccountProofs)) :
    ProofKey → Prop
  | noTarget : Found needs proven .noTarget
  | account {a : Address} {b : Batch} {p : AccountProofs} :
    Batch.proofsOf a proven = some (b, p) → Found needs proven (.account a)
  | slot {a : Address} {s : Word} {b : Batch} {p : AccountProofs} :
    Batch.proofsOf a proven = some (b, p) → s ∈ b.slots → b.slots.idxOf s < p.storage.length →
    Found needs proven (.slot a s)
  | supplied {i : Nat} {hash : Word} {v : Value Q} :
    needs[i]? = some (.read (.hashed hash v)) → Found needs proven (.supplied i)

namespace ProofKey

theorem supplied_mem_keys {needs : List (Need Q)} {i : Nat} (h : supplied i ∈ keys needs) :
    ∃ hash v, needs[i]? = some (.read (.hashed hash v)) := by
  obtain ⟨j, hj⟩ := List.mem_iff_getElem?.mp h
  rw [getElem?_keys] at hj
  unfold keyAt at hj
  rcases hn : needs[j]? with _ | need <;> rw [hn] at hj
  · cases hj
  · cases need with
    | target => cases hj
    | read r =>
      cases r with
      | hashed hash v =>
        cases hj
        exact ⟨hash, v, hn⟩
      | storage slot =>
        rcases hs : selected (needs.take j) with _ | a <;> rw [hs] at hj <;> cases hj

/-- Once the batches of a plan are proven, every key of the plan finds its proof. -/
theorem found_of_proveAll {needs : List (Need Q)} {plan : ProofPlan}
    (hplan : ProofPlan.ofNeeds needs = .ok plan) {s s' : σ}
    {proven : List (Batch × AccountProofs)}
    (h : Batch.proveAll src plan.batches s = (.ok proven, s')) {key : ProofKey}
    (hk : key ∈ plan.keys) : Found needs proven key := by
  obtain ⟨-, rfl⟩ := ProofPlan.ofNeeds_ok hplan
  obtain ⟨hm, hl⟩ := Batch.proveAll_ok h
  have hk : key ∈ keys needs := List.mem_eraseDups.mp hk
  have hn : (proven.map fun p => p.1.target).Nodup := by
    rw [show (proven.map fun p => p.1.target) = (proven.map Prod.fst).map Batch.target by simp, hm]
    exact ProofPlan.nodup_targets needs (nodup_eraseDups _)
  have lookup {a : Address} (ha : account a ∈ keys needs) :
      ∃ p, (ProofPlan.batch needs a, p) ∈ proven ∧
        Batch.proofsOf a proven = some (ProofPlan.batch needs a, p) :=
    Batch.proofsOf_of_mem hn (hm ▸ ProofPlan.batch_mem.mpr ha) rfl
  cases key with
  | noTarget => exact .noTarget
  | account a =>
    obtain ⟨p, -, hp⟩ := lookup hk
    exact .account hp
  | slot a slot =>
    obtain ⟨p, hmem, hp⟩ := lookup (account_of_slot hk)
    have hs : slot ∈ (ProofPlan.batch needs a).slots :=
      ProofPlan.mem_batch_slots.mpr (slot_mem_keys.mp hk)
    refine .slot hp hs ?_
    rw [hl _ _ hmem (List.ne_nil_of_mem hs)]
    exact List.idxOf_lt_length_of_mem hs
  | supplied i =>
    obtain ⟨hash, v, hi⟩ := supplied_mem_keys hk
    exact .supplied hi

end ProofKey

variable {answers : Answers Q σ} {needs : List (Need Q)} {s s' : Session σ} {e : EvalError}

theorem prove_of_ofNeeds_error (h : ProofPlan.ofNeeds needs = .error e) :
    prove src answers needs s = (.error e, s) := by
  rw [prove, h]
  rfl

theorem prove_of_someFails {plan : ProofPlan} (hplan : ProofPlan.ofNeeds needs = .ok plan)
    (h : Batch.SomeFails src plan.batches s.source e) :
    (prove src answers needs s).1 = .error e := by
  have hall := h.proveAll_eq
  rcases hr : Batch.proveAll src plan.batches s.source with ⟨r, source⟩
  rw [hr] at hall
  cases hall
  rw [prove, hplan, Fallible.bind_apply]
  show ((Fallible.zoom _ _ _ >>= _) s).1 = _
  rw [Fallible.bind_apply, Fallible.zoom_apply, hr]

/-- Why proving needs fails once they are planned: a batch of the plan does, or a supplied value
does in the session that remains. -/
inductive ProofPlan.Fails (src : Source σ) (answers : Answers Q σ) (needs : List (Need Q))
    (plan : ProofPlan) (s s' : Session σ) (e : EvalError) : Prop
  | batch : Batch.SomeFails src plan.batches s.source e → Fails src answers needs plan s s' e
  | value {hash : Word} {v : Value Q} : .read (.hashed hash v) ∈ needs →
    (v.resolve answers s').1 = .error e → Fails src answers needs plan s s' e

/-- Needs with more than 256 distinct keys are refused, and no call is made for them. For any other
needs, whatever the source answers, every key finds its proof once the batches are proven, and
proving fails exactly if a batch or a supplied value does. -/
theorem prove_fails_for_cause (src : Source σ) (answers : Answers Q σ) (needs : List (Need Q))
    (s : Session σ) :
    ((∃ e, ProofPlan.ofNeeds needs = .error e) ↔ 256 < (distinctKeys needs).ncard) ∧
    (256 < (distinctKeys needs).ncard →
      prove src answers needs s = (.error (.budget (.tooManyProofs 256)), s) ∧
      ∀ (answers : Answers Q (σ × List Call)) (log : List Call),
        prove src.logged answers needs (s.logging log) =
          (.error (.budget (.tooManyProofs 256)), s.logging log)) ∧
    ∀ plan, ProofPlan.ofNeeds needs = .ok plan →
      (∀ proven source, Batch.proveAll src plan.batches s.source = (.ok proven, source) →
        proven.map Prod.fst = plan.batches ∧
        ∀ key ∈ plan.keys, ProofKey.Found needs proven key) ∧
      ∀ r s', prove src answers needs s = (r, s') →
        (∀ e, r = .error e → plan.Fails src answers needs s s' e) ∧
        ((∃ e, plan.Fails src answers needs s s' e) → ∃ e, r = .error e) := by
  have refused : ProofPlan.ofNeeds needs = .error (.budget (.tooManyProofs 256)) ↔
      256 < (distinctKeys needs).ncard := by
    rcases ProofPlan.ofNeeds_cases needs with ⟨h, hof⟩ | ⟨h, plan, hof⟩
    · exact ⟨fun _ => h, fun _ => hof⟩
    · rw [hof]
      exact ⟨nofun, fun hk => absurd hk (Nat.not_lt.mpr h)⟩
  refine ⟨⟨?_, fun h => ⟨_, refused.mpr h⟩⟩, fun h => ?_, fun plan hplan => ⟨?_, ?_⟩⟩
  · rintro ⟨e, he⟩
    rcases ProofPlan.ofNeeds_cases needs with ⟨h, -⟩ | ⟨-, plan, hof⟩
    · exact h
    · rw [hof] at he
      cases he
  · have hof := refused.mpr h
    exact ⟨prove_of_ofNeeds_error hof, fun answers log => prove_of_ofNeeds_error hof⟩
  · intro proven source h
    exact ⟨(Batch.proveAll_ok h).1, fun key hk => ProofKey.found_of_proveAll hplan h hk⟩
  · intro r s' h
    constructor
    · rintro e rfl
      rcases prove_error h with he | ⟨plan', hplan', hall⟩ | ⟨hash, v, hn, hv⟩
      · rw [hplan] at he
        cases he
      · cases hplan.symm.trans hplan'
        exact .batch (Batch.someFails_of_proveAll hall)
      · exact .value hn hv
    · rintro ⟨e, hb | ⟨hn, hv⟩⟩
      · exact ⟨e, (congrArg Prod.fst h).symm.trans (prove_of_someFails hplan hb)⟩
      · rcases r with e' | seq
        · exact ⟨e', rfl⟩
        · -- the value would have resolved if proving had succeeded
          obtain ⟨i, hi⟩ := List.mem_iff_getElem?.mp hn
          obtain ⟨_, proof, _, _, hok⟩ := prove_supplied h hi
          rw [hv] at hok
          cases hok

theorem ncard_distinctKeys_hashed (n : Nat) (hash : Word) (v : Value Q) :
    (distinctKeys (List.replicate n (.read (.hashed hash v)))).ncard = n := by
  have h : distinctKeys (List.replicate n (.read (.hashed hash v))) =
      ProofKey.supplied '' (Finset.range n : Set Nat) := by
    ext key
    constructor
    · rintro ⟨i, hi⟩
      unfold keyAt at hi
      rw [List.getElem?_replicate] at hi
      by_cases hn : i < n
      · rw [if_pos hn] at hi
        cases hi
        exact ⟨i, Finset.mem_coe.mpr (Finset.mem_range.mpr hn), rfl⟩
      · rw [if_neg hn] at hi
        cases hi
    · rintro ⟨i, hi, rfl⟩
      refine ⟨i, ?_⟩
      unfold keyAt
      rw [List.getElem?_replicate, if_pos (Finset.mem_range.mp (Finset.mem_coe.mp hi))]
  rw [h, Set.ncard_image_of_injective _ fun _ _ => ProofKey.supplied.inj, Set.ncard_coe_finset,
    Finset.card_range]

/-- One storage proof too many, and one need too many. -/
theorem prove_fails_for_cause_count :
    let src := (Chain.withStorage {} 1 5 7).source.withFaults
    let s : Session _ := { source := (0, [(.proofs 1 (.ok 2), none)]) }
    let needs : List (Need Question) := [.target 1 true, .read (.storage 5)]
    let many : List (Need Question) := List.replicate 257 (.read (.hashed 0 (.known [])))
    (∃ plan e s', ProofPlan.ofNeeds needs = .ok plan ∧
      prove src src.answers needs s = (.error e, s') ∧
      e.message = "backing error: expected 1 storage proofs for " ++
        "0x0000000000000000000000000000000000000001, got 2" ∧
      plan.Fails src src.answers needs s s' e) ∧
    256 < (distinctKeys many).ncard ∧
    prove src src.answers many s = (.error (.budget (.tooManyProofs 256)), s) := by
  intro src s needs many
  have hm : 256 < (distinctKeys many).ncard := by
    rw [ncard_distinctKeys_hashed]
    decide
  refine ⟨?_, hm, ((prove_fails_for_cause src src.answers many s).2.1 hm).1⟩
  rcases hp : ProofPlan.ofNeeds needs with e | plan
  · cases hp
  obtain ⟨e, he, hmsg⟩ : ∃ e, (prove src src.answers needs s).1 = .error e ∧
      e.message = "backing error: expected 1 storage proofs for " ++
        "0x0000000000000000000000000000000000000001, got 2" := ⟨_, rfl, by decide +kernel⟩
  have h : prove src src.answers needs s = (.error e, (prove src src.answers needs s).2) :=
    Prod.ext he rfl
  have hcause := ((prove_fails_for_cause src src.answers needs s).2.2 plan hp).2 _ _ h
  exact ⟨plan, e, _, rfl, h, hmsg, hcause.1 e rfl⟩

end ChainRead
