import ChainRead.Proofs.Backing.Requests
import ChainRead.Proofs.Source.Logging
import ChainRead.Source.Chain

/-! # The proof of each need

A need's index leads to its key, and the key's proof is the answer to the one request for an
account, at the place that a slot has in that request, or what a value resolves to. Values that
have been resolved resolve to the same afterwards, so the session that remains tells.
-/

namespace ChainRead

open Need Session

variable {Q σ : Type} {f : (c : Call) → Except BackingError c.Answer} {src : Source σ}

namespace Need

def Wants (needs : List (Need Q)) (a : Address) : Prop :=
  (∃ s, ReadsSlot needs a s) ∨ .target a true ∈ needs

/-- The slots to request proofs of are those that are read, each once, if the account has code. -/
structure Requested (f : (c : Call) → Except BackingError c.Answer) (needs : List (Need Q))
    (a : Address) (slots : List Word) : Prop where
  nodup : slots.Nodup
  mem (s : Word) : s ∈ slots ↔ ReadsSlot needs a s ∧ f (.isContract a) = .ok true

/-- The proof of a need at a position, if calls are answered by `f`, accounts are proven with the
slots of `request` and values resolve by `resolved`. -/
inductive Backed (f : (c : Call) → Except BackingError c.Answer) (needs : List (Need Q))
    (request : Address → List Word) (resolved : Value Q → Outcome) (i : Nat) :
    Need Q → Bytes → Prop
  | unwanted {a : Address} {r : Bool} : ¬Wants needs a →
    Backed f needs request resolved i (.target a r) []
  | account {a : Address} {r : Bool} {p : AccountProofs} : Wants needs a →
    f (.proofs a (request a)) = .ok p →
    Backed f needs request resolved i (.target a r) p.account
  | noTarget {s : Word} : selected (needs.take i) = none →
    Backed f needs request resolved i (.read (.storage s)) []
  | codeless {a : Address} {s : Word} : selected (needs.take i) = some a →
    f (.isContract a) = .ok false →
    Backed f needs request resolved i (.read (.storage s)) []
  | slot {a : Address} {s : Word} {p : AccountProofs} {proof : Bytes} :
    selected (needs.take i) = some a → f (.isContract a) = .ok true →
    f (.proofs a (request a)) = .ok p → p.storage[(request a).idxOf s]? = some proof →
    Backed f needs request resolved i (.read (.storage s)) proof
  | supplied {hash : Word} {v : Value Q} {proof : Bytes} : resolved v = .ok proof →
    Backed f needs request resolved i (.read (.hashed hash v)) proof

end Need

namespace ProofPlan

def batch (needs : List (Need Q)) (a : Address) : Batch :=
  ⟨a, isRequired needs a, slotsOf a (ProofKey.keys needs).eraseDups⟩

variable {needs : List (Need Q)} {a : Address}

theorem mem_batch_slots {s : Word} : s ∈ (batch needs a).slots ↔ ReadsSlot needs a s := by
  show s ∈ slotsOf a _ ↔ _
  rw [mem_slotsOf, List.mem_eraseDups, ProofKey.slot_mem_keys]

theorem batch_wanted : (batch needs a).Wanted ↔ Wants needs a := by
  apply or_congr _ isRequired_iff
  constructor
  · intro h
    obtain ⟨s, hs⟩ := List.exists_mem_of_ne_nil _ h
    exact ⟨s, mem_batch_slots.mp hs⟩
  · rintro ⟨s, hs⟩
    exact List.ne_nil_of_mem (mem_batch_slots.mpr hs)

theorem batch_mem :
    batch needs a ∈ batchesOf needs (ProofKey.keys needs).eraseDups ↔
      .account a ∈ ProofKey.keys needs := by
  rw [mem_batchesOf]
  constructor
  · rintro ⟨b, hb, h⟩
    cases congrArg Batch.target h
    exact List.mem_eraseDups.mp hb
  · intro h
    exact ⟨a, List.mem_eraseDups.mpr h, rfl⟩

theorem requested_batch (f : (c : Call) → Except BackingError c.Answer) (needs : List (Need Q))
    (a : Address) : Requested f needs a ((batch needs a).request f) := by
  unfold Batch.request
  split
  · next hc =>
    constructor
    · exact nodup_slotsOf (ProofKey.nodup_eraseDups _) a
    · intro s
      rw [mem_batch_slots]
      exact (and_iff_left hc).symm
  · next hc =>
    constructor
    · exact List.nodup_nil
    · intro s
      constructor
      · intro h
        cases h
      · intro h
        exact (hc h.2).elim

end ProofPlan

namespace ProofKey

variable {answers : Answers Q σ} {needs : List (Need Q)} {proven : List (Batch × AccountProofs)}

theorem proof_settles (key : ProofKey) (s : Session σ) :
    Settles s (key.proof answers needs proven s).2 := by
  rcases key.proof_cases answers needs proven with ⟨hash, v, _, h⟩ | ⟨proof, h⟩ <;> rw [h]
  · exact kept_settles.resolve v s
  · exact fun _ _ h => h

theorem proof_again {key : ProofKey} {s t : Session σ}
    (h : Settles (key.proof answers needs proven s).2 t) :
    (key.proof answers needs proven t).1 = (key.proof answers needs proven s).1 := by
  rcases key.proof_cases answers needs proven with ⟨hash, v, _, he⟩ | ⟨proof, he⟩
  · rw [he] at h ⊢
    exact Value.resolve_again h
  · rw [he]
    rfl

theorem proofs_ok {keys : List ProofKey} {proofs : List Bytes} {s s' : Session σ}
    (h : ProofKey.proofs answers needs proven keys s = (.ok proofs, s')) :
    Settles s s' ∧ proofs.length = keys.length ∧ ∀ (n : Nat) (key : ProofKey),
      keys[n]? = some key → ∃ proof, proofs[n]? = some proof ∧
        (key.proof answers needs proven s').1 = .ok proof := by
  induction keys generalizing s proofs with
  | nil =>
    cases h
    exact ⟨fun _ _ h => h, rfl, fun n key hk => by cases hk⟩
  | cons key keys ih =>
    obtain ⟨proof, t, hp, h⟩ := Fallible.bind_ok h
    obtain ⟨rest, u, hr, h⟩ := Fallible.bind_ok h
    cases h
    obtain ⟨hs, hl, hrest⟩ := ih hr
    have hsp : Settles s (key.proof answers needs proven s).2 := proof_settles key s
    rw [hp] at hsp
    refine ⟨fun id o ho => hs id o (hsp id o ho), congrArg Nat.succ hl, fun n k hk => ?_⟩
    cases n with
    | zero =>
      cases hk
      refine ⟨proof, rfl, ?_⟩
      rw [proof_again (s := s) (by rw [hp]; exact hs), hp]
    | succ n => exact hrest n k hk

end ProofKey

namespace Batch.ProvenAll

variable {answers : Answers Q σ} {needs : List (Need Q)} {calls : List Call}
  {proven : List (Batch × AccountProofs)}

theorem exists_of_account
    (h : ProvenAll f (ProofPlan.batchesOf needs (ProofKey.keys needs).eraseDups) calls proven)
    {a : Address} (ha : .account a ∈ ProofKey.keys needs) :
    ∃ own p, ProvenBy f (ProofPlan.batch needs a) own p ∧
      proofsOf a proven = some (ProofPlan.batch needs a, p) ∧
      calls.filter (Call.requests a) = own.filter (Call.requests a) :=
  h.exists_of_mem (ProofPlan.nodup_targets needs (ProofKey.nodup_eraseDups _))
    (ProofPlan.batch_mem.mpr ha)

/-- An account takes one request if its proofs are wanted, and none otherwise. -/
theorem requests_account
    (h : ProvenAll f (ProofPlan.batchesOf needs (ProofKey.keys needs).eraseDups) calls proven)
    (a : Address) :
    (Wants needs a →
      calls.filter (Call.requests a) = [.proofs a ((ProofPlan.batch needs a).request f)]) ∧
    (¬Wants needs a → calls.filter (Call.requests a) = []) := by
  by_cases ha : .account a ∈ ProofKey.keys needs
  · obtain ⟨own, p, hp, _, hc⟩ := h.exists_of_account ha
    rw [hc]
    constructor
    · intro hw
      exact hp.requests (ProofPlan.batch_wanted.mpr hw)
    · intro hw
      rw [(hp.of_not_wanted (mt ProofPlan.batch_wanted.mp hw)).1]
      rfl
  · have hn : a ∉ (ProofPlan.batchesOf needs (ProofKey.keys needs).eraseDups).map target := by
      intro hm
      obtain ⟨b, hb, rfl⟩ := List.mem_map.mp hm
      obtain ⟨a, hka, rfl⟩ := ProofPlan.mem_batchesOf.mp hb
      exact ha (List.mem_eraseDups.mp hka)
    constructor
    · rintro (⟨s, hs⟩ | hr)
      · exact (ha (ProofKey.account_of_slot (ProofKey.slot_mem_keys.mpr hs))).elim
      · exact (ha (ProofKey.account_mem_keys.mpr ⟨true, hr⟩)).elim
    · intro _
      exact h.requests_of_notMem hn

theorem backed_target {resolved : Value Q → Outcome}
    (h : ProvenAll f (ProofPlan.batchesOf needs (ProofKey.keys needs).eraseDups) calls proven)
    {i : Nat} {a : Address} {r : Bool} (hn : needs[i]? = some (.target a r)) :
    Backed f needs (fun a => (ProofPlan.batch needs a).request f) resolved i (.target a r)
      (((proofsOf a proven).map fun p => p.2.account).getD []) := by
  have ha := ProofKey.account_mem_keys.mpr ⟨r, List.mem_of_getElem? hn⟩
  obtain ⟨own, p, hb, hof, _⟩ := h.exists_of_account ha
  rw [hof, Option.map_some, Option.getD_some]
  by_cases hw : Wants needs a
  · obtain ⟨answer, hfa, he⟩ := hb.account_eq (ProofPlan.batch_wanted.mpr hw)
    rw [he]
    exact .account hw hfa
  · rw [(hb.of_not_wanted (mt ProofPlan.batch_wanted.mp hw)).2]
    exact .unwanted hw

theorem backed_slot {resolved : Value Q → Outcome}
    (h : ProvenAll f (ProofPlan.batchesOf needs (ProofKey.keys needs).eraseDups) calls proven)
    {i : Nat} {a : Address} {s : Word} (hn : needs[i]? = some (.read (.storage s)))
    (hs : selected (needs.take i) = some a) :
    Backed f needs (fun a => (ProofPlan.batch needs a).request f) resolved i (.read (.storage s))
      (((proofsOf a proven).bind fun p => p.2.storage[p.1.slots.idxOf s]?).getD []) := by
  have hr : ReadsSlot needs a s := ⟨i, hn, hs⟩
  have ha := ProofKey.account_of_slot (ProofKey.slot_mem_keys.mpr hr)
  obtain ⟨own, p, hb, hof, _⟩ := h.exists_of_account ha
  rw [hof, Option.bind_some]
  rcases hb.storage_eq (ProofPlan.mem_batch_slots.mpr hr) with
    ⟨hc, hx⟩ | ⟨hc, hreq, hfa, proof, hx⟩
  · rw [hx]
    exact .codeless hs hc
  · rw [hx]
    rw [← hreq] at hfa hx
    exact .slot hs hc hfa hx

theorem backed
    (h : ProvenAll f (ProofPlan.batchesOf needs (ProofKey.keys needs).eraseDups) calls proven)
    {i : Nat} {need : Need Q} {key : ProofKey} {proof : Bytes} {s : Session σ}
    (hn : needs[i]? = some need) (hk : keyAt needs i = some key)
    (hp : (key.proof answers needs proven s).1 = .ok proof) :
    Backed f needs (fun a => (ProofPlan.batch needs a).request f)
      (fun v => (v.resolve answers s).1) i need proof := by
  unfold keyAt at hk
  rw [hn] at hk
  cases need with
  | target a r =>
    cases hk
    cases hp
    exact h.backed_target hn
  | read r =>
    cases r with
    | storage slot =>
      rcases hs : selected (needs.take i) with _ | a <;> rw [hs] at hk <;> cases hk
      · cases hp
        exact .noTarget hs
      · cases hp
        exact h.backed_slot hn hs
    | hashed hash v =>
      cases hk
      simp only [ProofKey.proof, hn] at hp
      exact .supplied hp

end Batch.ProvenAll

theorem ProofKey.onlyAsks (src : Source σ) (needs : List (Need Question))
    (proven : List (Batch × AccountProofs)) (keys : List ProofKey) :
    OnlyAsks (proofs src.answers needs proven keys)
      (proofs src.logged.answers needs proven keys) := by
  induction keys with
  | nil => exact .pure []
  | cons key keys ih =>
    apply OnlyAsks.bind
    · cases key with
      | supplied position =>
        simp only [ProofKey.proof]
        split
        · exact .resolve src _
        · exact .pure []
      | _ => exact .pure _
    · intro proof
      exact .bind ih fun _ => .pure _

theorem prove_ok_iff {answers : Answers Q σ} {needs : List (Need Q)} {s s' : Session σ}
    {seq : ProofSequence} :
    prove src answers needs s = (.ok seq, s') ↔ ∃ plan proven source,
      ProofPlan.ofNeeds needs = .ok plan ∧
      Batch.proveAll src plan.batches s.source = (.ok proven, source) ∧
      ProofKey.proofs answers needs proven plan.keys { s with source } = (.ok seq.proofs, s') ∧
      seq.order = plan.order := by
  constructor
  · intro h
    obtain ⟨plan, t, hplan, h⟩ := Fallible.bind_ok h
    obtain ⟨proven, u, hproven, h⟩ := Fallible.bind_ok h
    obtain ⟨proofs, v, hproofs, h⟩ := Fallible.bind_ok h
    cases h
    have hof : ProofPlan.ofNeeds needs = .ok plan := congrArg Prod.fst hplan
    cases congrArg Prod.snd hplan
    rw [Fallible.zoom_apply] at hproven
    rcases hb : Batch.proveAll src plan.batches s.source with ⟨r, source⟩
    rw [hb] at hproven
    cases hproven
    exact ⟨plan, proven, source, hof, hb, hproofs, rfl⟩
  · rintro ⟨plan, proven, source, hof, hb, hproofs, ho⟩
    simp only [prove, Fallible.bind_apply, Fallible.ofExcept, Fallible.zoom_apply, hof, hb, hproofs]
    rw [← ho]
    rfl

/-- A need's index leads to its proof, and needs have the same index if they have the same key. -/
structure ProofSequence.Backs (f : (c : Call) → Except BackingError c.Answer)
    (needs : List (Need Q)) (request : Address → List Word) (resolved : Value Q → Outcome)
    (seq : ProofSequence) : Prop where
  length : seq.order.length = needs.length
  inOrder : InOrder seq.order seq.proofs.length
  same (i j : Nat) : seq.order[i]? = seq.order[j]? ↔ keyAt needs i = keyAt needs j
  backed {i : Nat} {need : Need Q} : needs[i]? = some need →
    ∃ n proof, seq.order[i]? = some n ∧ seq.proofs[n.toNat]? = some proof ∧
      Backed f needs request resolved i need proof

theorem ProofKey.proof_at {answers : Answers Q σ} {needs : List (Need Q)}
    {proven : List (Batch × AccountProofs)} {proofs : List Bytes} {s : Session σ}
    (hl : (keys needs).eraseDups.length ≤ 256)
    (hk : ∀ (n : Nat) (key : ProofKey), (keys needs).eraseDups[n]? = some key →
      ∃ proof, proofs[n]? = some proof ∧ (key.proof answers needs proven s).1 = .ok proof)
    {i : Nat} {key : ProofKey} (hi : keyAt needs i = some key) :
    ∃ n proof, ((keys needs).map (number (keys needs)))[i]? = some n ∧
      proofs[n.toNat]? = some proof ∧ (key.proof answers needs proven s).1 = .ok proof := by
  rw [← getElem?_keys] at hi
  obtain ⟨proof, hx, hproof⟩ := hk _ key (getElem?_number hl (List.mem_of_getElem? hi))
  refine ⟨number (keys needs) key, proof, ?_, hx, hproof⟩
  rw [List.getElem?_map, hi]
  rfl

theorem ProofSequence.backs_of_proofs {answers : Answers Q σ} {needs : List (Need Q)}
    {calls : List Call} {proven : List (Batch × AccountProofs)} {proofs : List Bytes}
    {s : Session σ} (hl : (ProofKey.keys needs).eraseDups.length ≤ 256)
    (h : Batch.ProvenAll f (ProofPlan.batchesOf needs (ProofKey.keys needs).eraseDups) calls proven)
    (hp : proofs.length = (ProofKey.keys needs).eraseDups.length)
    (hk : ∀ (n : Nat) (key : ProofKey), (ProofKey.keys needs).eraseDups[n]? = some key →
      ∃ proof, proofs[n]? = some proof ∧ (key.proof answers needs proven s).1 = .ok proof) :
    Backs f needs (fun a => (ProofPlan.batch needs a).request f)
      (fun v => (v.resolve answers s).1)
      ⟨proofs, (ProofKey.keys needs).map (ProofKey.number (ProofKey.keys needs))⟩ where
  length := by rw [List.length_map, ProofKey.length_keys]
  inOrder := hp ▸ ProofKey.numbers_inOrder hl
  same i j := by
    rw [List.getElem?_map, List.getElem?_map, ← ProofKey.getElem?_keys, ← ProofKey.getElem?_keys]
    rcases hi : (ProofKey.keys needs)[i]? with _ | k <;>
      rcases hj : (ProofKey.keys needs)[j]? with _ | k'
    · simp
    · simp
    · simp
    · simp only [Option.map_some, Option.some.injEq]
      exact ProofKey.number_inj hl (List.mem_of_getElem? hi) (List.mem_of_getElem? hj)
  backed {i need} hn := by
    obtain ⟨key, hi⟩ := ProofKey.exists_keyAt hn
    obtain ⟨n, proof, ho, hx, hproof⟩ := ProofKey.proof_at hl hk hi
    exact ⟨n, proof, ho, hx, h.backed hn hi hproof⟩

/-- If proving needs succeeds, each need leads to its proof: an account's from the one request for
the account, a slot's from its place in that request, and what a value resolves to. -/
theorem prove_backs (hf : src.AnswersBy f) {needs : List (Need Question)} {s s' : Session σ}
    {seq : ProofSequence} (h : prove src src.answers needs s = (.ok seq, s')) :
    ∃ (request : Address → List Word) (calls : List Call),
      (∀ a, Requested f needs a (request a)) ∧
      (∀ log, prove src.logged src.logged.answers needs (s.logging log) =
        (.ok seq, s'.logging (calls ++ log))) ∧
      (∀ a, (Wants needs a → calls.filter (Call.requests a) = [.proofs a (request a)]) ∧
        (¬Wants needs a → calls.filter (Call.requests a) = [])) ∧
      seq.Backs f needs request fun v => (v.resolve src.answers s').1 := by
  obtain ⟨plan, proven, source, hplan, hb, hproofs, horder⟩ := prove_ok_iff.mp h
  obtain ⟨asked, hall, hlog⟩ := Batch.provenAll_of_proveAll hf hb
  obtain ⟨resolving, hq, hlog'⟩ := ProofKey.onlyAsks src needs proven plan.keys { s with source }
  rw [hproofs] at hlog'
  have hrun (log : List Call) : prove src.logged src.logged.answers needs (s.logging log) =
      (.ok seq, s'.logging (resolving ++ asked ++ log)) := by
    refine prove_ok_iff.mpr ⟨plan, proven, (source, asked ++ log), hplan, hlog log, ?_, horder⟩
    rw [List.append_assoc]
    exact hlog' (asked ++ log)
  have hr (a : Address) : resolving.filter (Call.requests a) = [] := by
    rw [List.filter_eq_nil_iff]
    intro c hc
    obtain ⟨q, rfl⟩ := hq c hc
    exact Bool.eq_false_iff.mp (q.not_requests a)
  obtain ⟨_, hlen, hkeys⟩ := ProofKey.proofs_ok hproofs
  obtain ⟨hl, rfl⟩ := ProofPlan.ofNeeds_ok hplan
  refine ⟨fun a => (ProofPlan.batch needs a).request f, resolving ++ asked,
    ProofPlan.requested_batch f needs, hrun, fun a => ?_, ?_⟩
  · rw [List.filter_append, hr, List.nil_append]
    exact hall.requests_account a
  · obtain ⟨proofs, order⟩ := seq
    cases horder
    exact ProofSequence.backs_of_proofs hl hall hlen hkeys

/-- Slots read twice, a target that is not wanted and supplied bytes. -/
theorem prove_backs_chain :
    let chain : Chain := Chain.withStorage {} 1 5 7
    let needs : List (Need Question) := [.target 1 true, .read (.storage 5), .read (.storage 5),
      .target 2 false, .read (.hashed 0 (.known [9]))]
    ∃ seq s', prove chain.source chain.source.answers needs { source := 0 } = (.ok seq, s') ∧
      seq.order = [0, 1, 1, 2, 3] ∧
      ∃ request, (∀ a, Requested chain.answer needs a (request a)) ∧
        seq.Backs chain.answer needs request fun v =>
          (v.resolve chain.source.answers s').1 := by
  intro chain needs
  obtain ⟨seq, s', h, ho⟩ := Fallible.exists_ok
    (x := prove chain.source chain.source.answers needs) (s := { source := 0 })
    (p := fun seq => seq.order = [0, 1, 1, 2, 3]) (by decide +kernel)
  obtain ⟨request, _, hr, _, _, hb⟩ := prove_backs (f := chain.answer) (fun _ _ => rfl) h
  exact ⟨seq, s', h, ho, request, hr, hb⟩

end ChainRead
