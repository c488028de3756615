import Mathlib.Data.List.Nodup
import ChainRead.Proofs.Backing.Numbering
import ChainRead.Proofs.Source.Answers

/-! # One request for each account

A batch is proven with at most one request, and the batches of a plan have different targets. With
a source that answers by its arguments, the proofs of an account are the answer to its request.
-/

namespace ChainRead

open Need

variable {Q σ : Type} {f : (c : Call) → Except BackingError c.Answer} {src : Source σ}

namespace Source

theorem call_ok (hf : src.AnswersBy f) {c : Call} {s s' : σ} {a : c.Answer}
    (h : src.call c s = (.ok a, s')) : f c = .ok a := by
  rw [call_apply, hf c s] at h
  rcases hc : f c with cause | answer <;> rw [hc] at h <;> cases h
  rfl

theorem call_logged (src : Source σ) (c : Call) (s : σ) (log : List Call) :
    src.logged.call c (s, log) = ((src.call c s).1, ((src.call c s).2, c :: log)) := rfl

end Source

def Call.requests (a : Address) : Call → Bool
  | .proofs b _ => b == a
  | _ => false

theorem Question.not_requests (q : Question) (a : Address) : q.call.requests a = false := by
  cases q <;> rfl

namespace Batch

/-- What a batch is proven with, after which calls, latest first, if calls are answered by `f`. -/
inductive ProvenBy (f : (c : Call) → Except BackingError c.Answer) (b : Batch) :
    List Call → AccountProofs → Prop
  | nothing (hs : b.slots = []) (hr : b.required = false) : ProvenBy f b [] {}
  | account {p : AccountProofs} (hs : b.slots = []) (hr : b.required = true)
    (h : f (.proofs b.target []) = .ok p) : ProvenBy f b [.proofs b.target []] p
  | contract {p : AccountProofs} (hs : b.slots ≠ []) (hc : f (.isContract b.target) = .ok true)
    (h : f (.proofs b.target b.slots) = .ok p) (hl : p.storage.length = b.slots.length) :
    ProvenBy f b [.proofs b.target b.slots, .isContract b.target] p
  | codeless {p : AccountProofs} (hs : b.slots ≠ []) (hc : f (.isContract b.target) = .ok false)
    (h : f (.proofs b.target []) = .ok p) :
    ProvenBy f b [.proofs b.target [], .isContract b.target]
      { p with storage := b.slots.map fun _ => [] }

/-- What batches are proven with, after which calls, latest first, if calls are answered by `f`. -/
inductive ProvenAll (f : (c : Call) → Except BackingError c.Answer) :
    List Batch → List Call → List (Batch × AccountProofs) → Prop
  | nil : ProvenAll f [] [] []
  | cons {b : Batch} {bs : List Batch} {calls later : List Call} {p : AccountProofs}
    {proven : List (Batch × AccountProofs)} : ProvenBy f b calls p → ProvenAll f bs later proven →
    ProvenAll f (b :: bs) (later ++ calls) ((b, p) :: proven)

theorem provenBy_of_prove (hf : src.AnswersBy f) {b : Batch} {s s' : σ} {p : AccountProofs}
    (h : b.prove src s = (.ok p, s')) :
    ∃ calls, ProvenBy f b calls p ∧
      ∀ log, b.prove src.logged (s, log) = (.ok p, (s', calls ++ log)) := by
  unfold prove at h ⊢
  split at h
  · next hs =>
    have hn : b.slots = [] := List.isEmpty_iff.mp hs
    simp only [if_pos hs]
    split at h
    · next hr =>
      refine ⟨_, .account hn hr (Source.call_ok hf h), fun log => ?_⟩
      rw [if_pos hr, Source.call_logged, h]
      rfl
    · next hr =>
      cases h
      refine ⟨_, .nothing hn (Bool.not_eq_true _ ▸ hr), fun log => ?_⟩
      rw [if_neg hr]
      rfl
  · next hs =>
    have hn : b.slots ≠ [] := mt List.isEmpty_iff.mpr hs
    simp only [if_neg hs]
    obtain ⟨isContract, t, hc, h⟩ := Fallible.bind_ok h
    have hfc := Source.call_ok hf hc
    cases isContract with
    | true =>
      obtain ⟨proofs, u, hp, h⟩ := Fallible.bind_ok h
      split at h
      · next hl =>
        cases h
        refine ⟨_, .contract hn hfc (Source.call_ok hf hp) hl, fun log => ?_⟩
        simp only [Fallible.bind_apply, Source.call_logged, hc, hp, if_pos hl, if_true]
        rfl
      · cases h
    | false =>
      obtain ⟨proofs, u, hp, h⟩ := Fallible.bind_ok h
      cases h
      refine ⟨_, .codeless hn hfc (Source.call_ok hf hp), fun log => ?_⟩
      simp only [Fallible.bind_apply, Source.call_logged, hc, hp, Bool.false_eq_true, if_false]
      rfl

theorem provenAll_of_proveAll (hf : src.AnswersBy f) {bs : List Batch} {s s' : σ}
    {proven : List (Batch × AccountProofs)} (h : proveAll src bs s = (.ok proven, s')) :
    ∃ calls, ProvenAll f bs calls proven ∧
      ∀ log, proveAll src.logged bs (s, log) = (.ok proven, (s', calls ++ log)) := by
  induction bs generalizing s s' proven with
  | nil =>
    cases h
    exact ⟨_, .nil, fun log => rfl⟩
  | cons b bs ih =>
    obtain ⟨p, t, hp, h⟩ := Fallible.bind_ok h
    obtain ⟨rest, u, hr, h⟩ := Fallible.bind_ok h
    cases h
    obtain ⟨calls, hb, hlog⟩ := provenBy_of_prove hf hp
    obtain ⟨later, hbs, hlog'⟩ := ih hr
    refine ⟨_, .cons hb hbs, fun log => ?_⟩
    rw [List.append_assoc]
    simp only [proveAll, Fallible.bind_apply, hlog, hlog']
    rfl

def Wanted (b : Batch) : Prop := b.slots ≠ [] ∨ b.required = true

/-- The slots whose proofs the request for a batch is for. -/
def request (f : (c : Call) → Except BackingError c.Answer) (b : Batch) : List Word :=
  match f (.isContract b.target) with
  | .ok true => b.slots
  | _ => []

theorem request_nil {b : Batch} (hs : b.slots = []) : b.request f = [] := by
  unfold request
  split
  · exact hs
  · rfl

theorem request_contract {b : Batch} (hc : f (.isContract b.target) = .ok true) :
    b.request f = b.slots := by
  simp only [request, hc]

theorem request_codeless {b : Batch} (hc : f (.isContract b.target) = .ok false) :
    b.request f = [] := by
  simp only [request, hc]

theorem ProvenBy.requests {b : Batch} {calls : List Call} {p : AccountProofs}
    (h : ProvenBy f b calls p) (hw : b.Wanted) :
    calls.filter (Call.requests b.target) = [.proofs b.target (b.request f)] := by
  cases h with
  | nothing hs hr => simp [Wanted, hs, hr] at hw
  | account hs => simp [request_nil hs, Call.requests]
  | contract _ hc => simp [request_contract hc, Call.requests]
  | codeless _ hc => simp [request_codeless hc, Call.requests]

theorem ProvenBy.of_not_wanted {b : Batch} {calls : List Call} {p : AccountProofs}
    (h : ProvenBy f b calls p) (hw : ¬b.Wanted) : calls = [] ∧ p.account = [] := by
  cases h with
  | nothing => exact ⟨rfl, rfl⟩
  | account _ hr => exact (hw (Or.inr hr)).elim
  | contract hs => exact (hw (Or.inl hs)).elim
  | codeless hs => exact (hw (Or.inl hs)).elim

theorem ProvenBy.account_eq {b : Batch} {calls : List Call} {p : AccountProofs}
    (h : ProvenBy f b calls p) (hw : b.Wanted) :
    ∃ answer, f (.proofs b.target (b.request f)) = .ok answer ∧ p.account = answer.account := by
  cases h with
  | nothing hs hr => simp [Wanted, hs, hr] at hw
  | account hs _ hp =>
    rw [request_nil hs]
    exact ⟨_, hp, rfl⟩
  | contract _ hc hp =>
    rw [request_contract hc]
    exact ⟨_, hp, rfl⟩
  | codeless _ hc hp =>
    rw [request_codeless hc]
    exact ⟨_, hp, rfl⟩

theorem ProvenBy.storage_eq {b : Batch} {calls : List Call} {p : AccountProofs} {s : Word}
    (h : ProvenBy f b calls p) (hs : s ∈ b.slots) :
    (f (.isContract b.target) = .ok false ∧ p.storage[b.slots.idxOf s]? = some []) ∨
      (f (.isContract b.target) = .ok true ∧ b.request f = b.slots ∧
        f (.proofs b.target b.slots) = .ok p ∧
        ∃ proof, p.storage[b.slots.idxOf s]? = some proof) := by
  have hi := List.idxOf_lt_length_of_mem hs
  cases h with
  | nothing hn => rw [hn] at hs; cases hs
  | account hn => rw [hn] at hs; cases hs
  | contract _ hc hp hl =>
    exact Or.inr ⟨hc, request_contract hc, hp, _, List.getElem?_eq_getElem (by omega)⟩
  | codeless _ hc hp =>
    refine Or.inl ⟨hc, ?_⟩
    rw [List.getElem?_map, List.getElem?_eq_getElem hi]
    rfl

theorem ProvenBy.requests_ne {b : Batch} {calls : List Call} {p : AccountProofs} {a : Address}
    (h : ProvenBy f b calls p) (ha : b.target ≠ a) : calls.filter (Call.requests a) = [] := by
  cases h <;> simp [Call.requests, ha]

namespace ProvenAll

variable {bs : List Batch} {calls : List Call} {proven : List (Batch × AccountProofs)}
  {a : Address}

theorem requests_of_notMem (h : ProvenAll f bs calls proven) (ha : a ∉ bs.map Batch.target) :
    calls.filter (Call.requests a) = [] := by
  induction h with
  | nil => rfl
  | cons hb _ ih =>
    rw [List.map_cons, List.mem_cons, not_or] at ha
    rw [List.filter_append, ih ha.2, hb.requests_ne (Ne.symm ha.1), List.append_nil]

theorem exists_of_mem (h : ProvenAll f bs calls proven) (hn : (bs.map Batch.target).Nodup)
    {b : Batch} (hb : b ∈ bs) :
    ∃ own p, ProvenBy f b own p ∧ proofsOf b.target proven = some (b, p) ∧
      calls.filter (Call.requests b.target) = own.filter (Call.requests b.target) := by
  induction h with
  | nil => cases hb
  | @cons b' bs calls later p proven hp h ih =>
    rw [List.map_cons, List.nodup_cons] at hn
    rw [List.filter_append]
    unfold proofsOf
    rcases List.mem_cons.mp hb with rfl | hm
    · -- the batch is the only one of its account
      have hc : later.filter (Call.requests b.target) = [] := h.requests_of_notMem hn.1
      refine ⟨calls, p, hp, by simp, ?_⟩
      rw [hc, List.nil_append]
    · have hne : b'.target ≠ b.target := fun he => hn.1 (he ▸ List.mem_map_of_mem hm)
      rw [List.find?_cons_of_neg (by simpa using hne), hp.requests_ne hne, List.append_nil]
      exact ih hn.2 hm

end ProvenAll

end Batch

namespace ProofPlan

theorem isRequired_iff {needs : List (Need Q)} {a : Address} :
    isRequired needs a = true ↔ .target a true ∈ needs := by
  unfold isRequired
  rw [List.any_eq_true]
  constructor
  · rintro ⟨n, hn, h⟩
    cases n with
    | target b r =>
      simp only [Bool.and_eq_true, beq_iff_eq] at h
      obtain ⟨rfl, rfl⟩ := h
      exact hn
    | read => cases h
  · intro h
    exact ⟨_, h, by simp⟩

theorem mem_slotsOf {ks : List ProofKey} {a : Address} {s : Word} :
    s ∈ slotsOf a ks ↔ .slot a s ∈ ks := by
  unfold slotsOf
  rw [List.mem_filterMap]
  constructor
  · rintro ⟨k, hk, h⟩
    cases k with
    | slot b s' =>
      simp only [Option.ite_none_right_eq_some, Option.some.injEq] at h
      obtain ⟨rfl, rfl⟩ := h
      exact hk
    | _ => cases h
  · intro h
    exact ⟨_, h, if_pos rfl⟩

theorem nodup_slotsOf {ks : List ProofKey} (h : ks.Nodup) (a : Address) :
    (slotsOf a ks).Nodup := by
  apply h.filterMap
  intro k k' s hk hk'
  cases k <;> cases k' <;> simp at hk hk'
  rw [hk.1, hk.2, hk'.1, hk'.2]

theorem mem_batchesOf {needs : List (Need Q)} {ks : List ProofKey} {b : Batch} :
    b ∈ batchesOf needs ks ↔
      ∃ a, .account a ∈ ks ∧ b = ⟨a, isRequired needs a, slotsOf a ks⟩ := by
  unfold batchesOf
  rw [List.mem_filterMap]
  constructor
  · rintro ⟨k, hk, h⟩
    cases k with
    | account a =>
      cases h
      exact ⟨a, hk, rfl⟩
    | _ => cases h
  · rintro ⟨a, ha, rfl⟩
    exact ⟨_, ha, rfl⟩

theorem nodup_targets (needs : List (Need Q)) {ks : List ProofKey} (h : ks.Nodup) :
    ((batchesOf needs ks).map Batch.target).Nodup := by
  unfold batchesOf
  rw [List.map_filterMap]
  apply h.filterMap
  intro k k' a hk hk'
  cases k <;> cases k' <;> simp at hk hk'
  rw [hk, hk']

end ProofPlan

end ChainRead
