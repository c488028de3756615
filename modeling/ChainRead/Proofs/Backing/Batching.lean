import ChainRead.Proofs.Backing.Causes
import ChainRead.Proofs.Source.Beside

/-! # One batch for each account

What needs say about an account is gathered from all of them before anything is asked. So whatever
a source answers, and wherever proving ends, all that it is asked about an account is one batch: a
check for code if there are slots, and then one request.
-/

namespace ChainRead

open Need Session

variable {Q σ : Type} {src : Source σ}

/-! ## The slots of an account -/

namespace Need

/-- The slots of an address that needs read, one after the other; `b` was selected before. -/
def readsOf (a : Address) : (b : Option Address) → List (Need Q) → List Word
  | _, [] => []
  | _, target b _ :: rest => readsOf a (some b) rest
  | b, read (.storage s) :: rest => if b = some a then s :: readsOf a b rest else readsOf a b rest
  | b, read (.hashed ..) :: rest => readsOf a b rest

/-- The distinct slots of an address that needs read, by first occurrence. -/
def distinctSlots (needs : List (Need Q)) (a : Address) : List Word :=
  (readsOf a none needs).eraseDups

end Need

def ProofKey.slotOf (a : Address) : ProofKey → Option Word
  | slot b s => if b = a then some s else none
  | _ => none

namespace ProofKey

theorem filterMap_slotOf (a : Address) (position : Nat) (b : Option Address)
    (needs : List (Need Q)) :
    (ofNeeds position b needs).filterMap (slotOf a) = readsOf a b needs := by
  induction needs generalizing position b with
  | nil => rfl
  | cons need needs ih =>
    cases need with
    | target => simp [ofNeeds, readsOf, slotOf, List.filterMap_cons, ih]
    | read r =>
      cases r with
      | hashed => simp [ofNeeds, readsOf, slotOf, List.filterMap_cons, ih]
      | storage s =>
        cases b with
        | none => simp [ofNeeds, readsOf, slotOf, List.filterMap_cons, ih]
        | some b =>
          by_cases hb : b = a <;> simp [ofNeeds, readsOf, slotOf, ih, hb]

theorem filterMap_eraseDups (a : Address) (ks : List ProofKey) :
    ks.eraseDups.filterMap (slotOf a) = (ks.filterMap (slotOf a)).eraseDups := by
  induction ks using List.reverseRecOn with
  | nil => rfl
  | append_singleton ks k ih =>
    rw [eraseDups_concat, List.filterMap_append]
    rcases hk : slotOf a k with _ | s
    · split <;> simp [ih, hk]
    · have hm : s ∈ ks.filterMap (slotOf a) ↔ k ∈ ks := by
        obtain rfl : k = .slot a s := by
          cases k <;> simp_all [slotOf]
        rw [List.mem_filterMap]
        constructor
        · rintro ⟨k, hk, hs⟩
          cases k <;> simp_all [slotOf]
        · exact fun h => ⟨_, h, hk⟩
      have hs : [k].filterMap (slotOf a) = [s] := by simp [hk]
      rw [hs, eraseDups_concat]
      by_cases h : k ∈ ks <;> simp [h, hm, ih, hk]

end ProofKey

theorem ProofPlan.batch_slots (needs : List (Need Q)) (a : Address) :
    (batch needs a).slots = distinctSlots needs a := by
  show ProofPlan.slotsOf a (ProofKey.keys needs).eraseDups = _
  have hf : ProofPlan.slotsOf a = List.filterMap (ProofKey.slotOf a) := by
    funext ks
    unfold slotsOf
    congr 1
  rw [hf, ProofKey.filterMap_eraseDups, ProofKey.keys, ProofKey.filterMap_slotOf, distinctSlots]

/-! ## What a batch exchanges -/

abbrev Exchange := (c : Call) × Except BackingError c.Answer

/-- A source that also keeps its answers with the calls, latest first. -/
def Source.recorded (src : Source σ) : Source (σ × List Exchange) where
  answer c := fun (s, log) =>
    let (result, s) := src.answer c s
    (result, (s, ⟨c, result⟩ :: log))

section Calls

variable {c : Call} {r : Except BackingError c.Answer} {s t : σ} (h : src.answer c s = (r, t))
include h

theorem Source.call_of_answer : src.call c s = (r.mapError .backing, t) := by
  rw [call_apply, h]

theorem Source.call_recorded (log : List Exchange) :
    src.recorded.call c (s, log) = (r.mapError .backing, (t, ⟨c, r⟩ :: log)) := by
  simp only [call_apply, recorded, h]

end Calls

def Call.isAbout (a : Address) : Call → Bool
  | .isContract b | .proofs b _ => b == a
  | _ => false

theorem Call.eq_of_isAbout {c : Call} {a b : Address} (h : c.isAbout a = true)
    (h' : c.isAbout b = true) : a = b := by
  cases c <;> simp_all [isAbout]

/-- What was exchanged about an address, latest first. -/
def exchangedAbout (a : Address) (made : List Exchange) : List Exchange :=
  made.filter fun x => x.1.isAbout a

theorem exchangedAbout_append (a : Address) (later made : List Exchange) :
    exchangedAbout a (later ++ made) = exchangedAbout a later ++ exchangedAbout a made :=
  List.filter_append ..

def RequestMade (a : Address) (made : List Exchange) : Prop :=
  ∃ slots r, ⟨.proofs a slots, r⟩ ∈ made

namespace Batch

/-- What a source is asked about a batch's account and answers, latest first. -/
inductive Exchanged (b : Batch) : List Exchange → Prop
  | nothing : Exchanged b []
  | account (hs : b.slots = []) (hr : b.required = true) (r : Except BackingError AccountProofs) :
    Exchanged b [⟨.proofs b.target [], r⟩]
  | unchecked (hs : b.slots ≠ []) (cause : BackingError) :
    Exchanged b [⟨.isContract b.target, .error cause⟩]
  | codeless (hs : b.slots ≠ []) (r : Except BackingError AccountProofs) :
    Exchanged b [⟨.proofs b.target [], r⟩, ⟨.isContract b.target, .ok false⟩]
  | contract (hs : b.slots ≠ []) (r : Except BackingError AccountProofs) :
    Exchanged b [⟨.proofs b.target b.slots, r⟩, ⟨.isContract b.target, .ok true⟩]

namespace Exchanged

variable {b : Batch} {made : List Exchange}

theorem isAbout (h : Exchanged b made) : ∀ x ∈ made, x.1.isAbout b.target = true := by
  cases h <;> simp [Call.isAbout]

theorem about_target (h : Exchanged b made) : exchangedAbout b.target made = made :=
  List.filter_eq_self.mpr h.isAbout

theorem about_other (h : Exchanged b made) {a : Address} (ha : b.target ≠ a) :
    exchangedAbout a made = [] :=
  List.filter_eq_nil_iff.mpr fun _ hx hb => ha (Call.eq_of_isAbout (h.isAbout _ hx) hb)

end Exchanged

/-- Proving a batch is one exchange with the source, and there is a request in it if the batch was
wanted and is proven. -/
theorem prove_recorded (src : Source σ) (b : Batch) (s : σ) : ∃ made, Exchanged b made ∧
    (∀ log, b.prove src.recorded (s, log) = ((b.prove src s).1, ((b.prove src s).2, made ++ log))) ∧
    ∀ p, (b.prove src s).1 = .ok p → b.Wanted → RequestMade b.target made := by
  by_cases hs : b.slots = []
  · by_cases hr : b.required = true
    · refine ⟨_, .account hs hr (src.answer (.proofs b.target []) s).1, fun log => ?_,
        fun _ _ _ => ⟨_, _, List.mem_cons_self⟩⟩
      simp only [prove, hs, hr, List.isEmpty_nil, if_true]
      rfl
    · refine ⟨_, .nothing, fun log => ?_, fun _ _ hw => ?_⟩
      · simp only [prove, hs, hr, List.isEmpty_nil, if_true, if_false, Bool.false_eq_true]
        rfl
      · simp [Wanted, hs, hr] at hw
  have he : ¬b.slots.isEmpty = true := mt List.isEmpty_iff.mp hs
  simp only [prove, if_neg he]
  rcases hc : src.answer (.isContract b.target) s with ⟨cause | code, t⟩
  · refine ⟨_, .unchecked hs cause, fun log => ?_, fun p h => ?_⟩
    · rw [Fallible.bind_apply, Fallible.bind_apply, Source.call_of_answer hc,
        Source.call_recorded hc]
      rfl
    · rw [Fallible.bind_apply, Source.call_of_answer hc] at h
      cases h
  -- past the check there is one request, whatever comes of it
  rw [Fallible.bind_of_ok (Source.call_of_answer hc)]
  cases code with
  | true =>
    rcases hp : src.answer (.proofs b.target b.slots) t with ⟨r, u⟩
    refine ⟨_, .contract hs r, fun log => ?_, fun _ _ _ => ⟨_, _, List.mem_cons_self⟩⟩
    rw [Fallible.bind_of_ok (Source.call_recorded hc log), if_pos rfl, if_pos rfl,
      Fallible.bind_apply, Fallible.bind_apply, Source.call_of_answer hp, Source.call_recorded hp]
    rcases r with cause | p
    · rfl
    · by_cases hl : p.storage.length = b.slots.length <;> simp [Except.mapError, hl]
  | false =>
    rcases hp : src.answer (.proofs b.target []) t with ⟨r, u⟩
    refine ⟨_, .codeless hs r, fun log => ?_, fun _ _ _ => ⟨_, _, List.mem_cons_self⟩⟩
    rw [Fallible.bind_of_ok (Source.call_recorded hc log), if_neg Bool.false_ne_true,
      if_neg Bool.false_ne_true, Fallible.bind_apply, Fallible.bind_apply,
      Source.call_of_answer hp, Source.call_recorded hp]
    rcases r with cause | p <;> rfl

/-- Batches with different accounts each have an exchange of their own, and once all of them are
proven a request was made for each that was wanted. -/
theorem proveAll_recorded (src : Source σ) {bs : List Batch} (hn : (bs.map target).Nodup) (s : σ) :
    ∃ made, (∀ log, proveAll src.recorded bs (s, log) =
        ((proveAll src bs s).1, ((proveAll src bs s).2, made ++ log))) ∧
      (∀ x ∈ made, ∃ b ∈ bs, x.1.isAbout b.target = true) ∧
      (∀ b ∈ bs, Exchanged b (exchangedAbout b.target made)) ∧
      ∀ proven, (proveAll src bs s).1 = .ok proven → ∀ b ∈ bs, b.Wanted →
        RequestMade b.target made := by
  induction bs generalizing s with
  | nil => exact ⟨[], by simp [proveAll], by simp, by simp, by simp⟩
  | cons b bs ih =>
    rw [List.map_cons, List.nodup_cons] at hn
    obtain ⟨own, hown, hrun, hreq⟩ := prove_recorded src b s
    have other {b' : Batch} (hb' : b' ∈ bs) : b.target ≠ b'.target := fun he =>
      hn.1 (he ▸ List.mem_map_of_mem hb')
    rcases hp : b.prove src s with ⟨cause | p, t⟩ <;> rw [hp] at hrun hreq
    · refine ⟨own, fun log => ?_, fun x hx => ⟨b, by simp, hown.isAbout x hx⟩, ?_, ?_⟩
      · simp only [proveAll, Fallible.bind_apply, hrun, hp]
      · rintro b' (_ | ⟨_, hb'⟩)
        · rwa [hown.about_target]
        · rw [hown.about_other (other hb')]
          exact .nothing
      · rintro proven h
        rw [proveAll, Fallible.bind_apply, hp] at h
        cases h
    obtain ⟨later, hlater, habout, heach, hall⟩ := ih hn.2 t
    -- the accounts differ, so the later batches exchange nothing about this one
    have hnot : exchangedAbout b.target later = [] := by
      refine List.filter_eq_nil_iff.mpr fun x hx hb => ?_
      obtain ⟨b', hb', h⟩ := habout x hx
      exact other hb' (Call.eq_of_isAbout hb h)
    refine ⟨later ++ own, fun log => ?_, fun x hx => ?_, ?_, ?_⟩
    · simp only [proveAll, Fallible.bind_apply, hrun, hp, hlater]
      rcases proveAll src bs t with ⟨cause | rest, u⟩ <;> simp
    · rcases List.mem_append.mp hx with hx | hx
      · obtain ⟨b', hb', h⟩ := habout x hx
        exact ⟨b', List.mem_cons_of_mem _ hb', h⟩
      · exact ⟨b, by simp, hown.isAbout x hx⟩
    · rintro b' (_ | ⟨_, hb'⟩)
      · rwa [exchangedAbout_append, hnot, hown.about_target]
      · rw [exchangedAbout_append, hown.about_other (other hb'), List.append_nil]
        exact heach b' hb'
    · rintro proven h b' (_ | ⟨_, hb'⟩) hw
      · obtain ⟨slots, r, hm⟩ := hreq p rfl hw
        exact ⟨slots, r, List.mem_append_right _ hm⟩
      · rw [proveAll, Fallible.bind_of_ok hp, Fallible.bind_apply] at h
        rcases hr : proveAll src bs t with ⟨cause | rest, u⟩ <;> rw [hr] at h
        · cases h
        · obtain ⟨slots, r, hm⟩ := hall rest (congrArg Prod.fst hr) b' hb' hw
          exact ⟨slots, r, List.mem_append_left _ hm⟩

end Batch

/-! ## Proving needs -/

theorem ProofKey.proofs_ignores {τ : Type} (answers : Answers Q σ) (needs : List (Need Q))
    (proven : List (Batch × AccountProofs)) (keys : List ProofKey) :
    Ignores (τ := τ) (proofs answers needs proven keys)
      (proofs (answers.beside τ) needs proven keys) := by
  induction keys with
  | nil => exact .pure []
  | cons key keys ih =>
    refine .bind ?_ fun proof => .bind ih fun _ => .pure _
    cases key with
    | supplied position =>
      simp only [ProofKey.proof]
      split
      · exact .resolveBeside answers _
      · exact .pure []
    | _ => exact .pure _

/-- All that was exchanged about an account to prove needs: at most one check for code, if there are
slots, and at most one request, which is for the distinct slots by first occurrence unless there is
no code. -/
structure Need.Batched (needs : List (Need Q)) (a : Address) (made : List Exchange) : Prop where
  oneRequest : made.countP (fun x => x.1.requests a) ≤ 1
  oneCheck : made.countP (fun x => x.1 = .isContract a) ≤ 1
  request : ∀ slots r, ⟨.proofs a slots, r⟩ ∈ made →
    slots = distinctSlots needs a ∧ (slots ≠ [] → ⟨.isContract a, .ok true⟩ ∈ made) ∨
    slots = [] ∧ ⟨.isContract a, .ok false⟩ ∈ made
  check : ∀ r, ⟨.isContract a, r⟩ ∈ made → ∃ s, ReadsSlot needs a s
  unwanted : ¬Wants needs a → made = []

@[simp] theorem ProofPlan.batch_target (needs : List (Need Q)) (a : Address) :
    (batch needs a).target = a := rfl

theorem Need.Batched.of_exchanged {needs : List (Need Q)} {a : Address} {made : List Exchange}
    (h : (ProofPlan.batch needs a).Exchanged made) : Batched needs a made := by
  have hslots := ProofPlan.batch_slots needs a
  have read (hs : (ProofPlan.batch needs a).slots ≠ []) : ∃ s, ReadsSlot needs a s := by
    obtain ⟨s, hs⟩ := List.exists_mem_of_ne_nil _ hs
    exact ⟨s, ProofPlan.mem_batch_slots.mp hs⟩
  constructor
  · cases h <;> simp [Call.requests]
  · cases h <;> simp
  · intro slots r hm
    cases h <;> simp_all
  · intro r hm
    cases h with
    | unchecked hs | codeless hs | contract hs => exact read hs
    | _ => simp at hm
  · intro hw
    rw [← ProofPlan.batch_wanted] at hw
    cases h with
    | nothing => rfl
    | account _ hr => exact (hw (Or.inr hr)).elim
    | unchecked hs | codeless hs | contract hs => exact (hw (Or.inl hs)).elim

/-- To prove needs, whatever the source answers and whether or not it succeeds, what a source is
asked for each account is one batch; if it succeeds, a request was made for each account whose
proofs are wanted. Values are resolved by whatever answers them, which is not recorded here. -/
theorem prove_batched (src : Source σ) (answers : Answers Q σ) (needs : List (Need Q))
    (s : Session σ) :
    ∃ made, (∀ log, prove src.recorded (answers.beside _) needs (s.beside log) =
        ((prove src answers needs s).1, (prove src answers needs s).2.beside (made ++ log))) ∧
      (∀ x ∈ made, ∃ a, x.1.isAbout a = true) ∧
      (∀ a, Batched needs a (exchangedAbout a made)) ∧
      ∀ seq, (prove src answers needs s).1 = .ok seq → ∀ a, Wants needs a → RequestMade a made := by
  rcases hplan : ProofPlan.ofNeeds needs with e | plan
  · refine ⟨[], fun log => ?_, by simp, fun a => .of_exchanged .nothing, ?_⟩
    · rw [prove_of_ofNeeds_error hplan, prove_of_ofNeeds_error hplan]
      rfl
    · simp [prove_of_ofNeeds_error hplan]
  obtain ⟨-, hof⟩ := ProofPlan.ofNeeds_ok hplan
  have hn : (plan.batches.map Batch.target).Nodup := by
    rw [hof]
    exact ProofPlan.nodup_targets needs (ProofKey.nodup_eraseDups _)
  have hmem {b : Batch} (hb : b ∈ plan.batches) : b = ProofPlan.batch needs b.target := by
    rw [hof] at hb
    obtain ⟨a, -, rfl⟩ := ProofPlan.mem_batchesOf.mp hb
    rfl
  obtain ⟨made, hrun, habout, heach, hall⟩ := Batch.proveAll_recorded src hn s.source
  refine ⟨made, fun log => ?_, fun x hx => ?_, fun a => .of_exchanged ?_, fun seq h a hw => ?_⟩
  · have hsource : (s.beside log).source = (s.source, log) := rfl
    simp only [prove, Fallible.bind_apply, Fallible.ofExcept, Fallible.zoom_apply, hplan, hsource,
      hrun]
    rcases Batch.proveAll src plan.batches s.source with ⟨e | proven, source⟩
    · rfl
    · have h : Ignores (τ := List Exchange)
          (ProofKey.proofs answers needs proven plan.keys >>= fun proofs =>
            pure (⟨proofs, plan.order⟩ : ProofSequence)) _ :=
        .bind (ProofKey.proofs_ignores answers needs proven plan.keys) fun _ => .pure _
      have h := h { s with source } (made ++ log)
      simp only [Fallible.bind_apply] at h
      exact h
  · obtain ⟨b, -, h⟩ := habout x hx
    exact ⟨_, h⟩
  · by_cases ha : ProofPlan.batch needs a ∈ plan.batches
    · exact heach _ ha
    · -- all that was exchanged is about the account of some batch
      have hnone : exchangedAbout a made = [] := by
        refine List.filter_eq_nil_iff.mpr fun x hx h => ha ?_
        obtain ⟨b, hb, h'⟩ := habout x hx
        rw [Call.eq_of_isAbout h h', ← hmem hb]
        exact hb
      rw [hnone]
      exact .nothing
  · obtain ⟨plan', proven, source, hplan', hb, -⟩ := prove_ok_iff.mp (Prod.ext h rfl)
    cases hplan.symm.trans hplan'
    refine hall proven (congrArg Prod.fst hb) (ProofPlan.batch needs a) ?_
      (ProofPlan.batch_wanted.mpr hw)
    rw [hof, ProofPlan.batch_mem]
    rcases hw with ⟨s, hs⟩ | hr
    · exact ProofKey.account_of_slot (ProofKey.slot_mem_keys.mpr hs)
    · exact ProofKey.account_mem_keys.mpr ⟨true, hr⟩

/-- Two accounts are selected again later, and one of them has no code. -/
theorem prove_batched_chain :
    let chain : Chain := Chain.withStorage {} 1 5 7
    let needs : List (Need Question) := [.target 1 false, .read (.storage 5), .target 2 true,
      .read (.storage 5), .target 1 true, .read (.storage 6), .read (.storage 5), .target 3 false]
    ∃ (made : List Exchange) (seq : ProofSequence) (s' : Session Nat),
      prove chain.source.recorded (chain.source.answers.beside _) needs
        (Session.beside { source := 0 } []) = (.ok seq, s'.beside made) ∧
      made.map Sigma.fst =
        [.proofs 2 [], .isContract 2, .proofs 1 [5, 6], .isContract 1] ∧
      (∀ a, Batched needs a (exchangedAbout a made)) ∧ RequestMade 1 made ∧ RequestMade 2 made := by
  intro chain needs
  obtain ⟨made, hrun, -, hb, hw⟩ :=
    prove_batched chain.source chain.source.answers needs { source := 0 }
  obtain ⟨seq, s', h, -⟩ := Fallible.exists_ok
    (x := prove chain.source chain.source.answers needs) (s := { source := 0 })
    (p := fun _ => True) (by decide +kernel)
  have hrun := hrun []
  rw [List.append_nil, h] at hrun
  have wanted (a : Address) (i : Nat) (s : Word) (hn : needs[i]? = some (.read (.storage s)))
    (hs : selected (needs.take i) = some a) : Wants needs a := Or.inl ⟨s, i, hn, hs⟩
  refine ⟨made, seq, s', hrun, ?_, hb, hw seq (congrArg Prod.fst h) 1 (wanted 1 1 5 rfl rfl),
    hw seq (congrArg Prod.fst h) 2 (wanted 2 3 5 rfl rfl)⟩
  have hlog := congrArg (fun p => p.2.source.2.map Sigma.fst) hrun
  exact hlog.symm.trans (by decide +kernel)

end ChainRead
