import Mathlib.Data.Finset.Card
import Mathlib.Data.List.Induction
import ChainRead.Proofs.Trace.Calls

/-! # Budgets after refusals

A call that is refused a proof has marked its key by then, and nothing is charged for the key from
there on. If a need is registered under it after all, there are more keys than proofs. The keys for
which no call was refused a proof stay within the limit, whatever calls fail and however the trace
goes on.
-/

namespace ChainRead

variable {Q α β : Type}

namespace Trace

variable {limit : Nat} {refused refused' : ProofKey → Prop} {ks : List ProofKey} {t u : Trace Q}
  {k : ProofKey}

/-- A trace paid for the keys among `ks` that were not refused, and charged no other ones. -/
structure Billed (limit : Nat) (refused : ProofKey → Prop) (ks : List ProofKey) (t : Trace Q) :
    Prop where
  counted : ∀ S : Finset ProofKey, (∀ k ∈ S, k ∈ ks ∧ ¬refused k) →
    S.card + t.proofsLeft.toNat ≤ limit
  charged : ∀ k, t.charged k = true → k ∈ ks ∨ refused k

namespace Billed

theorem new (c : Config) : Billed c.proofLimit refused [] (new c : Trace Q) where
  counted S hS := by
    obtain rfl : S = ∅ := Finset.eq_empty_of_forall_notMem fun k hk => nomatch (hS k hk).1
    exact Nat.le_of_eq (Nat.zero_add _)
  charged k hk := by cases k <;> simp [Trace.new, Trace.charged] at hk

theorem mono (h : Billed limit refused ks t) (hr : ∀ k, refused k → refused' k) :
    Billed limit refused' ks t where
  counted S hS := h.counted S fun k hk => ⟨(hS k hk).1, fun hn => (hS k hk).2 (hr k hn)⟩
  charged k hk := (h.charged k hk).imp_right (hr k)

theorem congr (h : Billed limit refused ks t) (hs : SameCharges t u) :
    Billed limit refused ks u where
  counted := hs.left ▸ h.counted
  charged := hs.charged ▸ h.charged

theorem again (h : Billed limit refused ks t) (hc : t.charged k = true) :
    Billed limit refused (ks ++ [k]) t where
  counted S hS := by
    refine h.counted S fun k' hk' => ⟨?_, (hS k' hk').2⟩
    rcases List.mem_append.mp (hS k' hk').1 with hm | hm
    · exact hm
    · obtain rfl := List.mem_singleton.mp hm
      exact (h.charged k' hc).resolve_right (hS k' hk').2
  charged k' hk' := (h.charged k' hk').imp_left (List.mem_append_left _)

theorem charged_pay {k' : ProofKey} (h : (t.pay k).charged k' = true) :
    t.charged k' = true ∨ k' = k := by
  rcases hc : t.charged k with _ | _
  · rw [pay_of_not_charged hc] at h
    have hm : (t.mark k).charged k' = true := by cases k' <;> exact h
    exact ((charged_mark k k').mp hm).imp_right And.left
  · rw [pay_of_charged hc] at h
    exact Or.inl h

theorem fresh (h : Billed limit refused ks t) (hc : t.charged k = false) (hp : 0 < t.proofsLeft) :
    Billed limit refused (ks ++ [k]) (t.pay k) where
  counted S hS := by
    have others := h.counted (S.erase k) fun k' hk' => by
      obtain ⟨hne, hk'⟩ := Finset.mem_erase.mp hk'
      have hm := List.mem_append.mp (hS k' hk').1
      exact ⟨hm.resolve_right fun hm => hne (List.mem_singleton.mp hm), (hS k' hk').2⟩
    have card : S.card - 1 ≤ (S.erase k).card := Finset.pred_card_le_card_erase
    have left : (t.pay k).proofsLeft = t.proofsLeft - 1 := by rw [pay_of_not_charged hc]
    omega
  charged k' hk' := by
    rcases charged_pay hk' with hk' | rfl
    · exact (h.charged k' hk').imp_left (List.mem_append_left _)
    · exact Or.inl (List.mem_append_right _ (List.mem_singleton_self _))

theorem pay (h : Billed limit refused ks t) (ha : t.Affords k) :
    Billed limit refused (ks ++ [k]) (t.pay k) := by
  rcases hc : t.charged k with _ | _
  · exact h.fresh hc (ha.resolve_left (by simp [hc]))
  · rw [pay_of_charged hc]
    exact h.again hc

end Billed

/-! ## Calls -/

/-- An operation failed for want of a proof, and left a key charged that no need has. -/
def Refused (p : Except EvalError α × Trace Q) (k : ProofKey) : Prop :=
  (∃ max, p.1 = .error (.budget (.tooManyProofs max))) ∧ p.2.charged k = true ∧
    k ∉ ProofKey.keys p.2.needs

def Bills (limit : Nat) (refused : ProofKey → Prop) (p : Except EvalError α × Trace Q) : Prop :=
  Billed limit (fun k => refused k ∨ Refused p k) (ProofKey.keys p.2.needs) p.2

namespace Bills

theorem of_billed {p : Except EvalError α × Trace Q}
    (h : Billed limit refused (ProofKey.keys p.2.needs) p.2) : Bills limit refused p :=
  h.mono fun _ => Or.inl

theorem billed {a : α} (h : Bills limit refused (.ok a, u)) :
    Billed limit refused (ProofKey.keys u.needs) u := by
  refine h.mono fun k hk => hk.resolve_right ?_
  rintro ⟨⟨_, hr⟩, -⟩
  cases hr

theorem bind {x : Fallible EvalError (Trace Q) α} {f : α → Fallible EvalError (Trace Q) β}
    (hx : Bills limit refused (x t))
    (hf : ∀ a u, x t = (.ok a, u) → Billed limit refused (ProofKey.keys u.needs) u →
      Bills limit refused (f a u)) : Bills limit refused ((x >>= f) t) := by
  rw [Fallible.bind_apply]
  rcases h : x t with ⟨e | a, u⟩ <;> rw [h] at hx
  · exact hx.mono fun k hk => hk.imp_right fun ⟨⟨max, he⟩, hr⟩ => ⟨⟨max, by cases he; rfl⟩, hr⟩
  · exact hf a u h hx.billed

theorem register {n : Need Q} {f : Trace Q → Trace Q}
    (h : Billed limit refused (ProofKey.keys t.needs) t)
    (hn : ∀ u, (f u).needs = u.needs ++ [n]) (hf : ∀ u, SameCharges u (f u))
    (hk : ProofKey.keys (t.needs ++ [n]) = ProofKey.keys t.needs ++ [k]) :
    Bills limit refused (t.register k f) := by
  unfold Trace.register
  split
  · next ha =>
    refine of_billed ?_
    rw [hn, needs_pay, hk]
    exact (h.pay ha).congr (hf _)
  · next ha =>
    -- the key is marked, but the needs are as before and no proof was left
    have hc : t.charged k = false := by simpa using fun hc => ha (Or.inl hc)
    have left : (t.pay k).proofsLeft = t.proofsLeft - 1 := by rw [pay_of_not_charged hc]
    constructor
    · rw [needs_pay]
      intro S hS
      have := h.counted S fun k' hk' => ⟨(hS k' hk').1, fun hr => (hS k' hk').2 (Or.inl hr)⟩
      show S.card + (t.pay k).proofsLeft.toNat ≤ limit
      omega
    · intro k' hk'
      by_cases hm : k' ∈ ProofKey.keys (t.pay k).needs
      · exact Or.inl hm
      · exact Or.inr (Or.inr ⟨⟨t.proofLimit, rfl⟩, hk', hm⟩)

theorem require (h : Billed limit refused (ProofKey.keys t.needs) t) :
    Bills limit refused ((.ok (), t.require) : Except EvalError Unit × Trace Q) := by
  refine of_billed ?_
  have hk : ProofKey.keys t.require.needs = ProofKey.keys t.needs :=
    (ProofKey.ofNeeds_congr needs_require 0 none).symm
  rw [hk]
  exact h.congr .require

theorem silent {p : Except EvalError α × Trace Q}
    (h : Billed limit refused (ProofKey.keys t.needs) t) (hs : Silent t p.2) :
    Bills limit refused p := by
  refine of_billed ?_
  rw [hs.needs]
  exact h.congr hs.charges

section Operations

variable (h : Billed limit refused (ProofKey.keys t.needs) t)
include h

theorem addTarget (a : Address) (r : Bool) : Bills limit refused (addTarget a r t) := by
  rw [addTarget_eq]
  exact register h (fun u => needs_select a r) (fun u => .select a r) (ProofKey.keys_target _ a r)

theorem requireTarget (a : Address) : Bills limit refused (requireTarget a t) := by
  rw [requireTarget_eq]
  split
  · exact require h
  · rw [← addTarget_eq]
    exact addTarget h a true

theorem addHashed (hash : Word) (v : Value Q) : Bills limit refused (addHashed hash v t) := by
  rw [addHashed_eq]
  exact register h (needs_record _) (fun u => .record _) (ProofKey.keys_hashed _ hash v)

theorem addSlot {a : Address} (s : Word) (ha : t.lastTarget? = some a) :
    Bills limit refused (addSlot a s t) := by
  rw [addSlot_eq]
  exact register h (needs_record _) (fun u => .record _)
    (ProofKey.keys_slot s (selected_needs.trans ha))

theorem aim (a : Address) : Bills limit refused (aim a t) := by
  unfold Trace.aim
  split
  · split
    · exact require h
    · exact of_billed h
  · rw [← addTarget_eq]
    exact addTarget h a _

theorem addStorage (a : Address) (s : Word) : Bills limit refused (addStorage a s t) := by
  by_cases ha : t.lastTarget? ≠ none ∨ t.requireTargetBeforeSlot = true
  · rw [addStorage_eq a s ha]
    refine (aim h a).bind fun _ u hu hb => addSlot hb s ?_
    have hpost := (Effect.aim (t := t) a).post (congrArg Prod.fst hu)
    rw [hu] at hpost
    exact hpost.1
  · rw [not_or, not_not, Bool.not_eq_true] at ha
    rw [addStorage_of_unselected a s ha.1 ha.2]
    exact register h (needs_record _) (fun u => .record _)
      (ProofKey.keys_unselected s (selected_needs.trans ha.1))

end Operations

end Bills

end Trace

namespace TraceCall

open Trace

variable {limit : Nat} {refused : ProofKey → Prop} {t : Trace Q}

theorem run_bills (h : Billed limit refused (ProofKey.keys t.needs) t) (c : TraceCall Q) :
    Bills limit refused (c.run t) := by
  cases c with
  | addTarget a r => exact Bills.addTarget h a r
  | requireTarget a => exact Bills.requireTarget h a
  | addStorage a s => exact Bills.addStorage h a s
  | addHashed hash v => exact Bills.addHashed h hash v
  | alloc n => exact Bills.silent h (silent_alloc n t)
  | allocWords n =>
    exact (Bills.silent h (silent_allocWords n t)).bind fun _ _ _ hb => .of_billed hb

def after (t : Trace Q) (calls : List (TraceCall Q)) : Trace Q :=
  calls.foldl (fun t c => (c.run t).2) t

theorem after_concat (t : Trace Q) (calls : List (TraceCall Q)) (c : TraceCall Q) :
    after t (calls ++ [c]) = (c.run (after t calls)).2 := List.foldl_append

/-- One of the calls was refused a proof for a key. -/
def RefusedIn (t : Trace Q) (calls : List (TraceCall Q)) (k : ProofKey) : Prop :=
  ∃ before c rest, calls = before ++ c :: rest ∧ Refused (c.run (after t before)) k

theorem billed_after (config : Config) (calls : List (TraceCall Q)) :
    let t : Trace Q := after (new config) calls
    Billed config.proofLimit (RefusedIn (new config) calls) (ProofKey.keys t.needs) t := by
  induction calls using List.reverseRecOn with
  | nil => exact .new config
  | append_singleton calls c ih =>
    rw [after_concat]
    refine (run_bills ih c).mono fun k hk => ?_
    rcases hk with ⟨before, c', rest, heq, hr⟩ | hr
    · exact ⟨before, c', rest ++ [c], by rw [heq]; simp, hr⟩
    · exact ⟨calls, c, [], rfl, hr⟩

/-- Whatever calls fail, the needs have at most as many keys as there may be proofs, not counting
the keys for which a call was refused a proof. So they stay within the limit if no need is
registered under such a key. -/
theorem budget_kept (config : Config) (calls : List (TraceCall Q)) :
    let t : Trace Q := after (new config) calls
    (∀ S : Finset ProofKey, (∀ k ∈ S, k ∈ ProofKey.keys t.needs ∧ ¬RefusedIn (new config) calls k) →
      S.card ≤ config.proofLimit) ∧
    ((∀ k ∈ ProofKey.keys t.needs, ¬RefusedIn (new config) calls k) →
      (ProofKey.keys t.needs).toFinset.card ≤ config.proofLimit) := by
  intro t
  have counted (S : Finset ProofKey)
      (hS : ∀ k ∈ S, k ∈ ProofKey.keys t.needs ∧ ¬RefusedIn (new config) calls k) :
      S.card ≤ config.proofLimit :=
    (Nat.le_add_right _ _).trans ((billed_after config calls).counted S hS)
  refine ⟨counted, fun hr => counted _ fun k hk => ?_⟩
  have hk := List.mem_toFinset.mp hk
  exact ⟨hk, hr k hk⟩

/-- A second target is refused, and the first one may still be selected again. -/
theorem budget_kept_refused :
    let config : Config := { maxUniqueProofs := 1 }
    let calls : List (TraceCall Unit) := [.addTarget 1 false, .addTarget 2 false, .addTarget 1 true]
    let t := after (new config) calls
    (∀ k ∈ ProofKey.keys t.needs, ¬RefusedIn (new config) calls k) ∧
      RefusedIn (new config) calls (.account 2) ∧ (ProofKey.keys t.needs).toFinset.card ≤ 1 := by
  intro config calls t
  have hr : ∀ k ∈ ProofKey.keys t.needs, ¬RefusedIn (new config) calls k := by
    intro k hk
    obtain rfl : k = .account 1 := by
      simpa using (show k ∈ [ProofKey.account 1, .account 1] from hk)
    rintro ⟨before, c, rest, heq, ⟨max, he⟩, -, hn⟩
    have heq : [.addTarget 1 false, .addTarget 2 false, .addTarget 1 true] = before ++ c :: rest :=
      heq
    rcases before with _ | ⟨_, _ | ⟨_, _ | ⟨_, before⟩⟩⟩
    · cases heq
      cases (show Except.ok () = Except.error _ from he)
    · cases heq
      exact hn (by decide)
    · cases heq
      cases (show Except.ok () = Except.error _ from he)
    · simp at heq
  refine ⟨hr, ⟨[.addTarget 1 false], .addTarget 2 false, [.addTarget 1 true], rfl, ⟨1, rfl⟩, ?_,
    ?_⟩, (budget_kept config calls).2 hr⟩
  · decide
  · decide

/-- A target that was refused is selected at the second try, and then there are two targets where
one proof is allowed. -/
theorem budget_exceeded :
    let config : Config := { maxUniqueProofs := 1 }
    let t : Trace Unit := new config
    let again := [.addTarget 1 false, .addTarget 2 false, .addTarget 2 false]
    config.proofLimit = 1 ∧
      ((addTarget 2 false).run (after t [.addTarget 1 false])).1 =
        .error (.budget (.tooManyProofs 1)) ∧
      ((addTarget 2 false).run (after t [.addTarget 1 false, .addTarget 2 false])).1 = .ok () ∧
      (ProofKey.keys (after t again).needs).toFinset.card = 2 := by
  refine ⟨rfl, rfl, rfl, ?_⟩
  decide

end TraceCall

end ChainRead
