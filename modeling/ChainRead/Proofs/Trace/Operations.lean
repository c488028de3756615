import ChainRead.Proofs.Trace.Aside
import ChainRead.Proofs.Trace.Budget

/-! # What operations do to traces

Every operation lets the needs grow, whether it fails or not. If it does not fail, a balanced trace
stays balanced and the operation registered what it is for.
-/

namespace ChainRead.Trace

open Need

variable {Q α β : Type} {t : Trace Q}

/-- Two traces with the same needs that charged the same. -/
structure Silent (t u : Trace Q) : Prop where
  needs : u.needs = t.needs
  charges : SameCharges t u

theorem Silent.rfl : Silent t t := ⟨.refl _, .rfl⟩

theorem Silent.balanced {u : Trace Q} {limit : Nat} (h : Silent t u) (hb : Balanced limit t) :
    Balanced limit u := by
  unfold Balanced
  rw [h.needs]
  exact hb.congr h.charges

theorem silent_alloc (n : Nat) (t : Trace Q) : Silent t (alloc n t).2 := by
  unfold alloc
  split
  · exact ⟨rfl, rfl, rfl, funext fun k => by cases k <;> rfl⟩
  · exact .rfl

theorem silent_allocWords (n : Nat) (t : Trace Q) : Silent t (allocWords n t).2 := by
  unfold allocWords
  split
  · rw [Fallible.bind_apply]
    have h := silent_alloc (n * 32) t
    rcases ha : alloc (n * 32) t with ⟨_ | _, u⟩ <;> rw [ha] at h <;> exact h
  · exact .rfl

/-- What an operation on `t` does, and what holds of the new trace if it does not fail. -/
structure Effect (t : Trace Q) (p : Except EvalError α × Trace Q) (post : Trace Q → Prop) :
    Prop where
  grows : Grows t.needs p.2.needs
  balanced : ∀ {limit a}, p.1 = .ok a → Balanced limit t → Balanced limit p.2
  post : ∀ {a}, p.1 = .ok a → post p.2

namespace Effect

theorem bind {x : Fallible EvalError (Trace Q) α} {f : α → Fallible EvalError (Trace Q) β}
    {P R : Trace Q → Prop} (hx : Effect t (x t) P)
    (hf : ∀ a u, Grows t.needs u.needs → P u → Effect u (f a u) R) :
    Effect t ((x >>= f) t) R := by
  rw [Fallible.bind_apply]
  rcases h : x t with ⟨e | a, u⟩ <;> rw [h] at hx
  · exact ⟨hx.grows, fun h => (nomatch h), fun h => (nomatch h)⟩
  · have hf := hf a u hx.grows (hx.post rfl)
    exact ⟨hx.grows.trans hf.grows, fun h hb => hf.balanced h (hx.balanced rfl hb), hf.post⟩

theorem weaken {p : Except EvalError α × Trace Q} {P R : Trace Q → Prop} (h : Effect t p P)
    (hP : ∀ u, Grows t.needs u.needs → P u → R u) : Effect t p R :=
  ⟨h.grows, h.balanced, fun hp => hP _ h.grows (h.post hp)⟩

theorem silent {p : Except EvalError α × Trace Q} (h : Silent t p.2) :
    Effect t p fun u => u.needs = t.needs := by
  constructor
  · rw [h.needs]
    exact .refl _
  · intro limit _ _ hb
    exact h.balanced hb
  · intro _ _
    exact h.needs

theorem register {k : ProofKey} {n : Need Q} {f : Trace Q → Trace Q}
    (hn : ∀ u, (f u).needs = u.needs ++ [n]) (hf : ∀ u, SameCharges u (f u))
    (hk : ProofKey.keys (t.needs ++ [n]) = ProofKey.keys t.needs ++ [k])
    (hs : k.isSupplied = true → k ∉ ProofKey.keys t.needs) :
    Effect t (t.register k f) fun u => u.needs = t.needs ++ [n] := by
  have he : (f (t.pay k)).needs = t.needs ++ [n] := by rw [hn, needs_pay]
  unfold Trace.register
  split
  · next ha =>
    constructor
    · show Grows t.needs (f (t.pay k)).needs
      rw [he]
      exact .append _ _
    · intro limit _ _ hb
      unfold Balanced
      rw [he, hk]
      exact (Counted.pay hb ha hs).congr (hf _)
    · intro _ _
      exact he
  · constructor
    · show Grows t.needs (t.pay k).needs
      rw [needs_pay]
      exact .refl _
    · intro limit _ h
      cases h
    · intro _ h
      cases h

theorem addTarget (a : Address) (r : Bool) :
    Effect t (addTarget a r t) fun u => u.needs = t.needs ++ [.target a r] := by
  rw [addTarget_eq]
  exact register (fun u => needs_select a r) (fun u => .select a r) (ProofKey.keys_target _ a r)
    (fun h => nomatch h)

theorem addHashed (hash : Word) (v : Value Q) :
    Effect t (addHashed hash v t) fun u => u.needs = t.needs ++ [.read (.hashed hash v)] := by
  rw [addHashed_eq]
  apply register (needs_record _) (fun u => .record _) (ProofKey.keys_hashed _ hash v)
  intro _ h
  have := ProofKey.supplied_mem h
  omega

theorem addSlot {a : Address} (s : Word) (h : t.lastTarget? = some a) :
    Effect t (addSlot a s t) fun u => u.needs = t.needs ++ [.read (.storage s)] := by
  rw [addSlot_eq]
  exact register (needs_record _) (fun u => .record _)
    (ProofKey.keys_slot s (selected_needs.trans h)) (fun h => nomatch h)

theorem required_require {a : Address} (h : t.lastTarget? = some a) :
    Need.target a true ∈ t.require.needs := by
  unfold lastTarget? at h
  unfold Trace.require needs
  rcases ht : t.sections with _ | ⟨s, rest⟩
  · rw [ht] at h
    cases h
  · rw [ht, List.head?_cons, Option.map_some, Option.some.injEq] at h
    simp [Section.needs, h]

theorem require : Effect t (.ok (), t.require) fun u =>
    u.lastTarget? = t.lastTarget? ∧ supplied u.needs = supplied t.needs := by
  constructor
  · simpa only [List.append_nil] using Grows.of_forall needs_require []
  · intro limit _ _ hb
    unfold Balanced ProofKey.keys
    rw [← ProofKey.ofNeeds_congr needs_require]
    exact hb.congr .require
  · intro _ _
    constructor
    · unfold Trace.require lastTarget?
      rcases ht : t.sections with _ | ⟨s, rest⟩
      · simp only [ht]
      · rfl
    · exact (supplied_congr needs_require).symm

theorem requireTarget (a : Address) : Effect t (requireTarget a t) fun u =>
    .target a true ∈ u.needs ∧ supplied u.needs = supplied t.needs := by
  rw [requireTarget_eq]
  split
  · next h =>
    have hr := require (t := t)
    exact ⟨hr.grows, hr.balanced, fun _ => ⟨required_require h, (hr.post rfl).2⟩⟩
  · rw [← addTarget_eq]
    apply (addTarget a true).weaken
    intro u _ h
    constructor
    · simp [h]
    · rw [h, supplied_target]

theorem aim (a : Address) : Effect t (aim a t) fun u =>
    u.lastTarget? = some a ∧ supplied u.needs = supplied t.needs := by
  unfold Trace.aim
  split
  · next h =>
    split
    · exact require.weaken fun u _ hu => ⟨hu.1.trans h, hu.2⟩
    · refine Effect.weaken (silent .rfl) fun u _ hu => ?_
      rw [← selected_needs, hu, selected_needs, h]
      exact ⟨rfl, rfl⟩
  · rw [← addTarget_eq]
    apply (addTarget a _).weaken
    intro u _ h
    constructor
    · rw [← selected_needs, h, selected_append]
      rfl
    · rw [h, supplied_target]

/-- The read comes last and belongs to its target, except that before any target is selected it
belongs to address zero. -/
theorem addStorage (a : Address) (s : Word) : Effect t (addStorage a s t) fun u =>
    supplied u.needs = supplied t.needs ∧ ((a = 0 ∨ selected t.needs ≠ none) →
      ∃ m, Grows t.needs m ∧ slotsRead u.needs = slotsRead m ++ [(a, s)]) := by
  by_cases h : t.lastTarget? ≠ none ∨ t.requireTargetBeforeSlot = true
  · rw [addStorage_eq a s h]
    apply (aim a).bind
    intro _ u hg hu
    apply (addSlot s hu.1).weaken
    intro v _ hv
    constructor
    · rw [hv, supplied_storage, hu.2]
    · intro _
      refine ⟨u.needs, hg, ?_⟩
      rw [hv, slotsRead, slotsFrom_append, selected_needs, hu.1]
      rfl
  · rw [not_or, not_not, Bool.not_eq_true] at h
    rw [addStorage_of_unselected a s h.1 h.2]
    have hs : selected t.needs = none := selected_needs.trans h.1
    have hr := register (needs_record (.storage s)) (fun u => .record _)
      (ProofKey.keys_unselected s hs) (fun h => nomatch h)
    apply hr.weaken
    intro u _ hu
    constructor
    · rw [hu, supplied_storage]
    · intro ha
      refine ⟨t.needs, .refl _, ?_⟩
      rw [hu, slotsRead, slotsFrom_append, hs, ha.resolve_right (· hs)]
      rfl

end Effect

theorem aside_supplied : Aside fun t : Trace Q => supplied t.needs where
  pay k t := by rw [needs_pay]
  select a r t := by rw [needs_select, supplied_target]
  slot s t := by rw [needs_record, supplied_storage]
  require t := (supplied_congr needs_require).symm

theorem supplied_addHashed (hash : Word) (v : Value Q) (t : Trace Q) :
    supplied (addHashed hash v t).2.needs = supplied t.needs ∨
      supplied (addHashed hash v t).2.needs = supplied t.needs ++ [(hash, v)] := by
  rw [addHashed_eq]
  unfold register
  split
  · rw [needs_record, needs_pay, supplied_append]
    exact Or.inr rfl
  · rw [needs_pay]
    exact Or.inl rfl

end ChainRead.Trace
