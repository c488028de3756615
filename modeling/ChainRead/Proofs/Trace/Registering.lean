import Mathlib.Data.Finset.Card
import ChainRead.Proofs.Trace.Allocation
import ChainRead.Proofs.Trace.Budget

/-! # Registering several needs

Whether several needs can be registered in a row is decided by their keys: it takes one proof for
each distinct key that was not charged before. Reads of one target's slots take the key of each
slot, after the key of the target itself if another one is selected.
-/

namespace ChainRead.Trace

open Need

variable {Q τ α β : Type} {t u v : Trace Q} {k : ProofKey} {ks ks' : List ProofKey}

/-- The number of proofs that it takes to charge keys. -/
def owed (t : Trace Q) (ks : List ProofKey) : Nat :=
  (ks.toFinset.filter fun k => t.charged k = false).card

def AffordsAll (t : Trace Q) (ks : List ProofKey) : Prop := t.owed ks ≤ t.proofsLeft.toNat

instance (t : Trace Q) (ks : List ProofKey) : Decidable (t.AffordsAll ks) :=
  inferInstanceAs (Decidable (_ ≤ _))

/-- Between two traces the proofs of some keys were charged, unless they had been before. -/
structure Paid (t : Trace Q) (ks : List ProofKey) (u : Trace Q) : Prop where
  afforded : t.AffordsAll ks
  bound : u.proofLimit = t.proofLimit
  left : u.proofsLeft + t.owed ks = t.proofsLeft
  charged : ∀ k, u.charged k = true ↔ t.charged k = true ∨ k ∈ ks

theorem owed_append (h : ∀ k, u.charged k = true ↔ t.charged k = true ∨ k ∈ ks) :
    t.owed (ks ++ ks') = t.owed ks + u.owed ks' := by
  have split : (ks ++ ks').toFinset.filter (fun k => t.charged k = false) =
      (ks.toFinset.filter fun k => t.charged k = false) ∪
        ks'.toFinset.filter fun k => u.charged k = false := by
    ext k
    have := h k
    simp only [List.toFinset_append, Finset.mem_filter, Finset.mem_union, List.mem_toFinset]
    grind
  have disjoint : Disjoint (ks.toFinset.filter fun k => t.charged k = false)
      (ks'.toFinset.filter fun k => u.charged k = false) := by
    rw [Finset.disjoint_left]
    intro k hk hk'
    have hm : k ∈ ks := List.mem_toFinset.mp (Finset.mem_filter.mp hk).1
    have hu : u.charged k = true := (h k).mpr (Or.inr hm)
    rw [(Finset.mem_filter.mp hk').2] at hu
    cases hu
  unfold owed
  rw [split, Finset.card_union_of_disjoint disjoint]

theorem owed_singleton : t.owed [k] = if t.charged k = true then 0 else 1 := by
  unfold owed
  rw [List.toFinset_cons, List.toFinset_nil, insert_empty_eq, Finset.filter_singleton]
  cases t.charged k <;> rfl

theorem affords_iff : t.Affords k ↔ t.AffordsAll [k] := by
  unfold Affords AffordsAll
  rw [owed_singleton]
  split
  · next h => exact iff_of_true (Or.inl h) (Nat.zero_le _)
  · next h =>
    rw [or_iff_right h]
    omega

theorem AffordsAll.of_append (h : t.AffordsAll (ks ++ ks')) : t.AffordsAll ks := by
  refine Nat.le_trans (Finset.card_le_card ?_) h
  apply Finset.filter_subset_filter
  rw [List.toFinset_append]
  exact Finset.subset_union_left

namespace Paid

theorem nil (h : SameCharges t u) : Paid t [] u where
  afforded := Nat.zero_le _
  bound := h.bound
  left := by
    rw [h.left]
    exact Int.add_zero _
  charged k := by
    rw [h.charged]
    simp

theorem affordsAll_append (h : Paid t ks u) : t.AffordsAll (ks ++ ks') ↔ u.AffordsAll ks' := by
  have ha : t.owed ks ≤ t.proofsLeft.toNat := h.afforded
  have hl := h.left
  unfold AffordsAll
  rw [owed_append h.charged]
  omega

theorem trans (h : Paid t ks u) (h' : Paid u ks' v) : Paid t (ks ++ ks') v where
  afforded := h.affordsAll_append.mpr h'.afforded
  bound := h'.bound.trans h.bound
  left := by
    have hl := h.left
    have hl' := h'.left
    rw [owed_append h.charged]
    omega
  charged k := by
    rw [h'.charged, h.charged, List.mem_append, or_assoc]

theorem pay (hk : k.isSupplied = false) (ha : t.Affords k) : Paid t [k] (t.pay k) where
  afforded := affords_iff.mp ha
  bound := by
    unfold Trace.pay
    split
    · rfl
    · cases k <;> rfl
  left := by
    rw [owed_singleton]
    unfold Trace.pay
    split
    · exact Int.add_zero _
    · exact Int.sub_add_cancel _ _
  charged k' := by
    rw [List.mem_singleton]
    unfold Trace.pay
    split
    · next hc =>
      constructor
      · exact Or.inl
      · rintro (h | rfl)
        · exact h
        · exact hc
    · have hm : ({ t.mark k with proofsLeft := t.proofsLeft - 1 } : Trace Q).charged k' =
          (t.mark k).charged k' := by cases k' <;> rfl
      rw [hm, charged_mark, hk]
      simp

theorem congr {u' : Trace Q} (h : Paid t ks u) (hu : SameCharges u u') : Paid t ks u' := by
  have h' := h.trans (.nil hu)
  rwa [List.append_nil] at h'

end Paid

/-- What comes of registering keys, one after the other, in the trace of a state: their proofs are
charged if enough are left, and otherwise it fails. -/
structure Registers (trace : τ → Trace Q) (t : Trace Q) (ks : List ProofKey)
    (post : α → τ → Prop) (p : Except EvalError α × τ) : Prop where
  paid : t.AffordsAll ks → ∃ a s, p = (.ok a, s) ∧ Paid t ks (trace s) ∧ post a s
  refused : ¬ t.AffordsAll ks → p.1 = .error (.budget (.tooManyProofs t.proofLimit))

namespace Registers

variable {trace : τ → Trace Q} {P : α → τ → Prop} {R : β → τ → Prop} {s : τ}

theorem nothing (trace : τ → Trace Q) {a : α} {s' : τ} (h : SameCharges t (trace s'))
    (hP : P a s') :
    Registers trace t [] P (.ok a, s') :=
  ⟨fun _ => ⟨a, s', rfl, .nil h, hP⟩, fun h => absurd (Nat.zero_le _) h⟩

theorem bind {x : Fallible EvalError τ α} {f : α → Fallible EvalError τ β}
    (hx : Registers trace t ks P (x s)) (ks' : List ProofKey)
    (hf : ∀ a s', Paid t ks (trace s') → P a s' →
      Registers trace (trace s') ks' R (f a s')) :
    Registers trace t (ks ++ ks') R ((x >>= f) s) where
  paid h := by
    obtain ⟨a, s', hx, hp, hP⟩ := hx.paid h.of_append
    obtain ⟨b, s'', hf, hp', hR⟩ := (hf a s' hp hP).paid (hp.affordsAll_append.mp h)
    exact ⟨b, s'', (Fallible.bind_of_ok hx).trans hf, hp.trans hp', hR⟩
  refused h := by
    by_cases hk : t.AffordsAll ks
    · obtain ⟨a, s', hx, hp, hP⟩ := hx.paid hk
      rw [Fallible.bind_of_ok hx, (hf a s' hp hP).refused (mt hp.affordsAll_append.mpr h), hp.bound]
    · rw [Fallible.bind_apply]
      have := hx.refused hk
      rcases hr : x s with ⟨e | a, s'⟩ <;> rw [hr] at this <;> cases this
      rfl

theorem weaken {p : Except EvalError α × τ} {P' : α → τ → Prop} (h : Registers trace t ks P p)
    (hP : ∀ a s, Paid t ks (trace s) → P a s → P' a s) : Registers trace t ks P' p where
  paid hk := by
    obtain ⟨a, s, hp, hks, h⟩ := h.paid hk
    exact ⟨a, s, hp, hks, hP a s hks h⟩
  refused := h.refused

theorem andThen {x : Fallible EvalError τ α} {f : α → Fallible EvalError τ β}
    (hx : Registers trace t ks P (x s)) {b : α → β} {g : α → τ → τ}
    (hf : ∀ a s', f a s' = (.ok (b a), g a s'))
    (hg : ∀ a s', P a s' → trace (g a s') = trace s' ∧ R (b a) (g a s')) :
    Registers trace t ks R ((x >>= f) s) := by
  have h := hx.bind (f := f) (R := R) [] fun a s' _ hP => ?_
  · rwa [List.append_nil] at h
  · obtain ⟨ht, hR⟩ := hg a s' hP
    rw [hf]
    exact .nothing trace (ht ▸ .rfl) hR

theorem of_ok {a : α} {P : α → τ → Prop} (h : Registers trace t ks P (.ok a, s)) :
    Paid t ks (trace s) ∧ P a s := by
  by_cases hk : t.AffordsAll ks
  · obtain ⟨b, s', hp, hu, hP⟩ := h.paid hk
    cases hp
    exact ⟨hu, hP⟩
  · cases h.refused hk

end Registers

/-! ## Slots of one target -/

/-- The next slot of a target is registered without selecting the target or requiring it: it is
required already, or no target has to be. -/
def Aimed (a : Address) (t : Trace Q) : Prop :=
  match t.sections with
  | [] => t.requireTargetBeforeSlot = false
  | s :: _ => s.address = a ∧ (t.requireTargetBeforeSlot = true → s.required = true)

def slotKey (t : Trace Q) (a : Address) (s : Word) : ProofKey :=
  match t.sections with
  | [] => if t.requireTargetBeforeSlot then .slot a s else .noTarget
  | _ :: _ => .slot a s

/-- The key that aiming a trace at a target registers, if any. -/
def aimKeys (t : Trace Q) (a : Address) : List ProofKey :=
  match t.sections with
  | [] => if t.requireTargetBeforeSlot then [.account a] else []
  | s :: _ => if s.address = a then [] else [.account a]

/-- The keys that reading slots of a target registers. -/
def readKeys (t : Trace Q) (a : Address) (slots : List Word) : List ProofKey :=
  t.aimKeys a ++ slots.map (t.slotKey a)

theorem slotKey_not_supplied (t : Trace Q) (a : Address) (s : Word) :
    (t.slotKey a s).isSupplied = false := by
  unfold slotKey
  split
  · split <;> rfl
  · rfl

theorem sections_pay (k : ProofKey) : (t.pay k).sections = t.sections := by
  unfold pay
  split
  · rfl
  · cases k <;> rfl

/-- What reading a slot of a target leaves of the trace: it is aimed at the target, slots have the
same keys as before, and no bytes were charged. -/
structure AimedFrom (a : Address) (t u : Trace Q) : Prop where
  aimed : Aimed a u
  key : u.slotKey a = t.slotKey a
  allocLeft : u.allocLeft = t.allocLeft

namespace Aimed

variable {a : Address} (h : Aimed a t)
include h

theorem addStorage_eq (s : Word) :
    addStorage a s t = t.register (t.slotKey a s) (record (.storage s)) := by
  unfold Aimed at h
  rcases ht : t.sections with _ | ⟨c, rest⟩ <;> rw [ht] at h
  · have hl : t.lastTarget? = none := by rw [lastTarget?, ht]; rfl
    rw [addStorage_of_unselected a s hl h, slotKey, ht]
    simp only [h, Bool.false_eq_true, if_false]
  · have hl : t.lastTarget? = some a := by rw [lastTarget?, ht, ← h.1]; rfl
    have hn : t.lastTarget? ≠ none := by simp [hl]
    have hr : t.requireTargetBeforeSlot = true → t.require = t := by
      intro hp
      have hc : { c with required := true } = c := by rw [← h.2 hp]
      unfold require
      simp only [ht, hc]
      rw [← ht]
    have hu : (if t.requireTargetBeforeSlot then t.require else t) = t := by
      split
      · exact hr ‹_›
      · rfl
    rw [Trace.addStorage_eq a s (Or.inl hn), Fallible.bind_apply, aim, if_pos hl, hu, slotKey, ht]
    exact addSlot_eq a s

theorem pay (k : ProofKey) : AimedFrom a t (t.pay k) where
  aimed := by
    unfold Aimed at h ⊢
    rwa [sections_pay, policy_pay]
  key := by
    funext s
    unfold slotKey
    rw [sections_pay, policy_pay]
  allocLeft := aside_allocLeft.pay k t

theorem record (r : Read Q) : AimedFrom a t (record r t) := by
  unfold Trace.record
  unfold Aimed at h
  rcases ht : t.sections with _ | ⟨c, rest⟩ <;> rw [ht] at h
  · refine ⟨?_, ?_, rfl⟩
    · simpa only [Aimed, ht] using h
    · funext s
      simp only [slotKey, ht]
  · refine ⟨h, ?_, rfl⟩
    funext s
    simp only [slotKey, ht]

theorem registered (s : Word) :
    Registers id t [t.slotKey a s]
      (fun _ u => u.needs = t.needs ++ [.read (.storage s)] ∧ AimedFrom a t u)
      (t.register (t.slotKey a s) (Trace.record (.storage s))) where
  paid ha := by
    rw [← affords_iff] at ha
    have hp := h.pay (t.slotKey a s)
    have hr := hp.aimed.record (.storage s)
    have paid := (Paid.pay (slotKey_not_supplied t a s) ha).congr (.record (.storage s))
    refine ⟨(), _, if_pos ha, paid, ?_, ?_⟩
    · show (Trace.record (.storage s) (t.pay _)).needs = _
      rw [needs_record, needs_pay]
    · exact ⟨hr.aimed, hr.key.trans hp.key, hr.allocLeft.trans hp.allocLeft⟩
  refused ha := by
    unfold register
    rw [if_neg (mt affords_iff.mp ha)]

theorem registers (s : Word) :
    Registers id t [t.slotKey a s]
      (fun _ u => u.needs = t.needs ++ [.read (.storage s)] ∧ AimedFrom a t u)
      (addStorage a s t) := by
  rw [h.addStorage_eq]
  exact h.registered s

end Aimed

def Aims (a : Address) (n m : List (Need Q)) : Prop :=
  ∃ earlier selection, List.Forall₂ Need.Le n earlier ∧
    (selection = [] ∨ ∃ r, selection = [.target a r]) ∧ m = earlier ++ selection

theorem select_registers {a : Address} (ht : t.sections ≠ [] ∨ t.requireTargetBeforeSlot = true) :
    Registers id t [.account a]
      (fun _ u => Aims a t.needs u.needs ∧ u.sections ≠ [] ∧ AimedFrom a t u)
      (t.register (.account a) fun u => u.select a t.requireTargetBeforeSlot) where
  paid ha := by
    rw [← affords_iff] at ha
    refine ⟨(), _, if_pos ha, (Paid.pay rfl ha).congr (.select _ _), ?_, List.cons_ne_nil _ _, ?_⟩
    · refine ⟨t.needs, [.target a t.requireTargetBeforeSlot], ?_, Or.inr ⟨_, rfl⟩, ?_⟩
      · exact List.forall₂_same.mpr fun n _ => .refl n
      · show ((t.pay _).select a _).needs = _
        rw [needs_select, needs_pay]
    · refine ⟨⟨rfl, fun h => ?_⟩, ?_, aside_allocLeft.pay _ t⟩
      · rwa [← policy_pay (t := t) (.account a)]
      · funext s
        unfold slotKey
        rcases hs : t.sections with _ | ⟨c, rest⟩
        · rw [hs] at ht
          simp [select, ht.resolve_left (· rfl)]
        · rfl
  refused ha := by
    unfold register
    rw [if_neg (mt affords_iff.mp ha)]

theorem require_aims {a : Address} {c : Section Q} {rest : List (Section Q)}
    (ht : t.sections = c :: rest) (hc : c.address = a) :
    SameCharges t (if t.requireTargetBeforeSlot then t.require else t) ∧
      Aims a t.needs (if t.requireTargetBeforeSlot then t.require else t).needs ∧
      (if t.requireTargetBeforeSlot then t.require else t).sections ≠ [] ∧
      AimedFrom a t (if t.requireTargetBeforeSlot then t.require else t) := by
  have hr : t.require = { t with sections := { c with required := true } :: rest } := by
    unfold require
    rw [ht]
  cases hp : t.requireTargetBeforeSlot with
  | true =>
    rw [if_pos rfl]
    refine ⟨.require, ⟨_, [], needs_require, Or.inl rfl, (List.append_nil _).symm⟩, ?_, ?_⟩
    · rw [hr]
      exact List.cons_ne_nil _ _
    · rw [hr]
      refine ⟨⟨hc, fun _ => rfl⟩, ?_, rfl⟩
      funext s
      simp only [slotKey, ht]
  | false =>
    have same := List.forall₂_same.mpr fun (n : Need Q) (_ : n ∈ t.needs) => Need.Le.refl n
    rw [if_neg Bool.false_ne_true]
    refine ⟨.rfl, ⟨_, [], same, Or.inl rfl, (List.append_nil _).symm⟩, ?_, ?_⟩
    · rw [ht]
      exact List.cons_ne_nil _ _
    · refine ⟨?_, rfl, rfl⟩
      unfold Aimed
      rw [ht]
      exact ⟨hc, fun h => by rw [hp] at h; cases h⟩

theorem aim_registers {a : Address} (ht : t.sections ≠ [] ∨ t.requireTargetBeforeSlot = true) :
    Registers id t (t.aimKeys a)
      (fun _ u => Aims a t.needs u.needs ∧ u.sections ≠ [] ∧ AimedFrom a t u) (aim a t) := by
  have select := select_registers (a := a) ht
  rcases hs : t.sections with _ | ⟨c, rest⟩
  · have hl : t.lastTarget? ≠ some a := by simp [lastTarget?, hs]
    have hk : t.aimKeys a = [.account a] := by
      rw [hs] at ht
      simp [aimKeys, hs, ht.resolve_left (· rfl)]
    rw [hk, aim, if_neg hl]
    exact select
  · by_cases hc : c.address = a
    · have hl : t.lastTarget? = some a := by simp [lastTarget?, hs, hc]
      have hk : t.aimKeys a = [] := by simp [aimKeys, hs, hc]
      obtain ⟨charges, aims⟩ := require_aims hs hc
      rw [hk, aim, if_pos hl]
      exact .nothing id charges aims
    · have hl : t.lastTarget? ≠ some a := by simp [lastTarget?, hs, hc]
      have hk : t.aimKeys a = [.account a] := by simp [aimKeys, hs, hc]
      rw [hk, aim, if_neg hl]
      exact select

theorem addStorage_registers (a : Address) (s : Word) :
    Registers id t (t.readKeys a [s])
      (fun _ u => (∃ n, Aims a t.needs n ∧ u.needs = n ++ [.read (.storage s)]) ∧ AimedFrom a t u)
      (addStorage a s t) := by
  by_cases ht : t.sections ≠ [] ∨ t.requireTargetBeforeSlot = true
  · have hl : t.lastTarget? ≠ none ∨ t.requireTargetBeforeSlot = true := by
      refine ht.imp_left fun h hn => h ?_
      simpa [lastTarget?] using hn
    rw [addStorage_eq a s hl]
    refine (aim_registers ht).bind _ fun _ u _ ⟨hn, hu, hf⟩ => ?_
    have hk : u.slotKey a s = .slot a s := by
      unfold slotKey
      split
      · contradiction
      · rfl
    rw [addSlot_eq, List.map_singleton, ← hf.key, hk, ← hk]
    refine (hf.aimed.registered s).weaken fun _ v _ ⟨hv, hfv⟩ => ?_
    exact ⟨⟨_, hn, hv⟩, hfv.aimed, hfv.key.trans hf.key, hfv.allocLeft.trans hf.allocLeft⟩
  · rw [not_or, not_not, Bool.not_eq_true] at ht
    -- no target was selected and none has to be
    have ha : Aimed a t := by
      unfold Aimed
      rw [ht.1]
      exact ht.2
    have hk : t.aimKeys a = [] := by
      unfold aimKeys
      rw [ht.1]
      simp [ht.2]
    have same := List.forall₂_same.mpr fun (n : Need Q) (_ : n ∈ t.needs) => Need.Le.refl n
    rw [readKeys, hk]
    refine (ha.registers s).weaken fun _ v _ ⟨hv, hfv⟩ => ⟨⟨t.needs, ?_, hv⟩, hfv⟩
    exact ⟨_, [], same, Or.inl rfl, (List.append_nil _).symm⟩

end ChainRead.Trace
