import ChainRead.Proofs.Trace.Charges
import ChainRead.Proofs.Value.Alike

/-! # Traces that differ in values

No operation looks at the values that a trace holds for supplied bytes. So on traces that differ in
these values alone every operation does the same, and related values stay related. If one trace also
has more left of its budgets, it allows at least what the other one does.
-/

namespace ChainRead

variable {Q α β : Type} {E : Prop} {R : Value Q → Value Q → Prop}

inductive Read.Rel (R : Value Q → Value Q → Prop) : Read Q → Read Q → Prop
  | storage (slot : Word) : Rel R (.storage slot) (.storage slot)
  | hashed (hash : Word) {v v' : Value Q} (h : R v v') : Rel R (.hashed hash v) (.hashed hash v')

inductive Need.Rel (R : Value Q → Value Q → Prop) : Need Q → Need Q → Prop
  | target (a : Address) (required : Bool) : Rel R (.target a required) (.target a required)
  | read {r r' : Read Q} (h : r.Rel R r') : Rel R (.read r) (.read r')

structure Section.Rel (R : Value Q → Value Q → Prop) (s s' : Section Q) : Prop where
  address : s.address = s'.address
  required : s.required = s'.required
  reads : List.Forall₂ (Read.Rel R) s.reads s'.reads

namespace Trace

/-- A trace has as much left of its budgets as another one. -/
structure SameBudgets (t t' : Trace Q) : Prop where
  proofsLeft : t.proofsLeft = t'.proofsLeft
  allocLeft : t.allocLeft = t'.allocLeft
  proofLimit : t.proofLimit = t'.proofLimit
  allocLimit : t.allocLimit = t'.allocLimit

theorem SameBudgets.kept {t t' : Trace Q} {unselected unselected' : List (Read Q)}
    {sections sections' : List (Section Q)} (h : t.SameBudgets t') :
    SameBudgets { t with unselected := unselected, sections := sections }
      { t' with unselected := unselected', sections := sections' } :=
  ⟨h.proofsLeft, h.allocLeft, h.proofLimit, h.allocLimit⟩

/-- Traces that differ at most in values, unless `E` allows for more budget on the right. -/
structure Rel (E : Prop) (R : Value Q → Value Q → Prop) (t t' : Trace Q) : Prop where
  unselected : List.Forall₂ (Read.Rel R) t.unselected t'.unselected
  sections : List.Forall₂ (Section.Rel R) t.sections t'.sections
  proofsLeft_le : t.proofsLeft ≤ t'.proofsLeft
  allocLeft_le : t.allocLeft ≤ t'.allocLeft
  budgets : E ∨ t.SameBudgets t'
  requireTargetBeforeSlot : t.requireTargetBeforeSlot = t'.requireTargetBeforeSlot
  targets : t.targets = t'.targets
  slots : t.slots = t'.slots
  noTarget : t.noTarget = t'.noTarget

theorem Rel.new (c : Config) : Rel E R (Trace.new c) (Trace.new c) where
  unselected := .nil
  sections := .nil
  proofsLeft_le := Int.le_refl _
  allocLeft_le := Nat.le_refl _
  budgets := Or.inr ⟨rfl, rfl, rfl, rfl⟩
  requireTargetBeforeSlot := rfl
  targets := rfl
  slots := rfl
  noTarget := rfl

theorem Rel.allocLeft {t t' : Trace Q} (h : Rel False R t t') : t.allocLeft = t'.allocLeft :=
  (h.budgets.resolve_left id).allocLeft

theorem Rel.mono {R' : Value Q → Value Q → Prop} {t t' : Trace Q} (h : Rel E R t t')
    (hR : ∀ v v', R v v' → R' v v') : Rel E R' t t' := by
  have read : ∀ r r' : Read Q, r.Rel R r' → r.Rel R' r' := by
    rintro _ _ (_ | ⟨hash, h⟩)
    · exact .storage _
    · exact .hashed hash (hR _ _ h)
  have reads {rs rs' : List (Read Q)} (h : List.Forall₂ (Read.Rel R) rs rs') :
      List.Forall₂ (Read.Rel R') rs rs' := h.imp read
  exact { h with
    unselected := reads h.unselected
    sections := h.sections.imp fun _ _ h => ⟨h.address, h.required, reads h.reads⟩ }

namespace Rel

variable {t t' : Trace Q} (h : Rel E R t t')
include h

theorem charged (k : ProofKey) : t.charged k = t'.charged k := by
  cases k with
  | noTarget => exact h.noTarget
  | account a => exact congrArg (List.contains · a) h.targets
  | slot a s => exact congrArg (List.contains · (a, s)) h.slots
  | supplied => rfl

theorem affords {k : ProofKey} (ha : t.Affords k) : t'.Affords k := by
  have hp := h.proofsLeft_le
  unfold Affords at ha ⊢
  rw [← h.charged]
  exact ha.imp_right fun ha => by omega

theorem pay (k : ProofKey) : Rel E R (t.pay k) (t'.pay k) := by
  have hp : t.proofsLeft - 1 ≤ t'.proofsLeft - 1 := by
    have := h.proofsLeft_le
    omega
  have hb (hb : t.SameBudgets t') : t.proofsLeft - 1 = t'.proofsLeft - 1 :=
    congrArg (· - 1) hb.proofsLeft
  have hc := h.charged k
  rcases ht : t.charged k with _ | _ <;> rw [ht] at hc
  · rw [pay_of_not_charged ht, pay_of_not_charged hc.symm]
    have budgets : E ∨ SameBudgets { t.mark k with proofsLeft := t.proofsLeft - 1 }
        { t'.mark k with proofsLeft := t'.proofsLeft - 1 } := by
      refine h.budgets.imp_right fun b => ?_
      cases k <;> exact ⟨hb b, b.allocLeft, b.proofLimit, b.allocLimit⟩
    cases k with
    | noTarget => exact { h with proofsLeft_le := hp, budgets, noTarget := rfl }
    | account a =>
      exact { h with proofsLeft_le := hp, budgets, targets := congrArg (a :: ·) h.targets }
    | slot a s =>
      exact { h with proofsLeft_le := hp, budgets, slots := congrArg ((a, s) :: ·) h.slots }
    | supplied => exact { h with proofsLeft_le := hp, budgets }
  · rw [pay_of_charged ht, pay_of_charged hc.symm]
    exact h

theorem select (a : Address) (r : Bool) : Rel E R (t.select a r) (t'.select a r) :=
  { h with
    sections := .cons ⟨rfl, rfl, .nil⟩ h.sections
    budgets := h.budgets.imp_right SameBudgets.kept }

theorem record {r r' : Read Q} (hr : r.Rel R r') : Rel E R (record r t) (record r' t') := by
  have hs := h.sections
  unfold Trace.record
  rcases ht : t.sections with _ | ⟨s, rest⟩ <;> rcases ht' : t'.sections with _ | ⟨s', rest'⟩ <;>
    rw [ht, ht'] at hs
  · exact { h with
      unselected := .cons hr h.unselected
      sections := .nil
      budgets := h.budgets.imp_right SameBudgets.kept }
  · cases hs
  · cases hs
  · obtain ⟨hs, hrest⟩ := List.forall₂_cons.mp hs
    exact { h with
      sections := .cons ⟨hs.address, hs.required, .cons hr hs.reads⟩ hrest
      budgets := h.budgets.imp_right SameBudgets.kept }

theorem require : Rel E R t.require t'.require := by
  have hs := h.sections
  unfold Trace.require
  rcases ht : t.sections with _ | ⟨s, rest⟩ <;> rcases ht' : t'.sections with _ | ⟨s', rest'⟩ <;>
    rw [ht, ht'] at hs
  · exact h
  · cases hs
  · cases hs
  · obtain ⟨hs, hrest⟩ := List.forall₂_cons.mp hs
    exact { h with
      sections := .cons ⟨hs.address, rfl, hs.reads⟩ hrest
      budgets := h.budgets.imp_right SameBudgets.kept }

theorem lastTarget? : t.lastTarget? = t'.lastTarget? := by
  have hs := h.sections
  unfold Trace.lastTarget?
  generalize t.sections = l at hs
  generalize t'.sections = l' at hs
  cases hs with
  | nil => rfl
  | cons hs => exact congrArg some hs.address

theorem needs : List.Forall₂ (Need.Rel R) t.needs t'.needs := by
  have reads {rs rs' : List (Read Q)} (h : List.Forall₂ (Read.Rel R) rs rs') :
      List.Forall₂ (Need.Rel R) (rs.reverse.map .read) (rs'.reverse.map .read) := by
    rw [List.forall₂_map_left_iff, List.forall₂_map_right_iff]
    exact (List.forall₂_reverse_iff.mpr h).imp fun _ _ h => .read h
  refine List.rel_append (reads h.unselected) ?_
  refine List.rel_flatMap (List.forall₂_reverse_iff.mpr h.sections) fun s s' h => ?_
  unfold Section.needs
  rw [h.address, h.required]
  exact .cons (.target _ _) (reads h.reads)

end Rel

abbrev Alike (E : Prop) (R : Value Q → Value Q → Prop) (x y : Fallible EvalError (Trace Q) α) :
    Prop :=
  Fallible.Alike E (Rel E R) x y

namespace Alike

theorem register (k : ProofKey) {f g : Trace Q → Trace Q}
    (hf : ∀ {t t'}, Rel E R t t' → Rel E R (f t) (g t')) {t t' : Trace Q} (h : Rel E R t t') :
    Fallible.SameResult E (Rel E R) (t.register k f) (t'.register k g) := by
  unfold Trace.register
  by_cases ha : t.Affords k
  · rw [if_pos ha, if_pos (h.affords ha)]
    exact Or.inl ⟨rfl, hf (h.pay k)⟩
  · rw [if_neg ha]
    rcases h.budgets with hE | hb
    · exact Or.inr ⟨hE, _, rfl⟩
    · have ha' : ¬t'.Affords k := by
        unfold Affords at ha ⊢
        rwa [← h.charged, ← hb.proofsLeft]
      rw [if_neg ha', hb.proofLimit]
      exact Or.inl ⟨rfl, h.pay k⟩

theorem addTarget (a : Address) (r : Bool) : Alike E R (addTarget a r) (addTarget a r) := by
  refine ⟨fun {t t'} h => ?_⟩
  rw [addTarget_eq, addTarget_eq]
  exact register _ (fun h => h.select a r) h

theorem addSlot (a : Address) (s : Word) : Alike E R (addSlot a s) (addSlot a s) := by
  refine ⟨fun {t t'} h => ?_⟩
  rw [addSlot_eq, addSlot_eq]
  exact register _ (fun h => h.record (.storage s)) h

theorem requireTarget (a : Address) : Alike E R (requireTarget a) (requireTarget a) := by
  refine ⟨fun {t t'} h => ?_⟩
  rw [requireTarget_eq, requireTarget_eq, h.lastTarget?]
  split
  · exact Or.inl ⟨rfl, h.require⟩
  · exact register _ (fun h => h.select a true) h

theorem aim (a : Address) : Alike E R (aim a) (aim a) := by
  refine ⟨fun {t t'} h => ?_⟩
  unfold Trace.aim
  rw [h.lastTarget?, h.requireTargetBeforeSlot]
  split
  · refine Or.inl ⟨rfl, ?_⟩
    dsimp only
    split
    · exact h.require
    · exact h
  · exact register _ (fun h => h.select a _) h

theorem addStorage (a : Address) (s : Word) : Alike E R (addStorage a s) (addStorage a s) := by
  refine ⟨fun {t t'} h => ?_⟩
  by_cases ht : t.lastTarget? ≠ none ∨ t.requireTargetBeforeSlot = true
  · have ht' := ht
    rw [h.lastTarget?, h.requireTargetBeforeSlot] at ht'
    rw [addStorage_eq a s ht, addStorage_eq a s ht']
    exact ((aim a).bind fun _ => addSlot a s).run h
  · have ht' := ht
    rw [h.lastTarget?, h.requireTargetBeforeSlot] at ht'
    rw [not_or, not_not, Bool.not_eq_true] at ht ht'
    rw [addStorage_of_unselected a s ht.1 ht.2, addStorage_of_unselected a s ht'.1 ht'.2]
    exact register _ (fun h => h.record (.storage s)) h

theorem addHashed (hash : Word) {v v' : Value Q} (hv : R v v') :
    Alike E R (addHashed hash v) (addHashed hash v') := by
  refine ⟨fun {t t'} h => ?_⟩
  have hn : t'.needs.length = t.needs.length := h.needs.length_eq.symm
  rw [addHashed_eq, addHashed_eq, hn]
  exact register _ (fun h => h.record (.hashed hash hv)) h

theorem alloc (n : Nat) : Alike E R (alloc n) (alloc n) := by
  refine ⟨fun {t t'} h => ?_⟩
  have hl := h.allocLeft_le
  unfold Trace.alloc
  by_cases hn : n ≤ t.allocLeft
  · rw [if_pos hn, if_pos (Nat.le_trans hn hl)]
    refine Or.inl ⟨rfl, { h with allocLeft_le := Nat.sub_le_sub_right hl n, budgets := ?_ }⟩
    exact h.budgets.imp_right fun b => { b with allocLeft := congrArg (· - n) b.allocLeft }
  · rw [if_neg hn]
    rcases h.budgets with hE | hb
    · exact Or.inr ⟨hE, _, rfl⟩
    · rw [if_neg (hb.allocLeft ▸ hn), hb.allocLimit]
      exact Or.inl ⟨rfl, h⟩

theorem allocWords (n : Nat) : Alike E R (allocWords n) (allocWords n) := by
  unfold Trace.allocWords
  split
  · exact (alloc _).bind fun _ => .pure _
  · refine ⟨fun {t t'} h => ?_⟩
    rw [Fallible.bind_apply, Fallible.bind_apply]
    rcases h.budgets with hE | hb
    · exact Or.inr ⟨hE, _, rfl⟩
    · simp only [Fallible.get_apply, Fallible.throw_apply, hb.allocLimit]
      exact Or.inl ⟨rfl, h⟩

end Alike

end Trace

end ChainRead
