import ChainRead.Proofs.Trace.Needs

/-! # Charging and registering

A need is registered in two steps: a proof with its key is charged, unless one was before, and
then the need is recorded. What registers a need is either one such pair or makes the right target
the selected one first. In every outcome the needs only grow.
-/

namespace ChainRead

variable {Q : Type}

def ProofKey.isSupplied : ProofKey → Bool
  | supplied _ => true
  | _ => false

namespace Trace

variable (t : Trace Q)

/-- Whether a proof with this key was charged and need not be again. -/
def charged : ProofKey → Bool
  | .noTarget => t.noTarget
  | .account a => t.targets.contains a
  | .slot a s => t.slots.contains (a, s)
  | .supplied _ => false

def mark : ProofKey → Trace Q
  | .noTarget => { t with noTarget := true }
  | .account a => { t with targets := a :: t.targets }
  | .slot a s => { t with slots := (a, s) :: t.slots }
  | .supplied _ => t

/-- Charge a proof with this key, whether or not one is left. -/
def pay (k : ProofKey) : Trace Q :=
  if t.charged k then t else { t.mark k with proofsLeft := t.proofsLeft - 1 }

def Affords (k : ProofKey) : Prop := t.charged k = true ∨ 0 < t.proofsLeft

instance (k : ProofKey) : Decidable (t.Affords k) := inferInstanceAs (Decidable (_ ∨ _))

def select (a : Address) (required : Bool) : Trace Q :=
  { t with sections := ⟨a, required, []⟩ :: t.sections }

def register (k : ProofKey) (f : Trace Q → Trace Q) : Except EvalError Unit × Trace Q :=
  if t.Affords k then (.ok (), f (t.pay k))
  else (.error (.budget (.tooManyProofs t.proofLimit)), t.pay k)

variable {t}

theorem pay_of_charged {k : ProofKey} (h : t.charged k = true) : t.pay k = t := if_pos h

theorem pay_of_not_charged {k : ProofKey} (h : t.charged k = false) :
    t.pay k = { t.mark k with proofsLeft := t.proofsLeft - 1 } := by
  unfold pay
  rw [h, if_neg Bool.false_ne_true]

theorem policy_pay (k : ProofKey) :
    (t.pay k).requireTargetBeforeSlot = t.requireTargetBeforeSlot := by
  unfold pay
  split
  · rfl
  · cases k <;> rfl

theorem debitProof_mark {k : ProofKey} (h : t.charged k = false) (f : Trace Q → Trace Q) :
    (debitProof >>= fun _ => modify f) (t.mark k) = t.register k f := by
  have hl : (t.mark k).proofsLeft = t.proofsLeft := by cases k <;> rfl
  have hm : (t.mark k).proofLimit = t.proofLimit := by cases k <;> rfl
  rw [Fallible.bind_apply, register, pay_of_not_charged h]
  unfold debitProof
  by_cases hp : 0 < t.proofsLeft
  · have hn : ¬ t.proofsLeft - 1 < 0 := by omega
    rw [if_pos (show t.Affords k from Or.inr hp)]
    simp only [hl, if_neg hn, Fallible.modify_apply]
  · have hn : t.proofsLeft - 1 < 0 := by omega
    have ha : ¬ t.Affords k := by
      rintro (hc | hc)
      · rw [h] at hc
        cases hc
      · exact hp hc
    rw [if_neg ha]
    simp only [hl, hm, if_pos hn]

theorem register_eq (k : ProofKey) (f : Trace Q → Trace Q) :
    (do
      unless (← get).charged k do
        modify fun t => t.mark k
        debitProof
      modify f : Fallible EvalError (Trace Q) Unit) t = t.register k f := by
  rcases h : t.charged k with _ | _
  · rw [← debitProof_mark h]
    simp only [Fallible.bind_apply, Fallible.get_apply, h, if_neg Bool.false_ne_true,
      Fallible.modify_apply]
  · rw [register, if_pos (show t.Affords k from Or.inl h), pay_of_charged h]
    simp only [Fallible.bind_apply, Fallible.get_apply, h]
    rfl

theorem addTarget_eq (a : Address) (r : Bool) :
    addTarget a r t = t.register (.account a) fun t => t.select a r :=
  register_eq (.account a) fun t => t.select a r

theorem addSlot_eq (a : Address) (s : Word) :
    addSlot a s t = t.register (.slot a s) (record (.storage s)) :=
  register_eq (.slot a s) (record (.storage s))

theorem addUnselected_eq (s : Word) :
    addUnselected s t = t.register .noTarget (record (.storage s)) :=
  register_eq .noTarget (record (.storage s))

theorem addHashed_eq (hash : Word) (v : Value Q) :
    addHashed hash v t = t.register (.supplied t.needs.length) (record (.hashed hash v)) :=
  debitProof_mark (k := .supplied t.needs.length) rfl _

section Needs

theorem needs_record (r : Read Q) (t : Trace Q) : (record r t).needs = t.needs ++ [.read r] := by
  unfold record needs
  rcases t.sections with _ | ⟨s, rest⟩
  · simp
  · simp [Section.needs]

theorem needs_select (a : Address) (r : Bool) :
    (t.select a r).needs = t.needs ++ [.target a r] := by
  simp [select, needs, Section.needs]

theorem needs_pay (k : ProofKey) : (t.pay k).needs = t.needs := by
  rcases h : t.charged k with _ | _
  · rw [pay_of_not_charged h]
    cases k <;> rfl
  · rw [pay_of_charged h]

theorem selected_section (s : Section Q) : Need.selected s.needs = some s.address := by
  have h : Need.selected (s.reads.reverse.map Need.read) = none := by
    induction s.reads.reverse with
    | nil => rfl
    | cons r rs ih => rw [List.map_cons, Need.selected_read, ih]
  rw [Section.needs, Need.selected_target, h]
  rfl

theorem selected_needs : Need.selected t.needs = t.lastTarget? := by
  unfold needs lastTarget?
  rw [Need.selected_append]
  rcases t.sections with _ | ⟨s, rest⟩
  · induction t.unselected.reverse with
    | nil => rfl
    | cons r rs ih => rwa [List.map_cons, Need.selected_read]
  · rw [List.reverse_cons, List.flatMap_append, Need.selected_append, List.flatMap_singleton,
      selected_section]
    rfl

def require (t : Trace Q) : Trace Q :=
  match t.sections with
  | [] => t
  | s :: rest => { t with sections := { s with required := true } :: rest }

theorem needs_require : List.Forall₂ Need.Le t.needs t.require.needs := by
  have same (l : List (Need Q)) : List.Forall₂ Need.Le l l :=
    List.forall₂_same.mpr fun n _ => .refl n
  unfold require needs
  rcases ht : t.sections with _ | ⟨s, rest⟩
  · simp only [ht]
    exact same _
  · simp only [List.reverse_cons, List.flatMap_append, List.flatMap_singleton, Section.needs]
    apply List.rel_append (same _)
    apply List.rel_append (same _)
    exact .cons (.target fun _ => rfl) (same _)

end Needs

section Storage

theorem requireTarget_eq (a : Address) : requireTarget a t =
    if t.lastTarget? = some a then (.ok (), t.require)
    else t.register (.account a) fun t => t.select a true := by
  rw [← addTarget_eq]
  unfold requireTarget require lastTarget?
  rw [Fallible.bind_apply, Fallible.get_apply]
  rcases ht : t.sections with _ | ⟨s, rest⟩
  · simp only [ht, List.head?_nil, Option.map_none, reduceCtorEq, if_false]
  · simp only [ht, List.head?_cons, Option.map_some, Option.some.injEq]
    by_cases h : s.address = a
    · simp only [h, if_true, Fallible.modify_apply]
    · simp only [h, if_false]

/-- Make a target the selected one before one of its slots is registered. -/
def aim (a : Address) : Fallible EvalError (Trace Q) Unit := fun t =>
  if t.lastTarget? = some a then (.ok (), if t.requireTargetBeforeSlot then t.require else t)
  else t.register (.account a) fun u => u.select a t.requireTargetBeforeSlot

theorem addStorage_of_unselected (a : Address) (s : Word) (h : t.lastTarget? = none)
    (h' : t.requireTargetBeforeSlot = false) :
    addStorage a s t = t.register .noTarget (record (.storage s)) := by
  rw [← addUnselected_eq]
  unfold addStorage
  simp only [Fallible.bind_apply, Fallible.get_apply, h, h']
  rfl

theorem addStorage_eq (a : Address) (s : Word)
    (h : t.lastTarget? ≠ none ∨ t.requireTargetBeforeSlot = true) :
    addStorage a s t = (aim a >>= fun _ => addSlot a s) t := by
  unfold addStorage aim
  rw [Fallible.bind_apply, Fallible.get_apply, Fallible.bind_apply]
  rcases hl : t.lastTarget? with _ | last
  · have h := h.resolve_left (· hl)
    simp only [hl, h, if_true, Fallible.bind_apply, addTarget_eq, reduceCtorEq, if_false]
  · by_cases ha : last = a
    · cases hr : t.requireTargetBeforeSlot
      · simp only [hl, hr, ha, if_true, if_false, Bool.false_eq_true]
      · simp only [hl, hr, ha, if_true, Fallible.bind_apply, requireTarget_eq]
    · simp only [hl, ha, Option.some.injEq, if_false, Fallible.bind_apply, addTarget_eq]

end Storage

end Trace

end ChainRead
