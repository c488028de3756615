import Mathlib.Data.List.Forall2
import ChainRead.Backing.Plan

/-! # What needs stand for

A storage need reads a slot of the target that was selected last before it. Needs only grow: new
ones come last, and a selected target may become required later. Growing takes nothing away that
the needs before stood for.
-/

namespace ChainRead

variable {Q : Type}

namespace Need

def address? : Need Q → Option Address
  | target a _ => some a
  | read _ => none

/-- The hash that a need relies on supplied bytes for, and their value. -/
def supplied? : Need Q → Option (Word × Value Q)
  | read (.hashed h v) => some (h, v)
  | _ => none

def selected (needs : List (Need Q)) : Option Address := (needs.filterMap address?).getLast?

/-- The slots that needs read, each with its target; `a` was selected before. -/
def slotsFrom : Address → List (Need Q) → List (Address × Word)
  | _, [] => []
  | _, target a _ :: rest => slotsFrom a rest
  | a, read (.storage s) :: rest => (a, s) :: slotsFrom a rest
  | a, read (.hashed ..) :: rest => slotsFrom a rest

/-- The slots that needs read. Before any target was selected, they are slots of address zero. -/
def slotsRead (needs : List (Need Q)) : List (Address × Word) := slotsFrom 0 needs

/-- The hashes that needs rely on supplied bytes for, with the values of the bytes. -/
def supplied (needs : List (Need Q)) : List (Word × Value Q) := needs.filterMap supplied?

def hashesRead (needs : List (Need Q)) : List Word := (supplied needs).map Prod.fst

theorem selected_append (n m : List (Need Q)) :
    selected (n ++ m) = (selected m).or (selected n) := by
  unfold selected
  rw [List.filterMap_append, List.getLast?_append]

theorem selected_target (a : Address) (r : Bool) (n : List (Need Q)) :
    selected (target a r :: n) = (selected n).or (some a) := selected_append [target a r] n

theorem selected_read (r : Read Q) (n : List (Need Q)) : selected (read r :: n) = selected n :=
  (selected_append [read r] n).trans (by cases selected n <;> rfl)

theorem slotsFrom_append (a : Address) (n m : List (Need Q)) :
    slotsFrom a (n ++ m) = slotsFrom a n ++ slotsFrom ((selected n).getD a) m := by
  induction n generalizing a with
  | nil => rfl
  | cons need n ih =>
    cases need with
    | target b r =>
      rw [selected_target, List.cons_append, slotsFrom, slotsFrom, ih]
      cases selected n <;> rfl
    | read r =>
      rw [selected_read]
      cases r <;> simp only [List.cons_append, slotsFrom, ih]

theorem supplied_append (n m : List (Need Q)) : supplied (n ++ m) = supplied n ++ supplied m :=
  List.filterMap_append

theorem supplied_target (n : List (Need Q)) (a : Address) (r : Bool) :
    supplied (n ++ [.target a r]) = supplied n := by
  rw [supplied_append]
  exact List.append_nil _

theorem supplied_storage (n : List (Need Q)) (s : Word) :
    supplied (n ++ [.read (.storage s)]) = supplied n := by
  rw [supplied_append]
  exact List.append_nil _

theorem mem_supplied {n : List (Need Q)} {h : Word} {v : Value Q} :
    (h, v) ∈ supplied n ↔ read (.hashed h v) ∈ n := by
  unfold supplied
  rw [List.mem_filterMap]
  constructor
  · rintro ⟨need, hn, hs⟩
    cases need with
    | target => cases hs
    | read r =>
      cases r with
      | storage => cases hs
      | hashed => cases hs; exact hn
  · intro hn
    exact ⟨_, hn, rfl⟩

/-- A later version of a need: a target may have become required. -/
inductive Le : Need Q → Need Q → Prop
  | target {a : Address} {r r' : Bool} (h : r = true → r' = true) : Le (.target a r) (.target a r')
  | read (r : Read Q) : Le (.read r) (.read r)

theorem Le.refl : (n : Need Q) → Le n n
  | .target _ _ => .target id
  | .read r => .read r

theorem Le.trans {n m k : Need Q} (h : Le n m) (h' : Le m k) : Le n k := by
  cases h with
  | target h => cases h' with | target h' => exact .target (h' ∘ h)
  | read r => exact h'

theorem supplied_congr {n m : List (Need Q)} (h : List.Forall₂ Le n m) :
    supplied n = supplied m := by
  induction h with
  | nil => rfl
  | cons h _ ih =>
    cases h with
    | target => exact ih
    | read r =>
      cases r with
      | storage s => exact ih
      | hashed => exact congrArg (_ :: ·) ih

inductive Grows : List (Need Q) → List (Need Q) → Prop
  | nil (new : List (Need Q)) : Grows [] new
  | cons {n n' : Need Q} {l l' : List (Need Q)} (h : Le n n') (t : Grows l l') :
    Grows (n :: l) (n' :: l')

namespace Grows

variable {l l' m : List (Need Q)}

theorem of_forall (h : List.Forall₂ Le l l') (new : List (Need Q)) : Grows l (l' ++ new) := by
  induction h with
  | nil => exact .nil new
  | cons h _ ih => exact .cons h ih

theorem append (l new : List (Need Q)) : Grows l (l ++ new) :=
  of_forall (List.forall₂_same.mpr fun n _ => .refl n) new

theorem refl (l : List (Need Q)) : Grows l l := by
  simpa only [List.append_nil] using append l []

theorem trans (h : Grows l l') (h' : Grows l' m) : Grows l m := by
  induction h generalizing m with
  | nil => exact .nil m
  | cons h _ ih => cases h' with | cons h' t => exact .cons (h.trans h') (ih t)

theorem slotsFrom (h : Grows l l') (a : Address) : Need.slotsFrom a l <+: Need.slotsFrom a l' := by
  induction h generalizing a with
  | nil => exact List.nil_prefix
  | cons h _ ih =>
    cases h with
    | target => exact ih _
    | read r =>
      cases r with
      | storage s => exact List.cons_prefix_cons.mpr ⟨rfl, ih a⟩
      | hashed => exact ih a

theorem slotsRead (h : Grows l l') : Need.slotsRead l <+: Need.slotsRead l' := h.slotsFrom 0

theorem supplied (h : Grows l l') : Need.supplied l <+: Need.supplied l' := by
  induction h with
  | nil => exact List.nil_prefix
  | cons h _ ih =>
    cases h with
    | target => exact ih
    | read r =>
      cases r with
      | storage s => exact ih
      | hashed => exact List.cons_prefix_cons.mpr ⟨rfl, ih⟩

theorem hashesRead (h : Grows l l') : Need.hashesRead l <+: Need.hashesRead l' :=
  h.supplied.map Prod.fst

theorem required (h : Grows l l') {a : Address} (ha : target a true ∈ l) :
    target a true ∈ l' := by
  induction h with
  | nil => cases ha
  | cons h _ ih =>
    rcases List.mem_cons.mp ha with rfl | ha
    · cases h with | target h => rw [h rfl]; exact List.mem_cons_self
    · exact List.mem_cons_of_mem _ (ih ha)

theorem selected_eq_none (h : Grows l l') (hl : Need.selected l' = none) :
    Need.selected l = none := by
  induction h with
  | nil => rfl
  | cons h _ ih =>
    cases h with
    | target =>
      rw [selected_target, Option.or_eq_none_iff] at hl
      cases hl.2
    | read r =>
      rw [selected_read] at hl ⊢
      exact ih hl

end Grows

end Need

namespace ProofKey

open Need

theorem ofNeeds_append (position : Nat) (a : Option Address) (n m : List (Need Q)) :
    ofNeeds position a (n ++ m) =
      ofNeeds position a n ++ ofNeeds (position + n.length) ((selected n).or a) m := by
  induction n generalizing position a with
  | nil => rfl
  | cons need n ih =>
    have hp : position + 1 + n.length = position + (need :: n).length := by
      rw [List.length_cons]
      omega
    cases need with
    | target b r =>
      rw [selected_target, List.cons_append, ofNeeds, ofNeeds, ih, hp]
      cases selected n <;> rfl
    | read r =>
      rw [selected_read, ← hp]
      cases r <;> cases a <;> simp only [List.cons_append, ofNeeds, ih]

theorem keys_append (n m : List (Need Q)) :
    keys (n ++ m) = keys n ++ ofNeeds n.length (selected n) m := by
  have h := ofNeeds_append 0 none n m
  rwa [Nat.zero_add, Option.or_none] at h

theorem ofNeeds_congr {n m : List (Need Q)} (h : List.Forall₂ Le n m) (position : Nat)
    (a : Option Address) : ofNeeds position a n = ofNeeds position a m := by
  induction h generalizing position a with
  | nil => rfl
  | cons h _ ih =>
    cases h with
    | target => simp only [ofNeeds, ih]
    | read r => cases r <;> cases a <;> simp only [ofNeeds, ih]

end ProofKey

end ChainRead
