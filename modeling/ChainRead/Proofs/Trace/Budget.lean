import ChainRead.Proofs.Trace.Charges

/-! # The proof budget counts keys

A trace charges proofs by target, slot and flag, and the plan for its needs numbers their keys. A
trace is balanced if what it charged is the number of distinct keys. Everything that registers a
need keeps a trace balanced unless it fails.
-/

namespace ChainRead

variable {Q : Type}

namespace ProofKey

open Need

theorem supplied_mem {i position : Nat} {a : Option Address} {needs : List (Need Q)}
    (h : supplied i ∈ ofNeeds position a needs) : position ≤ i ∧ i < position + needs.length := by
  induction needs generalizing position a with
  | nil => cases h
  | cons need needs ih =>
    have later {b : Option Address} (h : supplied i ∈ ofNeeds (position + 1) b needs) :
        position ≤ i ∧ i < position + (need :: needs).length := by
      have := ih h
      rw [List.length_cons]
      omega
    cases need with
    | target b r =>
      rcases List.mem_cons.mp h with h | h
      · cases h
      · exact later h
    | read r =>
      cases r with
      | hashed hash v =>
        rcases List.mem_cons.mp h with h | h
        · cases h
          rw [List.length_cons]
          omega
        · exact later h
      | storage s =>
        cases a <;> rcases List.mem_cons.mp h with h | h
        · cases h
        · exact later h
        · cases h
        · exact later h

theorem keys_target (n : List (Need Q)) (a : Address) (r : Bool) :
    keys (n ++ [.target a r]) = keys n ++ [account a] := keys_append n _

theorem keys_unselected {n : List (Need Q)} (s : Word) (h : selected n = none) :
    keys (n ++ [.read (.storage s)]) = keys n ++ [noTarget] := by
  rw [keys_append, h]
  rfl

theorem keys_slot {n : List (Need Q)} {a : Address} (s : Word) (h : selected n = some a) :
    keys (n ++ [.read (.storage s)]) = keys n ++ [slot a s] := by
  rw [keys_append, h]
  rfl

theorem keys_hashed (n : List (Need Q)) (hash : Word) (v : Value Q) :
    keys (n ++ [.read (.hashed hash v)]) = keys n ++ [supplied n.length] := by
  rw [keys_append]
  cases selected n <;> rfl

theorem eraseDups_concat {K : Type} [DecidableEq K] [BEq K] [LawfulBEq K] (ks : List K) (k : K) :
    (ks ++ [k]).eraseDups = if k ∈ ks then ks.eraseDups else ks.eraseDups ++ [k] := by
  rw [List.eraseDups_append]
  split
  · next h => simp [List.removeAll, h]
  · next h =>
    have he : [k].eraseDups = [k] := by simp [List.eraseDups_cons]
    simp [List.removeAll, h, he]

end ProofKey

namespace Trace

variable {limit : Nat} {ks : List ProofKey} {t u : Trace Q} {k : ProofKey}

/-- What a trace charged is the number of distinct keys among `ks`. -/
structure Counted (limit : Nat) (ks : List ProofKey) (t : Trace Q) : Prop where
  bound : t.proofLimit = limit
  nonneg : 0 ≤ t.proofsLeft
  left : t.proofsLeft + ks.eraseDups.length = limit
  charged : ∀ k, t.charged k = true ↔ k ∈ ks ∧ k.isSupplied = false

structure SameCharges (t u : Trace Q) : Prop where
  bound : u.proofLimit = t.proofLimit
  left : u.proofsLeft = t.proofsLeft
  charged : u.charged = t.charged

theorem Counted.congr (h : Counted limit ks t) (hs : SameCharges t u) : Counted limit ks u where
  bound := hs.bound.trans h.bound
  nonneg := hs.left ▸ h.nonneg
  left := hs.left ▸ h.left
  charged := hs.charged ▸ h.charged

theorem SameCharges.rfl : SameCharges t t := ⟨.refl _, .refl _, .refl _⟩

theorem SameCharges.select (a : Address) (r : Bool) : SameCharges t (t.select a r) :=
  ⟨.refl _, .refl _, funext fun k => by cases k <;> exact .refl _⟩

theorem SameCharges.record (r : Read Q) : SameCharges t (record r t) := by
  unfold Trace.record
  rcases t.sections with _ | ⟨s, rest⟩
  · exact ⟨.refl _, .refl _, funext fun k => by cases k <;> exact .refl _⟩
  · exact ⟨.refl _, .refl _, funext fun k => by cases k <;> exact .refl _⟩

theorem SameCharges.require : SameCharges t t.require := by
  unfold Trace.require
  rcases t.sections with _ | ⟨s, rest⟩
  · exact .rfl
  · exact ⟨.refl _, .refl _, funext fun k => by cases k <;> exact .refl _⟩

theorem charged_mark (k k' : ProofKey) :
    (t.mark k).charged k' = true ↔ t.charged k' = true ∨ k' = k ∧ k.isSupplied = false := by
  cases k <;> cases k' <;> simp [mark, charged, ProofKey.isSupplied, or_comm]

theorem Counted.again (h : Counted limit ks t) (hc : t.charged k = true) :
    Counted limit (ks ++ [k]) t := by
  have hks := (h.charged k).mp hc
  have hm := ProofKey.eraseDups_concat ks k
  rw [if_pos hks.1] at hm
  constructor
  · exact h.bound
  · exact h.nonneg
  · rw [hm]
    exact h.left
  · intro k'
    rw [h.charged, List.mem_append, List.mem_singleton]
    constructor
    · rintro ⟨h, hs⟩
      exact ⟨Or.inl h, hs⟩
    · rintro ⟨h | rfl, hs⟩
      · exact ⟨h, hs⟩
      · exact hks

theorem Counted.fresh (h : Counted limit ks t) (hk : k ∉ ks) (hp : 0 < t.proofsLeft) :
    Counted limit (ks ++ [k]) { t.mark k with proofsLeft := t.proofsLeft - 1 } := by
  have hm := ProofKey.eraseDups_concat ks k
  rw [if_neg hk] at hm
  constructor
  · exact (by cases k <;> rfl : (t.mark k).proofLimit = t.proofLimit).trans h.bound
  · show 0 ≤ t.proofsLeft - 1
    omega
  · have := h.left
    rw [hm, List.length_append, List.length_singleton]
    show t.proofsLeft - 1 + _ = _
    omega
  · intro k'
    have hc : ({ t.mark k with proofsLeft := t.proofsLeft - 1 } : Trace Q).charged k' =
        (t.mark k).charged k' := by cases k' <;> rfl
    rw [hc, charged_mark, h.charged, List.mem_append, List.mem_singleton]
    constructor
    · rintro (⟨hks, hs⟩ | ⟨rfl, hs⟩)
      · exact ⟨Or.inl hks, hs⟩
      · exact ⟨Or.inr rfl, hs⟩
    · rintro ⟨hks | rfl, hs⟩
      · exact Or.inl ⟨hks, hs⟩
      · exact Or.inr ⟨rfl, hs⟩

theorem Counted.pay (h : Counted limit ks t) (ha : t.Affords k)
    (hk : k.isSupplied = true → k ∉ ks) : Counted limit (ks ++ [k]) (t.pay k) := by
  cases hc : t.charged k with
  | true =>
    rw [pay_of_charged hc]
    exact h.again hc
  | false =>
    rw [pay_of_not_charged hc]
    apply h.fresh
    · intro hks
      cases hs : k.isSupplied with
      | true => exact hk hs hks
      | false =>
        rw [(h.charged k).mpr ⟨hks, hs⟩] at hc
        cases hc
    · rcases ha with ha | ha
      · rw [hc] at ha
        cases ha
      · exact ha

/-- What a trace charged is the number of distinct keys of its needs. -/
def Balanced (limit : Nat) (t : Trace Q) : Prop := Counted limit (ProofKey.keys t.needs) t

end Trace

end ChainRead
