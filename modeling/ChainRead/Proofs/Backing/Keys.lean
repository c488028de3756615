import Mathlib.Data.List.Induction
import ChainRead.Backing.Prove
import ChainRead.Proofs.Trace.Budget

/-! # The keys of needs

The key of a need depends on its position alone: on the need itself and on the target that the
needs before it leave selected. A key's proof is there without work unless it is made of supplied
bytes, which are resolved.
-/

namespace ChainRead

open Need

variable {Q σ : Type}

namespace Need

def keyAt (needs : List (Need Q)) (i : Nat) : Option ProofKey :=
  match needs[i]? with
  | none => none
  | some (.target a _) => some (.account a)
  | some (.read (.hashed ..)) => some (.supplied i)
  | some (.read (.storage s)) => match selected (needs.take i) with
    | none => some .noTarget
    | some a => some (.slot a s)

def ReadsSlot (needs : List (Need Q)) (a : Address) (s : Word) : Prop :=
  ∃ i, needs[i]? = some (.read (.storage s)) ∧ selected (needs.take i) = some a

end Need

namespace ProofKey

theorem length_keys (needs : List (Need Q)) : (keys needs).length = needs.length := by
  induction needs using List.reverseRecOn with
  | nil => rfl
  | append_singleton n need ih =>
    rw [keys_append, List.length_append, List.length_append, ih]
    cases need with
    | target => rfl
    | read r => cases r <;> cases selected n <;> rfl

theorem getElem?_keys (needs : List (Need Q)) (i : Nat) : (keys needs)[i]? = keyAt needs i := by
  induction needs using List.reverseRecOn generalizing i with
  | nil => rfl
  | append_singleton n need ih =>
    have hlen := length_keys n
    rcases Nat.lt_trichotomy i n.length with hi | rfl | hi
    · have ht : (n ++ [need]).take i = n.take i := List.take_append_of_le_length (Nat.le_of_lt hi)
      rw [keys_append, List.getElem?_append_left (by omega), ih]
      unfold keyAt
      rw [List.getElem?_append_left hi, ht]
    · have ht : (n ++ [need]).take n.length = n := List.take_left
      rw [keys_append, List.getElem?_append_right (by omega), hlen, Nat.sub_self]
      unfold keyAt
      rw [List.getElem?_concat_length, ht]
      cases need with
      | target => rfl
      | read r => cases r <;> cases selected n <;> rfl
    · have hk := length_keys (n ++ [need])
      rw [List.length_append, List.length_singleton] at hk
      unfold keyAt
      rw [List.getElem?_eq_none (by omega), List.getElem?_eq_none (by simp; omega)]

theorem exists_keyAt {needs : List (Need Q)} {i : Nat} {need : Need Q}
    (h : needs[i]? = some need) : ∃ key, keyAt needs i = some key := by
  rw [← getElem?_keys]
  have hi : i < (keys needs).length := by
    rw [length_keys]
    exact (List.getElem?_eq_some_iff.mp h).1
  exact ⟨_, List.getElem?_eq_getElem hi⟩

theorem slot_mem_keys {needs : List (Need Q)} {a : Address} {s : Word} :
    slot a s ∈ keys needs ↔ ReadsSlot needs a s := by
  rw [List.mem_iff_getElem?]
  apply exists_congr
  intro i
  rw [getElem?_keys]
  unfold keyAt
  rcases needs[i]? with _ | n
  · simp
  · cases n with
    | target => simp
    | read r =>
      cases r with
      | hashed => simp
      | storage s' => cases selected (needs.take i) <;> simp [and_comm]

theorem account_mem_keys {needs : List (Need Q)} {a : Address} :
    account a ∈ keys needs ↔ ∃ r, .target a r ∈ needs := by
  simp only [List.mem_iff_getElem?]
  rw [exists_comm]
  apply exists_congr
  intro i
  rw [getElem?_keys]
  unfold keyAt
  rcases needs[i]? with _ | n
  · simp
  · cases n with
    | target => simp
    | read r =>
      cases r with
      | hashed => simp
      | storage s' => cases selected (needs.take i) <;> simp

theorem account_of_slot {needs : List (Need Q)} {a : Address} {s : Word}
    (h : slot a s ∈ keys needs) : account a ∈ keys needs := by
  obtain ⟨i, _, hs⟩ := slot_mem_keys.mp h
  have hm := List.mem_of_getLast? hs
  obtain ⟨n, hn, ha⟩ := List.mem_filterMap.mp hm
  cases n with
  | target b r =>
    cases ha
    exact account_mem_keys.mpr ⟨r, List.mem_of_mem_take hn⟩
  | read => cases ha

theorem proof_cases (answers : Answers Q σ) (needs : List (Need Q))
    (proven : List (Batch × AccountProofs)) (key : ProofKey) :
    (∃ hash v, .read (.hashed hash v) ∈ needs ∧
      key.proof answers needs proven = v.resolve answers) ∨
    ∃ proof, key.proof answers needs proven = pure proof := by
  cases key with
  | supplied position =>
    simp only [ProofKey.proof]
    rcases hn : needs[position]? with _ | n
    · exact Or.inr ⟨[], rfl⟩
    · cases n with
      | target => exact Or.inr ⟨[], rfl⟩
      | read r =>
        cases r with
        | storage => exact Or.inr ⟨[], rfl⟩
        | hashed hash v => exact Or.inl ⟨hash, v, List.mem_of_getElem? hn, rfl⟩
  | _ => exact Or.inr ⟨_, rfl⟩

end ProofKey

end ChainRead
