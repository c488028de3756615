import Mathlib.Data.List.Basic
import ChainRead.Proofs.Backing.Keys

/-! # Numbering by first occurrence

Each key is numbered by its place among the distinct keys. So keys have the same number exactly if
they are the same, and a key that comes up for the first time has the smallest number not yet used.
-/

namespace ChainRead

/-- The smallest number above all of a list. -/
def nextIndex : List UInt8 → Nat
  | [] => 0
  | i :: rest => max (i.toNat + 1) (nextIndex rest)

theorem nextIndex_concat (l : List UInt8) (i : UInt8) :
    nextIndex (l ++ [i]) = max (nextIndex l) (i.toNat + 1) := by
  induction l with
  | nil => exact Nat.max_comm _ _
  | cons j l ih =>
    rw [List.cons_append, nextIndex, nextIndex, ih, Nat.max_assoc]

/-- Indices below `count` that come up in order: one that was not used before is the smallest such
one, and all of them are used. -/
structure InOrder (order : List UInt8) (count : Nat) : Prop where
  fresh : ∀ i (h : i < order.length),
    order[i] ∈ order.take i ∨ order[i].toNat = nextIndex (order.take i)
  below : ∀ i ∈ order, i.toNat < count
  all : ∀ n < count, ∃ i ∈ order, i.toNat = n

namespace ProofKey

variable {ks : List ProofKey}

def number (ks : List ProofKey) (k : ProofKey) : UInt8 := UInt8.ofNat (ks.eraseDups.idxOf k)

theorem number_toNat (hl : ks.eraseDups.length ≤ 256) {k : ProofKey} (hk : k ∈ ks) :
    (number ks k).toNat = ks.eraseDups.idxOf k := by
  have hi := List.idxOf_lt_length_of_mem (List.mem_eraseDups.mpr hk)
  rw [number, UInt8.toNat_ofNat']
  omega

theorem getElem?_number (hl : ks.eraseDups.length ≤ 256) {k : ProofKey} (hk : k ∈ ks) :
    ks.eraseDups[(number ks k).toNat]? = some k := by
  have hi := List.idxOf_lt_length_of_mem (List.mem_eraseDups.mpr hk)
  rw [number_toNat hl hk, List.getElem?_eq_getElem hi, List.getElem_idxOf]

theorem number_inj (hl : ks.eraseDups.length ≤ 256) {k k' : ProofKey} (hk : k ∈ ks)
    (hk' : k' ∈ ks) : number ks k = number ks k' ↔ k = k' := by
  rw [← UInt8.toNat_inj, number_toNat hl hk, number_toNat hl hk']
  exact List.idxOf_inj (List.mem_eraseDups.mpr hk)

theorem prefix_eraseDups (l m : List ProofKey) : l.eraseDups <+: (l ++ m).eraseDups := by
  rw [List.eraseDups_append]
  exact List.prefix_append _ _

theorem nextIndex_numbers {l m : List ProofKey} (hl : (l ++ m).eraseDups.length ≤ 256) :
    nextIndex (l.map (number (l ++ m))) = l.eraseDups.length := by
  induction l using List.reverseRecOn generalizing m with
  | nil => rfl
  | append_singleton l k ih =>
    rw [List.append_assoc] at hl ⊢
    have ih := ih hl
    have hk : k ∈ l ++ ([k] ++ m) := by simp
    have hm := eraseDups_concat l k
    rw [List.map_append, List.map_singleton, nextIndex_concat, ih, number_toNat hl hk, hm]
    by_cases hkl : k ∈ l
    · have hi := List.idxOf_lt_length_of_mem (List.mem_eraseDups.mpr hkl)
      rw [← (prefix_eraseDups l ([k] ++ m)).idxOf_eq_of_mem (List.mem_eraseDups.mpr hkl),
        if_pos hkl]
      omega
    · have hp := prefix_eraseDups (l ++ [k]) m
      rw [hm, if_neg hkl, List.append_assoc] at hp
      have hke : k ∉ l.eraseDups := mt List.mem_eraseDups.mp hkl
      rw [← hp.idxOf_eq_of_mem (by simp), if_neg hkl, List.idxOf_append_of_notMem hke]
      simp

theorem nodup_eraseDups (ks : List ProofKey) : ks.eraseDups.Nodup := by
  induction ks using List.reverseRecOn with
  | nil => exact List.nodup_nil
  | append_singleton l k ih =>
    rw [eraseDups_concat]
    split
    · exact ih
    · next hk =>
      refine List.nodup_append.mpr ⟨ih, List.pairwise_singleton _ k, ?_⟩
      rintro a ha b hb rfl
      rw [List.mem_singleton.mp hb] at ha
      exact hk (List.mem_eraseDups.mp ha)

theorem numbers_inOrder (hl : ks.eraseDups.length ≤ 256) :
    InOrder (ks.map (number ks)) ks.eraseDups.length where
  fresh i h := by
    have hi : i < ks.length := by rwa [List.length_map] at h
    have hks : ks.take i ++ ks[i] :: ks.drop (i + 1) = ks := by
      rw [List.getElem_cons_drop, List.take_append_drop]
    have hm : ks[i] ∈ ks := List.getElem_mem hi
    rw [List.getElem_map, ← List.map_take]
    by_cases hk : ks[i] ∈ ks.take i
    · exact Or.inl (List.mem_map_of_mem hk)
    · right
      -- a new key is numbered by how many distinct ones come before it
      have hn := nextIndex_numbers (l := ks.take i) (m := ks[i] :: ks.drop (i + 1)) (by rwa [hks])
      have hp := prefix_eraseDups (ks.take i ++ [ks[i]]) (ks.drop (i + 1))
      rw [eraseDups_concat, if_neg hk, List.append_assoc, List.singleton_append, hks] at hp
      have hke : ks[i] ∉ (ks.take i).eraseDups := mt List.mem_eraseDups.mp hk
      rw [hks] at hn
      rw [hn, number_toNat hl hm, ← hp.idxOf_eq_of_mem (by simp),
        List.idxOf_append_of_notMem hke]
      simp
  below n hn := by
    obtain ⟨k, hk, rfl⟩ := List.mem_map.mp hn
    rw [number_toNat hl hk]
    exact List.idxOf_lt_length_of_mem (List.mem_eraseDups.mpr hk)
  all n hn := by
    have hk : ks.eraseDups[n] ∈ ks := List.mem_eraseDups.mp (List.getElem_mem hn)
    refine ⟨_, List.mem_map_of_mem hk, ?_⟩
    rw [number_toNat hl hk]
    exact (nodup_eraseDups ks).idxOf_getElem n hn

end ProofKey

theorem ProofPlan.ofNeeds_ok {Q : Type} {needs : List (Need Q)} {plan : ProofPlan}
    (h : ofNeeds needs = .ok plan) :
    (ProofKey.keys needs).eraseDups.length ≤ 256 ∧
      plan = ⟨(ProofKey.keys needs).eraseDups,
        (ProofKey.keys needs).map (ProofKey.number (ProofKey.keys needs)),
        batchesOf needs (ProofKey.keys needs).eraseDups⟩ := by
  simp only [ofNeeds] at h
  split at h
  · cases h
  · next hl =>
    cases h
    exact ⟨Nat.le_of_not_lt hl, rfl⟩

end ChainRead
