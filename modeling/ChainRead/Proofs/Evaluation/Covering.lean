import Mathlib.Data.Finset.Card
import ChainRead.Proofs.Source.Answers
import ChainRead.Proofs.Trace.Calls

/-! # Calls and the needs that cover them

Each call of an evaluation has a need of its own, and so has each question that a value waits for
and that is not asked yet. When the question is asked, its need passes from the value to the call.
-/

namespace ChainRead

namespace Need

variable {Q : Type} {needs needs' : List (Need Q)} {c : Call} {n n' : Nat}

/-- Whether needs cover a call made `n` times. One required target covers any number of code
checks, and evaluations make no requests for proofs. -/
def Cover (needs : List (Need Q)) (c : Call) (n : Nat) : Prop :=
  match c with
  | .storage a s => n ≤ (slotsRead needs).count (a, s)
  | .isContract a => 0 < n → .target a true ∈ needs
  | .hashedBytes h => n ≤ (hashesRead needs).count h
  | .proofs .. => n = 0

/-- Needs cover every call of a list, with multiplicity. -/
def Back (needs : List (Need Q)) (calls : List Call) : Prop := ∀ c, Cover needs c (calls.count c)

theorem Cover.mono (h : Cover needs c n) (hg : Grows needs needs') (hn : n' ≤ n) :
    Cover needs' c n' := by
  cases c with
  | storage a s => exact (hn.trans h).trans (hg.slotsRead.sublist.count_le _)
  | isContract a => exact fun hp => hg.required (h (by omega))
  | hashedBytes hash => exact (hn.trans h).trans (hg.hashesRead.sublist.count_le _)
  | proofs a slots => exact Nat.le_zero.mp (hn.trans h.le)

theorem Back.mono {calls : List Call} (h : Back needs calls) (hg : Grows needs needs') :
    Back needs' calls := fun c => (h c).mono hg le_rfl

theorem Back.of_suffix {calls calls' : List Call} (h : Back needs calls) (hs : calls' <:+ calls) :
    Back needs calls' := fun c => (h c).mono (.refl _) (hs.sublist.count_le c)

end Need

abbrev Issued := Finset (Nat × Question)

/-- A value of an evaluation: its questions were issued and its functions do not fail. -/
inductive Value.Valid (issued : Issued) : Value Question → Prop
  | known (bytes : Bytes) : Valid issued (.known bytes)
  | asked {id : Nat} {hint : Option Nat} {q : Question} (h : (id, q) ∈ issued) :
    Valid issued (.asked id hint q)
  | joined {id : Nat} {hint : Option Nat} {parts : List (Value Question)}
    (h : ∀ v ∈ parts, Valid issued v) : Valid issued (.joined id hint parts)
  | mapped {id : Nat} {hint : Option Nat} {base : Value Question} {f : Bytes → Outcome}
    (h : Valid issued base) (total : ∀ bytes, ∃ result, f bytes = .ok result) :
    Valid issued (.mapped id hint base f)

theorem Value.Valid.mono {issued issued' : Issued} {v : Value Question} (h : Valid issued v)
    (hi : issued ⊆ issued') : Valid issued' v := by
  induction h with
  | known bytes => exact .known bytes
  | asked h => exact .asked (hi h)
  | joined _ ih => exact .joined ih
  | mapped _ total ih => exact .mapped ih total

/-- What an evaluation has done so far: the questions it issued, and whether it selected a
target. -/
abbrev Progress := Issued × Prop

variable {σ : Type}

/-- The questions that would be put as a call and were not asked yet. -/
def waiting (issued : Issued) (s : Session σ) (c : Call) : Issued :=
  issued.filter fun p => (s.outcome? p.1).isNone = true ∧ p.2.call = c

theorem waiting_subset {issued : Issued} {s t : Session σ}
    (h : ∀ id, t.outcome? id = none → s.outcome? id = none) (c : Call) :
    waiting issued t c ⊆ waiting issued s c := by
  intro p hp
  rw [waiting, Finset.mem_filter, Option.isNone_iff_eq_none] at hp ⊢
  exact ⟨hp.1, h _ hp.2.1, hp.2.2⟩

theorem waiting_insert (issued : Issued) (s : Session σ) (id : Nat) (q : Question) (c : Call) :
    (waiting (insert (id, q) issued) s c).card ≤
      (waiting issued s c).card + [q.call].count c := by
  unfold waiting
  rw [Finset.filter_insert]
  split
  · next h =>
    rw [h.2, List.count_singleton_self]
    exact Finset.card_insert_le _ _
  · exact Nat.le_add_right _ _

theorem waiting_settle {issued : Issued} {s t : Session σ} {id : Nat} {q : Question}
    (hq : (id, q) ∈ issued) (hs : s.outcome? id = none) (ht : t.outcome? id ≠ none)
    (h : ∀ id, t.outcome? id = none → s.outcome? id = none) (c : Call) :
    (waiting issued t c).card + [q.call].count c ≤ (waiting issued s c).card := by
  by_cases hc : q.call = c
  · have hmem : (id, q) ∈ waiting issued s c := by
      rw [waiting, Finset.mem_filter, hs]
      exact ⟨hq, rfl, hc⟩
    -- the question waited before it was settled, and no other one starts to wait
    have hsub : waiting issued t c ⊆ (waiting issued s c).erase (id, q) := by
      intro p hp
      refine Finset.mem_erase.mpr ⟨?_, waiting_subset h c hp⟩
      rintro rfl
      rw [waiting, Finset.mem_filter, Option.isNone_iff_eq_none] at hp
      exact ht hp.2.1
    have hcard := Finset.card_le_card hsub
    have hpos := Finset.card_pos.mpr ⟨_, hmem⟩
    rw [Finset.card_erase_of_mem hmem] at hcard
    rw [hc, List.count_singleton_self]
    omega
  · rw [List.count_singleton, beq_false_of_ne hc]
    exact Finset.card_le_card (waiting_subset h c)

namespace Session

theorem outcome?_settled (s : Session σ) (id id' : Nat) (o : Outcome) :
    outcome? { s with settled := (id, o) :: s.settled } id' =
      if id' = id then some o else s.outcome? id' := by
  show ((id, o) :: s.settled).lookup id' = _
  by_cases h : id' = id
  · rw [h, List.lookup_cons_self, if_pos rfl]
  · rw [List.lookup_cons, beq_false_of_ne h, if_neg h]
    rfl

theorem not_settled_before {s : Session σ} {id id' : Nat} {o : Outcome}
    (h : outcome? { s with settled := (id, o) :: s.settled } id' = none) :
    s.outcome? id' = none := by
  rw [outcome?_settled] at h
  split at h
  · cases h
  · exact h

end Session

namespace Need.Cover

variable {Q : Type} {needs needs' m : List (Need Q)} {c : Call} {n : Nat}

theorem storage (h : Cover needs c n) (hg : Grows needs needs') (hm : Grows needs m)
    {a : Address} {k : Word} (he : slotsRead needs' = slotsRead m ++ [(a, k)]) :
    Cover needs' c (n + [Call.storage a k].count c) := by
  by_cases hc : Call.storage a k = c
  · subst hc
    have h := (h.trans (hm.slotsRead.sublist.count_le _) : n ≤ (slotsRead m).count (a, k))
    show _ ≤ (slotsRead needs').count (a, k)
    rw [he, List.count_append, List.count_singleton_self, List.count_singleton_self]
    exact Nat.add_le_add_right h 1
  · rw [List.count_singleton, beq_false_of_ne hc]
    exact h.mono hg le_rfl

theorem isContract (h : Cover needs c n) (hg : Grows needs needs') {a : Address}
    (ha : .target a true ∈ needs') : Cover needs' c (n + [Call.isContract a].count c) := by
  by_cases hc : Call.isContract a = c
  · subst hc
    exact fun _ => ha
  · rw [List.count_singleton, beq_false_of_ne hc]
    exact h.mono hg le_rfl

theorem hashed (h : Cover needs c n) (hash : Word) (v : Value Q) :
    Cover (needs ++ [.read (.hashed hash v)]) c (n + [Call.hashedBytes hash].count c) := by
  by_cases hc : Call.hashedBytes hash = c
  · subst hc
    have hh : hashesRead (needs ++ [.read (.hashed hash v)]) = hashesRead needs ++ [hash] := by
      unfold hashesRead
      rw [supplied_append, List.map_append]
      rfl
    show _ ≤ (hashesRead (needs ++ [.read (.hashed hash v)])).count hash
    rw [hh, List.count_append, List.count_singleton_self, List.count_singleton_self]
    exact Nat.add_le_add_right h 1
  · rw [List.count_singleton, beq_false_of_ne hc]
    exact h.mono (.append _ _) le_rfl

end Need.Cover

end ChainRead
