import ChainRead.Proofs.Evaluation.Covering

/-! # What an evaluation keeps

An evaluation that logs its calls keeps them covered by its needs, together with the questions that
still wait. Registering a need puts a call in reserve, which is then made, or handed to a value that
makes it once when it is resolved.
-/

namespace ChainRead

variable {σ : Type}

/-- What holds of the session and the trace of an evaluation while calls `spare` are covered beyond
those that were made or wait. -/
structure Sound (limit : Nat) (spare : List Call) (w : Progress) (s : Session (σ × List Call))
    (t : Trace Question) : Prop where
  covers : ∀ c, Need.Cover t.needs c
    (s.source.2.count c + (waiting w.1 s c).card + spare.count c)
  selected : w.2 → Need.selected t.needs ≠ none
  supplied : ∀ p ∈ Need.supplied t.needs, p.2.Valid w.1
  failures : ∀ id e, s.outcome? id = some (.error e) → e.FromSource
  balanced : t.Balanced limit

namespace Sound

open Need Trace

variable {limit : Nat} {spare : List Call} {w : Progress} {s s' : Session (σ × List Call)}
  {t u : Trace Question}

theorem back (h : Sound limit spare w s t) : Back t.needs s.source.2 := fun c =>
  (h.covers c).mono (.refl _) (by omega)

theorem start (c : Config) (source : σ) :
    Sound c.proofLimit [] (∅, False) { source := (source, []) } (Trace.new c) where
  covers c := by
    cases c with
    | storage => exact Nat.zero_le _
    | isContract => exact fun h => absurd h (Nat.lt_irrefl 0)
    | hashedBytes => exact Nat.zero_le _
    | proofs => rfl
  selected h := h.elim
  supplied _ h := nomatch h
  failures _ _ h := nomatch h
  balanced := new_balanced c

section Registering

variable (h : Sound limit [] w s t)
include h

theorem grow (hg : Grows t.needs u.needs) (hs : Need.supplied u.needs = Need.supplied t.needs)
    (hb : u.Balanced limit) : Sound limit [] w s u where
  covers c := (h.covers c).mono hg le_rfl
  selected hw hn := h.selected hw (hg.selected_eq_none hn)
  supplied := hs ▸ h.supplied
  failures := h.failures
  balanced := hb

theorem silent (hu : Silent t u) : Sound limit [] w s u :=
  h.grow (by rw [hu.needs]; exact .refl _) (by rw [hu.needs]) (hu.balanced h.balanced)

theorem select {a : Address} {r : Bool} (hx : addTarget a r t = (.ok (), u)) :
    Sound limit [] (w.1, True) s u := by
  have he := Effect.addTarget (t := t) a r
  rw [hx] at he
  have hn := he.post rfl
  have hu := h.grow he.grows (by rw [hn, supplied_target]) (he.balanced rfl h.balanced)
  refine { hu with selected := fun _ hs => ?_ }
  rw [hn, selected_append] at hs
  cases hs

theorem storage {a : Address} {k : Word} (ha : a = 0 ∨ w.2)
    (hx : addStorage a k t = (.ok (), u)) : Sound limit [.storage a k] w s u := by
  have he := Effect.addStorage (t := t) a k
  rw [hx] at he
  obtain ⟨hs, hm⟩ := he.post rfl
  obtain ⟨m, hg, hm⟩ := hm (ha.imp_right h.selected)
  have hu := h.grow he.grows hs (he.balanced rfl h.balanced)
  exact { hu with covers := fun c => (h.covers c).storage he.grows hg hm }

theorem isContract {a : Address} (hx : requireTarget a t = (.ok (), u)) :
    Sound limit [.isContract a] w s u := by
  have he := Effect.requireTarget (t := t) a
  rw [hx] at he
  obtain ⟨ha, hs⟩ := he.post rfl
  have hu := h.grow he.grows hs (he.balanced rfl h.balanced)
  exact { hu with covers := fun c => (h.covers c).isContract he.grows ha }

/-- The value of supplied bytes waits for them as soon as it is registered. -/
theorem hashed {hash : Word} {id max : Nat} {hint : Option Nat}
    (hx : addHashed hash (.asked id hint (.hashed hash max)) t = (.ok (), u)) (next : Nat) :
    Sound limit [] (insert (id, .hashed hash max) w.1, w.2) { s with next } u := by
  have he := Effect.addHashed (t := t) hash (.asked id hint (.hashed hash max))
  rw [hx] at he
  have hn := he.post rfl
  constructor
  · intro c
    have hc := (h.covers c).hashed hash (.asked id hint (.hashed hash max))
    have hw := waiting_insert w.1 s id (.hashed hash max) c
    rw [hn]
    refine hc.mono (.refl _) ?_
    show s.source.2.count c + (waiting (insert (id, .hashed hash max) w.1) s c).card + 0 ≤
      s.source.2.count c + (waiting w.1 s c).card + 0 + [Call.hashedBytes hash].count c
    have : (Question.hashed hash max).call = .hashedBytes hash := rfl
    rw [this] at hw
    omega
  · intro hw hs
    exact h.selected hw (he.grows.selected_eq_none hs)
  · intro p hp
    rw [hn, supplied_append, List.mem_append] at hp
    rcases hp with hp | hp
    · exact (h.supplied p hp).mono (Finset.subset_insert _ _)
    · cases List.mem_singleton.mp hp
      exact .asked (Finset.mem_insert_self _ _)
  · exact h.failures
  · exact he.balanced rfl h.balanced

end Registering

section Calling

theorem issue {q : Question} (h : Sound limit [q.call] w s t) (id next : Nat) :
    Sound limit [] (insert (id, q) w.1, w.2) { s with next } t where
  covers c := (h.covers c).mono (.refl _) <| by
    have hw := waiting_insert w.1 s id q c
    show s.source.2.count c + (waiting (insert (id, q) w.1) s c).card + 0 ≤ _
    omega
  selected := h.selected
  supplied p hp := (h.supplied p hp).mono (Finset.subset_insert _ _)
  failures := h.failures
  balanced := h.balanced

/-- A spare call may be made. -/
theorem call {c : Call} (h : Sound limit [c] w s t) (source : σ) :
    Sound limit [] w { s with source := (source, c :: s.source.2) } t where
  covers c' := (h.covers c').mono (.refl _) <| by
    show (c :: s.source.2).count c' + (waiting w.1 s c').card + 0 ≤ _
    rw [← List.singleton_append, List.count_append]
    omega
  selected := h.selected
  supplied := h.supplied
  failures := h.failures
  balanced := h.balanced

theorem failures_settled (h : Sound limit spare w s t) {o : Outcome} {id : Nat}
    (ho : ∀ e, o = .error e → e.FromSource) (id' : Nat) (e : EvalError)
    (he : Session.outcome? { s with settled := (id, o) :: s.settled } id' = some (.error e)) :
    e.FromSource := by
  rw [Session.outcome?_settled] at he
  split at he
  · exact ho e (Option.some.inj he)
  · exact h.failures id' e he

theorem settle (h : Sound limit [] w s t) (id : Nat) {o : Outcome}
    (ho : ∀ e, o = .error e → e.FromSource) :
    Sound limit [] w { s with settled := (id, o) :: s.settled } t where
  covers c := (h.covers c).mono (.refl _) <| by
    have hsub : waiting w.1 { s with settled := (id, o) :: s.settled } c ⊆ waiting w.1 s c :=
      waiting_subset (fun _ => Session.not_settled_before) c
    have hw := Finset.card_le_card hsub
    show s.source.2.count c + _ + 0 ≤ s.source.2.count c + _ + 0
    omega
  selected := h.selected
  supplied := h.supplied
  failures := h.failures_settled ho
  balanced := h.balanced

theorem answer (h : Sound limit [] w s t) {id : Nat} {q : Question} (hq : (id, q) ∈ w.1)
    (hs : s.outcome? id = none) {o : Outcome} (ho : ∀ e, o = .error e → e.FromSource) (source : σ)
    (ran : List Nat) :
    Sound limit [] w
      { s with source := (source, q.call :: s.source.2), settled := (id, o) :: s.settled, ran }
      t where
  covers c := (h.covers c).mono (.refl _) <| by
    have hw := waiting_settle (s := s) (t := { s with settled := (id, o) :: s.settled }) hq hs
      (by rw [Session.outcome?_settled, if_pos rfl]; exact Option.some_ne_none o)
      (fun _ => Session.not_settled_before) c
    show (q.call :: s.source.2).count c +
      (waiting w.1 { s with settled := (id, o) :: s.settled } c).card + 0 ≤ _
    rw [← List.singleton_append, List.count_append]
    omega
  selected := h.selected
  supplied := h.supplied
  failures := h.failures_settled ho
  balanced := h.balanced

theorem mark (h : Sound limit [] w s t) (ran : List Nat) : Sound limit [] w { s with ran } t :=
  ⟨h.covers, h.selected, h.supplied, h.failures, h.balanced⟩

theorem next (h : Sound limit [] w s t) (next : Nat) : Sound limit [] w { s with next } t :=
  ⟨h.covers, h.selected, h.supplied, h.failures, h.balanced⟩

end Calling

end Sound

end ChainRead
