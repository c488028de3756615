import ChainRead.Proofs.Source.Answers

/-! # Resolving values while a source is logged

A source that is logged answers as before, so that values resolve to the same. All that is logged
while they do are the calls that put questions.
-/

namespace ChainRead

variable {σ α β : Type}

def Session.logging (s : Session σ) (log : List Call) : Session (σ × List Call) :=
  { s with source := (s.source, log) }

/-- A computation does the same if the source is logged, and it makes no calls but to put
questions. -/
def OnlyAsks (x : Fallible EvalError (Session σ) α)
    (y : Fallible EvalError (Session (σ × List Call)) α) : Prop :=
  ∀ s, ∃ calls, (∀ c ∈ calls, ∃ q : Question, q.call = c) ∧
    ∀ log, y (s.logging log) = ((x s).1, (x s).2.logging (calls ++ log))

namespace OnlyAsks

open Session

theorem ofExcept (r : Except EvalError α) :
    OnlyAsks (σ := σ) (Fallible.ofExcept r) (Fallible.ofExcept r) :=
  fun _ => ⟨[], fun _ h => (nomatch h), fun _ => rfl⟩

theorem pure (a : α) :
    OnlyAsks (σ := σ) (Pure.pure a) (Pure.pure a) :=
  fun _ => ⟨[], fun _ h => (nomatch h), fun _ => rfl⟩

theorem mark (id : Nat) : OnlyAsks (σ := σ) (Session.mark id) (Session.mark id) :=
  fun _ => ⟨[], fun _ h => (nomatch h), fun _ => rfl⟩

theorem ask (src : Source σ) (q : Question) :
    OnlyAsks (Session.ask src.answers q) (Session.ask src.logged.answers q) := by
  intro s
  refine ⟨[q.call], fun c hc => ⟨q, (List.mem_singleton.mp hc).symm⟩, fun log => ?_⟩
  rw [ask_apply, ask_apply, Source.answers_apply, Source.answers_apply]
  rfl

theorem bind {x : Fallible EvalError (Session σ) α}
    {x' : Fallible EvalError (Session (σ × List Call)) α}
    {g : α → Fallible EvalError (Session σ) β}
    {g' : α → Fallible EvalError (Session (σ × List Call)) β} (hx : OnlyAsks x x')
    (hg : ∀ a, OnlyAsks (g a) (g' a)) : OnlyAsks (x >>= g) (x' >>= g') := by
  intro s
  obtain ⟨calls, hc, h⟩ := hx s
  rw [Fallible.bind_apply]
  rcases hp : x s with ⟨e | a, t⟩
  · refine ⟨calls, hc, fun log => ?_⟩
    rw [Fallible.bind_apply, h log, hp]
  · obtain ⟨later, hl, h'⟩ := hg a t
    refine ⟨later ++ calls, List.forall_mem_append.mpr ⟨hl, hc⟩, fun log => ?_⟩
    rw [Fallible.bind_apply, h log, hp, List.append_assoc]
    exact h' (calls ++ log)

theorem once (id : Nat) {x : Fallible EvalError (Session σ) Bytes}
    {x' : Fallible EvalError (Session (σ × List Call)) Bytes} (hx : OnlyAsks x x') :
    OnlyAsks (Session.once id x) (Session.once id x') := by
  intro s
  rcases ho : s.outcome? id with _ | o
  · obtain ⟨calls, hc, h⟩ := hx s
    refine ⟨calls, hc, fun log => ?_⟩
    rw [once_of_not_settled (s := s.logging log) ho, once_of_not_settled ho, h log]
    rfl
  · refine ⟨[], fun _ h => (nomatch h), fun log => ?_⟩
    rw [once_of_settled (s := s.logging log) ho, once_of_settled ho]
    rfl

mutual

theorem resolve (src : Source σ) (v : Value Question) :
    OnlyAsks (v.resolve src.answers) (v.resolve src.logged.answers) := by
  cases v with
  | known bytes => exact .pure bytes
  | asked id hint q =>
    rw [Value.resolve, Value.resolve]
    exact .once id (.bind (.mark id) fun _ => .ask src q)
  | joined id hint parts =>
    rw [Value.resolve, Value.resolve]
    exact .once id (.bind (resolveAll src parts) fun _ => .pure _)
  | mapped id hint base g =>
    rw [Value.resolve, Value.resolve]
    exact .once id (.bind (resolve src base) fun bytes => .bind (.mark id) fun _ => .ofExcept _)

theorem resolveAll (src : Source σ) (vs : List (Value Question)) :
    OnlyAsks (Value.resolveAll src.answers vs) (Value.resolveAll src.logged.answers vs) := by
  cases vs with
  | nil => exact .pure []
  | cons v vs =>
    rw [Value.resolveAll, Value.resolveAll]
    exact .bind (resolve src v) fun bytes => .bind (resolveAll src vs) fun _ => .pure _

end

end OnlyAsks

end ChainRead
