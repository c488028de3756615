import ChainRead.Value.Session

/-! # How resolving changes a session

Resolving a value marks values, asks questions and settles outcomes, and nothing else. What each of
these keeps is kept by a whole resolution. An outcome that is there stays there, so a value resolves
to the same ever after.
-/

namespace ChainRead

variable {Q σ α β : Type} {answers : Answers Q σ}

namespace Session

theorem ask_apply (q : Q) (s : Session σ) :
    ask answers q s = ((answers q s.source).1, { s with source := (answers q s.source).2 }) := rfl

theorem outcome?_settle (id : Nat) (o : Outcome) (s : Session σ) (i : Nat) :
    ({ s with settled := (id, o) :: s.settled } : Session σ).outcome? i =
      if i = id then some o else s.outcome? i := by
  show ((id, o) :: s.settled).lookup i = _
  by_cases h : i = id
  · simp [h]
  · simp [h, List.lookup_cons, beq_false_of_ne h, outcome?]

theorem once_of_settled {id : Nat} {s : Session σ} {o : Outcome} (h : s.outcome? id = some o)
    (x : Fallible EvalError (Session σ) Bytes) : once id x s = (o, s) := by
  unfold once
  rw [h]

theorem once_of_not_settled {id : Nat} {s : Session σ} (h : s.outcome? id = none)
    (x : Fallible EvalError (Session σ) Bytes) :
    once id x s = ((x s).1, { (x s).2 with settled := (id, (x s).1) :: (x s).2.settled }) := by
  unfold once
  rw [h]
  rfl

theorem once_settles (id : Nat) (s : Session σ) (x : Fallible EvalError (Session σ) Bytes) :
    (once id x s).2.outcome? id = some (once id x s).1 := by
  rcases h : s.outcome? id with _ | o
  · rw [once_of_not_settled h]
    exact List.lookup_cons_self
  · rw [once_of_settled h]
    exact h

/-- A relation between sessions that everything done to resolve a value keeps. -/
structure Kept (answers : Answers Q σ) (R : Session σ → Session σ → Prop) : Prop where
  refl (s : Session σ) : R s s
  trans {s t u : Session σ} : R s t → R t u → R s u
  mark (id : Nat) (s : Session σ) : R s { s with ran := id :: s.ran }
  ask (q : Q) (s : Session σ) : R s { s with source := (answers q s.source).2 }
  settle {id : Nat} {s t : Session σ} (o : Outcome) : s.outcome? id = none → R s t →
    R s { t with settled := (id, o) :: t.settled }

namespace Kept

variable {R : Session σ → Session σ → Prop} (hR : Kept answers R)
include hR

theorem bind {x : Fallible EvalError (Session σ) α} {f : α → Fallible EvalError (Session σ) β}
    (hx : ∀ s, R s (x s).2) (hf : ∀ a s, R s (f a s).2) (s : Session σ) :
    R s ((x >>= f) s).2 := by
  rw [Fallible.bind_apply]
  have h := hx s
  rcases hp : x s with ⟨e | a, t⟩ <;> rw [hp] at h
  · exact h
  · exact hR.trans h (hf a t)

theorem once (id : Nat) {x : Fallible EvalError (Session σ) Bytes} (hx : ∀ s, R s (x s).2)
    (s : Session σ) : R s (Session.once id x s).2 := by
  rcases h : s.outcome? id with _ | o
  · rw [once_of_not_settled h]
    exact hR.settle _ h (hx s)
  · rw [once_of_settled h]
    exact hR.refl s

mutual

theorem resolve (v : Value Q) (s : Session σ) : R s (v.resolve answers s).2 := by
  cases v with
  | known bytes => exact hR.refl s
  | asked id hint q =>
    rw [Value.resolve]
    exact hR.once id (hR.bind (fun s => hR.mark id s) fun _ s => hR.ask q s) s
  | joined id hint parts =>
    rw [Value.resolve]
    exact hR.once id (hR.bind (resolveAll parts) fun _ s => hR.refl s) s
  | mapped id hint base f =>
    rw [Value.resolve]
    refine hR.once id (hR.bind (resolve base) fun bytes s => ?_) s
    exact hR.bind (fun s => hR.mark id s) (fun _ s => hR.refl s) s

theorem resolveAll (vs : List (Value Q)) (s : Session σ) :
    R s (Value.resolveAll answers vs s).2 := by
  cases vs with
  | nil => exact hR.refl s
  | cons v vs =>
    rw [Value.resolveAll]
    refine hR.bind (resolve v) (fun bytes s => ?_) s
    exact hR.bind (resolveAll vs) (fun _ s => hR.refl s) s

end

end Kept

/-- Outcomes of one session are there in another one. -/
def Settles (s t : Session σ) : Prop := ∀ id o, s.outcome? id = some o → t.outcome? id = some o

theorem kept_settles : Kept answers Settles where
  refl _ _ _ h := h
  trans h h' id o ho := h' id o (h id o ho)
  mark _ _ _ _ h := h
  ask _ _ _ _ h := h
  settle {id s t} o hn h id' o' ho := by
    have hne : id' ≠ id := by
      rintro rfl
      rw [hn] at ho
      cases ho
    rw [outcome?_settle, if_neg hne]
    exact h id' o' ho

end Session

namespace Value

open Session

theorem resolve_of_settled {v : Value Q} {id : Nat} {s : Session σ} {o : Outcome}
    (hv : v.id? = some id) (h : s.outcome? id = some o) : v.resolve answers s = (o, s) := by
  cases v with
  | known => cases hv
  | asked => cases hv; rw [resolve]; exact once_of_settled h _
  | joined => cases hv; rw [resolve]; exact once_of_settled h _
  | mapped => cases hv; rw [resolve]; exact once_of_settled h _

theorem resolve_settles {v : Value Q} {id : Nat} (s : Session σ) (hv : v.id? = some id) :
    (v.resolve answers s).2.outcome? id = some (v.resolve answers s).1 := by
  cases v with
  | known => cases hv
  | asked => cases hv; rw [resolve]; exact once_settles _ _ _
  | joined => cases hv; rw [resolve]; exact once_settles _ _ _
  | mapped => cases hv; rw [resolve]; exact once_settles _ _ _

theorem peek_eq_some {v : Value Q} {s : Session σ} {bytes : Bytes} (h : v.peek s = some bytes) :
    v = .known bytes ∨ ∃ id, v.id? = some id ∧ s.outcome? id = some (.ok bytes) := by
  rcases hv : v.id? with _ | id
  · left
    cases v with
    | known =>
      cases h
      rfl
    | _ => cases hv
  · right
    refine ⟨id, rfl, ?_⟩
    cases v <;> cases hv <;> simp only [peek, id?, Option.bind_some] at h <;> split at h <;>
      cases h <;> assumption

theorem resolve_of_peek {v : Value Q} {s : Session σ} {bytes : Bytes} (h : v.peek s = some bytes) :
    v.resolve answers s = (.ok bytes, s) := by
  rcases peek_eq_some h with rfl | ⟨id, hv, ho⟩
  · rw [resolve]
    rfl
  · exact resolve_of_settled hv ho

/-- What a value resolved to it resolves to ever after. -/
theorem resolve_again {v : Value Q} {s t : Session σ} (h : Settles (v.resolve answers s).2 t) :
    (v.resolve answers t).1 = (v.resolve answers s).1 := by
  rcases hv : v.id? with _ | id
  · cases v with
    | known bytes => rw [resolve]; rfl
    | _ => cases hv
  · rw [resolve_of_settled hv (h _ _ (resolve_settles s hv))]

/-- Resolve values one after the other, also those that come after one that fails. -/
def resolveEach (answers : Answers Q σ) : List (Value Q) → Session σ → List Outcome × Session σ
  | [], s => ([], s)
  | v :: vs, s =>
    let (o, s) := v.resolve answers s
    let (os, s) := resolveEach answers vs s
    (o :: os, s)

theorem resolveEach_cons (v : Value Q) (vs : List (Value Q)) (s : Session σ) :
    resolveEach answers (v :: vs) s =
      ((v.resolve answers s).1 :: (resolveEach answers vs (v.resolve answers s).2).1,
        (resolveEach answers vs (v.resolve answers s).2).2) := rfl

end Value

end ChainRead
