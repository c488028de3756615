import Mathlib.Logic.Relation
import ChainRead.Proofs.Value.Resolve

/-! # Computing values one by one

Resolving a value computes some of its parts, each after the parts that it is made of: a part is
computed only if it has no outcome yet, and has one from then on. Numbers that grow from the parts
to the whole keep a value from being computed while it waits for its parts.
-/

namespace ChainRead

variable {Q σ : Type} {answers : Answers Q σ}

namespace Value

/-- What a value is or resolved to, if it did. -/
def outcome? (s : Session σ) : Value Q → Option Outcome
  | known bytes => some (.ok bytes)
  | v => v.id?.bind s.outcome?

section Outcomes

variable {v : Value Q} {s t : Session σ} {o : Outcome}

theorem eq_known (h : v.id? = none) : ∃ bytes, v = known bytes := by
  cases v with
  | known bytes => exact ⟨bytes, rfl⟩
  | asked | joined | mapped => cases h

theorem outcome?_of_id? {id : Nat} (h : v.id? = some id) : v.outcome? s = s.outcome? id := by
  cases v with
  | known => cases h
  | asked | joined | mapped => cases h; rfl

theorem resolve_of_outcome? (h : v.outcome? s = some o) : v.resolve answers s = (o, s) := by
  rcases hv : v.id? with _ | id
  · obtain ⟨bytes, rfl⟩ := eq_known hv
    cases h
    rw [resolve]
    rfl
  · exact resolve_of_settled hv (outcome?_of_id? hv ▸ h)

theorem outcome?_resolve (answers : Answers Q σ) (v : Value Q) (s : Session σ) :
    v.outcome? (v.resolve answers s).2 = some (v.resolve answers s).1 := by
  rcases hv : v.id? with _ | id
  · obtain ⟨bytes, rfl⟩ := eq_known hv
    rw [resolve]
    rfl
  · rw [outcome?_of_id? hv, resolve_settles s hv]

theorem outcome?_mono (h : Session.Settles s t) (ho : v.outcome? s = some o) :
    v.outcome? t = some o := by
  rcases hv : v.id? with _ | id
  · obtain ⟨bytes, rfl⟩ := eq_known hv
    exact ho
  · rw [outcome?_of_id? hv] at ho ⊢
    exact h id o ho

theorem peek_eq (v : Value Q) (s : Session σ) :
    v.peek s = (v.outcome? s).bind Except.toOption := by
  cases v with
  | known => rfl
  | asked id | joined id | mapped id =>
    simp only [peek, outcome?, id?, Option.bind_some]
    rcases s.outcome? id with _ | _ | _ <;> rfl

end Outcomes

/-! ## Parts -/

/-- A value is a part of itself and of what is made of it. -/
inductive Part (w : Value Q) : Value Q → Prop
  | self : Part w w
  | joined {v : Value Q} {id : Nat} {hint : Option Nat} {parts : List (Value Q)} :
      v ∈ parts → Part w v → Part w (.joined id hint parts)
  | mapped {id : Nat} {hint : Option Nat} {base : Value Q} {f : Bytes → Outcome} :
      Part w base → Part w (.mapped id hint base f)

def Below (n : Nat) (v : Value Q) : Prop := ∀ id, v.id? = some id → id < n

inductive Ordered : Value Q → Prop
  | known (bytes : Bytes) : Ordered (.known bytes)
  | asked (id : Nat) (hint : Option Nat) (q : Q) : Ordered (.asked id hint q)
  | joined {id : Nat} {hint : Option Nat} {parts : List (Value Q)} :
      (∀ v ∈ parts, Ordered v) → (∀ v ∈ parts, v.Below id) → Ordered (.joined id hint parts)
  | mapped {id : Nat} {hint : Option Nat} {base : Value Q} {f : Bytes → Outcome} :
      Ordered base → base.Below id → Ordered (.mapped id hint base f)

theorem Ordered.base {id : Nat} {hint : Option Nat} {v : Value Q} {f : Bytes → Outcome}
    (h : (Value.mapped id hint v f).Ordered) : v.Ordered ∧ v.Below id := by
  cases h with | mapped h hb =>
  exact ⟨h, hb⟩

theorem Below.mono {v : Value Q} {m n : Nat} (h : v.Below m) (hn : m ≤ n) : v.Below n :=
  fun id hid => Nat.lt_of_lt_of_le (h id hid) hn

theorem Ordered.below_part {v w : Value Q} (h : v.Ordered) (hw : w.Part v) {n : Nat}
    (hv : v.Below n) : w.Below n := by
  induction hw generalizing n with
  | self => exact hv
  | joined hm _ ih =>
    cases h with | joined h hb =>
    exact ih (h _ hm) ((hb _ hm).mono (Nat.le_of_lt (hv _ rfl)))
  | mapped _ ih =>
    cases h with | mapped h hb =>
    exact ih h (hb.mono (Nat.le_of_lt (hv _ rfl)))

end Value

namespace Session

open Value

/-- A value without an outcome is computed from those of its parts. -/
inductive Computes (answers : Answers Q σ) (s : Session σ) : Value Q → Session σ → Prop
  | asked {id : Nat} {hint : Option Nat} {q : Q} (hn : s.outcome? id = none) :
      Computes answers s (.asked id hint q) { s with
        source := (answers q s.source).2
        settled := (id, (answers q s.source).1) :: s.settled
        ran := id :: s.ran }
  | joined {id : Nat} {hint : Option Nat} {parts : List (Value Q)} {o : Outcome}
      (hn : s.outcome? id = none) :
      Computes answers s (.joined id hint parts) { s with settled := (id, o) :: s.settled }
  | applied {id : Nat} {hint : Option Nat} {base : Value Q} {f : Bytes → Outcome} {bytes : Bytes}
      (hn : s.outcome? id = none) (hb : base.outcome? s = some (.ok bytes)) :
      Computes answers s (.mapped id hint base f) { s with
        settled := (id, f bytes) :: s.settled
        ran := id :: s.ran }
  | passed {id : Nat} {hint : Option Nat} {base : Value Q} {f : Bytes → Outcome} {e : EvalError}
      (hn : s.outcome? id = none) (hb : base.outcome? s = some (.error e)) :
      Computes answers s (.mapped id hint base f) { s with
        settled := (id, .error e) :: s.settled }

inductive Path (answers : Answers Q σ) (P : Value Q → Prop) (s : Session σ) : Session σ → Prop
  | refl : Path answers P s s
  | tail {t u : Session σ} {w : Value Q} :
      Path answers P s t → P w → Computes answers t w u → Path answers P s u

section Computations

variable {s t u : Session σ} {w : Value Q}

/-- Computing a value settles its number, and does at most its own work. -/
theorem Computes.effect (h : Computes answers s w t) :
    ∃ id o, w.id? = some id ∧ s.outcome? id = none ∧ t.settled = (id, o) :: s.settled ∧
      t.next = s.next ∧ (t.ran = s.ran ∨ t.ran = id :: s.ran) := by
  cases h with
  | asked hn => exact ⟨_, _, rfl, hn, rfl, rfl, Or.inr rfl⟩
  | joined hn => exact ⟨_, _, rfl, hn, rfl, rfl, Or.inl rfl⟩
  | applied hn => exact ⟨_, _, rfl, hn, rfl, rfl, Or.inr rfl⟩
  | passed hn => exact ⟨_, _, rfl, hn, rfl, rfl, Or.inl rfl⟩

theorem outcome?_of_settled {id : Nat} {o : Outcome} (h : t.settled = (id, o) :: s.settled)
    (i : Nat) : t.outcome? i = if i = id then some o else s.outcome? i := by
  rw [← outcome?_settle id o s i]
  show t.settled.lookup i = _
  rw [h]
  rfl

theorem Computes.settles (h : Computes answers s w t) : Settles s t := by
  obtain ⟨id, o, -, hn, hs, -, -⟩ := h.effect
  intro i r hi
  rw [outcome?_of_settled hs, if_neg ?_, hi]
  rintro rfl
  cases hn.symm.trans hi

namespace Path

variable {P P' : Value Q → Prop}

theorem trans (h : Path answers P s t) (h' : Path answers P t u) : Path answers P s u := by
  induction h' with
  | refl => exact h
  | tail _ hw hc ih => exact ih.tail hw hc

theorem mono (h : Path answers P s t) (hP : ∀ w, P w → P' w) : Path answers P' s t := by
  induction h with
  | refl => exact .refl
  | tail _ hw hc ih => exact ih.tail (hP _ hw) hc

theorem outcome?_eq (h : Path answers P s t) {id : Nat} (hP : ∀ w, P w → w.Below id) :
    t.outcome? id = s.outcome? id := by
  induction h with
  | refl => rfl
  | tail _ hw hc ih =>
    obtain ⟨i, o, hi, -, hs, -, -⟩ := hc.effect
    rw [outcome?_of_settled hs, if_neg (Nat.ne_of_gt (hP _ hw i hi)), ih]

theorem ran_eq (h : Path answers P s t) :
    ∃ now, t.ran = now ++ s.ran ∧ ∀ id ∈ now, ∃ w, P w ∧ w.id? = some id := by
  induction h with
  | refl => exact ⟨[], rfl, nofun⟩
  | tail _ hw hc ih =>
    obtain ⟨now, hnow, hP⟩ := ih
    obtain ⟨id, -, hid, -, -, -, hr | hr⟩ := hc.effect
    · exact ⟨now, hr.trans hnow, hP⟩
    · refine ⟨id :: now, by rw [hr, hnow]; rfl, List.forall_mem_cons.mpr ⟨⟨_, hw, hid⟩, hP⟩⟩

end Path

end Computations

end Session

namespace Value

open Session

/-! ## Resolving -/

section Computations

variable {s : Session σ} {id : Nat} {hint : Option Nat}

theorem computes_asked {q : Q} (hn : s.outcome? id = none) :
    Computes answers s (.asked id hint q) ((asked id hint q).resolve answers s).2 := by
  rw [resolve, once_of_not_settled hn]
  exact .asked hn

theorem resolve_joined {parts : List (Value Q)} (hn : s.outcome? id = none) :
    ((joined id hint parts).resolve answers s).2 =
      { (resolveAll answers parts s).2 with
        settled := (id, ((joined id hint parts).resolve answers s).1) ::
          (resolveAll answers parts s).2.settled } := by
  rw [resolve, once_of_not_settled hn, Fallible.bind_apply]
  rcases resolveAll answers parts s with ⟨_ | _, t⟩ <;> rfl

theorem computes_mapped {base : Value Q} {f : Bytes → Outcome} (hn : s.outcome? id = none)
    (hb : (base.resolve answers s).2.outcome? id = none) :
    Computes answers (base.resolve answers s).2 (.mapped id hint base f)
      ((mapped id hint base f).resolve answers s).2 := by
  have ho := outcome?_resolve answers base s
  rw [resolve, once_of_not_settled hn, Fallible.bind_apply]
  rcases hr : base.resolve answers s with ⟨e | bytes, t⟩ <;> rw [hr] at hb ho
  · exact .passed hb ho
  · exact .applied hb ho

end Computations

mutual

/-- A value is resolved by computing parts of it. -/
theorem Ordered.path (v : Value Q) (h : v.Ordered) (s : Session σ) :
    Path answers (·.Part v) s (v.resolve answers s).2 := by
  rcases hv : v.outcome? s with _ | o
  · cases v with
    | known => cases hv
    | asked id hint q => exact .tail .refl .self (computes_asked hv)
    | joined id hint parts =>
      cases h with | joined h hb =>
      have path := pathAll parts h s
      have hn : (resolveAll answers parts s).2.outcome? id = s.outcome? id :=
        path.outcome?_eq fun w ⟨v, hm, hw⟩ => (h v hm).below_part hw (hb v hm)
      rw [resolve_joined hv]
      exact (path.mono fun w ⟨v, hm, hw⟩ => .joined hm hw).tail .self (.joined (hn.trans hv))
    | mapped id hint base f =>
      obtain ⟨h, hb⟩ := h.base
      have path := Ordered.path base h s
      have hn : (base.resolve answers s).2.outcome? id = s.outcome? id :=
        path.outcome?_eq fun w hw => h.below_part hw hb
      exact (path.mono fun w hw => .mapped hw).tail .self (computes_mapped hv (hn.trans hv))
  · rw [resolve_of_outcome? hv]
    exact .refl

theorem pathAll (vs : List (Value Q)) (h : ∀ v ∈ vs, v.Ordered) (s : Session σ) :
    Path answers (fun w => ∃ v ∈ vs, w.Part v) s (resolveAll answers vs s).2 := by
  cases vs with
  | nil => exact .refl
  | cons v vs =>
    rw [List.forall_mem_cons] at h
    have first : Path answers (fun w => ∃ u ∈ v :: vs, w.Part u) s (v.resolve answers s).2 :=
      (Ordered.path v h.1 s).mono fun w hw => ⟨v, List.mem_cons_self, hw⟩
    rw [resolveAll, Fallible.bind_apply]
    rcases hv : v.resolve answers s with ⟨e | bytes, t⟩ <;> rw [hv] at first
    · exact first
    · have rest : Path answers (fun w => ∃ u ∈ v :: vs, w.Part u) t (resolveAll answers vs t).2 :=
        (pathAll vs h.2 t).mono fun w ⟨u, hu, hw⟩ => ⟨u, List.mem_cons_of_mem v hu, hw⟩
      dsimp only
      rw [Fallible.bind_apply]
      rcases hs : resolveAll answers vs t with ⟨e | bs, t'⟩ <;> rw [hs] at rest <;>
        exact first.trans rest

end

end Value

end ChainRead
