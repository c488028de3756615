import ChainRead.Proofs.Evaluation.Coupling
import ChainRead.Proofs.Evaluation.Soundness

/-! # Sources in lockstep

Two sources are compared as long as they answer the same calls in the same way. The left one logs
its calls. A call that they answer differently ends the comparison, and then something is known of
the calls up to it and of the needs that cover them.
-/

namespace ChainRead

open Need

structure Lockstep (σ τ : Type) where
  config : Config
  left : Source σ
  right : Source τ
  /-- The states of the sources while they have answered the same. -/
  rel : σ × List Call → τ → Prop
  /-- What is known once they have not: the needs and calls of the left evaluation, and the result,
  the source's state and the needs of the right one. -/
  gone : List (Need Question) → List Call → Except EvalError Unit → τ → List (Need Question) → Prop
  gone_left : ∀ {needs needs' calls calls' r t m}, gone needs calls r t m → Grows needs needs' →
    calls <:+ calls' → gone needs' calls' r t m
  gone_right : ∀ {needs calls t m} r t' m', gone needs calls (.ok ()) t m → gone needs calls r t' m'
  step : ∀ {s calls t} (c : Call), rel (s, calls) t →
    ((left.answer c s).1 = (right.answer c t).1 ∧
      rel ((left.answer c s).2, c :: calls) (right.answer c t).2) ∨
    ∀ needs r, Back needs (c :: calls) →
      (∀ cause, (right.answer c t).1 = .error cause → r = .error (.backing cause)) →
      gone needs (c :: calls) r (right.answer c t).2 needs

namespace Lockstep

variable {σ τ : Type} (L : Lockstep σ τ)

/-- The sessions differ only in their sources, and the left one is sound. -/
structure Inv (s : Session (σ × List Call)) (s' : Session τ) (t : Trace Question) (w : Progress) :
    Prop where
  next : s.next = s'.next
  settled : s.settled = s'.settled
  rel : L.rel s.source s'.source
  sound : Sound L.config.proofLimit [] w s t

def session (w : Progress) (t : Trace Question) :
    Coupling Unit (Session (σ × List Call)) (Session τ) where
  inv s s' _ := L.Inv s s' t w
  ended p q := L.gone t.needs p.2.source.2 q.1 q.2.source t.needs ∨
    ∃ e, p.1 = .error e ∧ q.1 = .error e ∧ e.FromSource ∧ L.Inv p.2 q.2 t w
  ended_left {s q} e h := by
    rcases h with h | ⟨_, h, _⟩
    · exact Or.inl h
    · cases h
  ended_right {p n} q h := by
    rcases h with h | ⟨_, _, h, _⟩
    · exact Or.inl (L.gone_right _ _ _ h)
    · cases h

variable {L} {w : Progress} {t : Trace Question} {α : Type}

open Coupling Session

theorem Inv.outcome? {s : Session (σ × List Call)} {s' : Session τ} (h : L.Inv s s' t w)
    (id : Nat) : s'.outcome? id = s.outcome? id := by
  unfold Session.outcome?
  rw [h.settled]

theorem Inv.settle {s : Session (σ × List Call)} {s' : Session τ} (h : L.Inv s s' t w) (id : Nat)
    {o : Outcome} (ho : ∀ e, o = .error e → e.FromSource) :
    L.Inv { s with settled := (id, o) :: s.settled } { s' with settled := (id, o) :: s'.settled }
      t w :=
  ⟨h.next, congrArg _ h.settled, h.rel, h.sound.settle id ho⟩

theorem Inv.answer {s : Session (σ × List Call)} {s' : Session τ} (h : L.Inv s s' t w) {id : Nat}
    {q : Question} (hq : (id, q) ∈ w.1) (hs : s.outcome? id = none) {o : Outcome}
    (ho : ∀ e, o = .error e → e.FromSource) {source : σ} {source' : τ}
    (hr : L.rel (source, q.call :: s.source.2) source') (ran ran' : List Nat) :
    L.Inv
      { s with source := (source, q.call :: s.source.2), settled := (id, o) :: s.settled, ran }
      { s' with source := source', settled := (id, o) :: s'.settled, ran := ran' } t w :=
  ⟨h.next, congrArg _ h.settled, hr, h.sound.answer hq hs ho source ran⟩

theorem stays {p p' : Except EvalError Unit × Session (σ × List Call)}
    {q : Except EvalError Unit × Session τ} (hp : p.1 = .ok ())
    (h : (L.session w t).ended p q) (hc : p.2.source.2 <:+ p'.2.source.2) :
    (L.session w t).ended p' q := by
  rcases h with h | ⟨e, h, _⟩
  · exact Or.inl (L.gone_left h (.refl _) hc)
  · rw [hp] at h
    cases h

theorem Inv.result {s : Session (σ × List Call)} {s' : Session τ} (h : L.Inv s s' t w) {o : Outcome}
    (ho : ∀ e, o = .error e → e.FromSource) :
    (L.session w t).Result () same (o, s) (o, s') := by
  rcases o with e | bytes
  · exact .halted (Or.inr ⟨e, rfl, rfl, ho e rfl, h⟩)
  · exact .both () bytes bytes le_rfl rfl rfl rfl h

theorem once (id : Nat) {x : Fallible EvalError (Session (σ × List Call)) Bytes}
    {y : Fallible EvalError (Session τ) Bytes} (h : (L.session w t).Follows ⊤ x y same)
    (hc : ∀ s, s.source.2 <:+ (x s).2.source.2) :
    (L.session w t).Follows ⊤ (Session.once id x) (Session.once id y) same where
  run {u s s'} _ h₀ := by
    have hi : L.Inv s s' t w := h₀
    rcases ho : s.outcome? id with _ | o
    · have ho' : s'.outcome? id = none := (hi.outcome? id).trans ho
      rw [once_of_not_settled ho, once_of_not_settled ho']
      cases h.run trivial h₀ with
      | both v a b le left right post inv =>
        have hab : a = b := post
        rw [left, right, hab]
        exact (Inv.settle inv id (o := .ok b) fun e he => nomatch he).result fun e he => nomatch he
      | halted h =>
        rcases h with h | ⟨e, left, right, he, inv⟩
        · exact .halted (Or.inl h)
        · have ho : ∀ e', (Except.error e : Outcome) = .error e' → e'.FromSource := by
            rintro _ ⟨⟩
            exact he
          rw [eq_error_of_forget left, eq_error_of_forget right]
          exact (Inv.settle inv id ho).result ho
    · have ho' : s'.outcome? id = some o := (hi.outcome? id).trans ho
      rw [once_of_settled ho, once_of_settled ho']
      refine hi.result fun e he => hi.sound.failures id e ?_
      rw [ho, he]
  stays {s q} h := by
    refine L.stays rfl h ?_
    show s.source.2 <:+ (Session.once id x s).2.source.2
    rcases ho : s.outcome? id with _ | o
    · rw [once_of_not_settled ho]
      exact hc s
    · rw [once_of_settled ho]

/-- Both sides ask the same question, or the comparison ends there. -/
theorem asked {id : Nat} {q : Question} (hq : (id, q) ∈ w.1) : (L.session w t).Follows ⊤
    (Session.once id (mark id >>= fun _ => ask L.left.logged.answers q))
    (Session.once id (mark id >>= fun _ => ask L.right.answers q)) same where
  run {u s s'} _ hi := by
    have hi : L.Inv s s' t w := hi
    rcases ho : s.outcome? id with _ | o
    · have ho' : s'.outcome? id = none := (hi.outcome? id).trans ho
      rw [once_of_not_settled ho, once_of_not_settled ho']
      simp only [Fallible.bind_apply, mark, ask_apply, Source.answers_apply, Source.logged_answer]
      have hs := fun e => q.finish_fromSource (r := (L.left.answer q.call s.source.1).1) (e := e)
      rcases L.step q.call hi.rel with ⟨he, hr⟩ | hg
      · rw [← he]
        exact (hi.answer hq ho hs hr _ _).result hs
      · have hb := (hi.sound.answer hq ho hs (L.left.answer q.call s.source.1).2 s.ran).back
        refine .halted (Or.inl (hg _ _ hb fun cause hc => ?_))
        simp only [forget, q.finish_error hc]
        rfl
    · have ho' : s'.outcome? id = some o := (hi.outcome? id).trans ho
      rw [once_of_settled ho, once_of_settled ho']
      refine hi.result fun e he => hi.sound.failures id e ?_
      rw [ho, he]
  stays {s q} h := by
    refine L.stays rfl h ?_
    exact L.left.kept_log.once id (L.left.kept_log.bind (fun s => List.suffix_rfl)
      fun _ s => L.left.kept_log.ask _ s) s

theorem resolveAll {vs : List (Value Question)}
    (h : ∀ v ∈ vs, (L.session w t).Follows ⊤ (v.resolve L.left.logged.answers)
      (v.resolve L.right.answers) same) :
    (L.session w t).Follows ⊤ (Value.resolveAll L.left.logged.answers vs)
      (Value.resolveAll L.right.answers vs) same := by
  induction vs with
  | nil => exact .pure fun _ _ => rfl
  | cons v vs ih =>
    rw [List.forall_mem_cons] at h
    rw [Value.resolveAll, Value.resolveAll]
    exact h.1.bind_same fun bytes => (ih h.2).bind_same fun rest => .pure fun _ _ => rfl

theorem resolve {v : Value Question} (hv : v.Valid w.1) :
    (L.session w t).Follows ⊤ (v.resolve L.left.logged.answers) (v.resolve L.right.answers)
      same := by
  have kept := L.left.kept_log
  induction hv with
  | known bytes =>
    rw [Value.resolve, Value.resolve]
    exact .pure fun _ _ => rfl
  | asked hq =>
    rw [Value.resolve, Value.resolve]
    exact asked hq
  | @joined id hint parts _ ih =>
    rw [Value.resolve, Value.resolve]
    apply once id ((resolveAll ih).bind_same fun bytes => .pure fun _ _ => rfl)
    intro s
    exact kept.bind (kept.resolveAll parts) (fun _ s => List.suffix_rfl) s
  | @mapped id hint base f _ total ih =>
    rw [Value.resolve, Value.resolve]
    refine once id (ih.bind_same fun bytes => ?_) fun s => ?_
    · obtain ⟨result, hf⟩ := total bytes
      rw [hf]
      refine ⟨fun {u s s'} _ hi => ?_, fun h => L.stays rfl h List.suffix_rfl⟩
      have hi : L.Inv s s' t w := hi
      exact .both u result result le_rfl rfl rfl rfl
        ⟨hi.next, hi.settled, hi.rel, hi.sound.mark _⟩
    · refine kept.bind (kept.resolve base) (fun bytes s => ?_) s
      exact kept.bind (fun s => List.suffix_rfl) (fun _ s => List.suffix_rfl) s

end Lockstep

end ChainRead
