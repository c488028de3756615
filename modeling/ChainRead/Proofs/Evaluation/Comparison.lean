import ChainRead.Proofs.Evaluation.Correspondence

/-! # How evaluations in lockstep end

Evaluations in lockstep both return the same, or both fail with the same cause, or their sources
have answered a call differently. After they returned, values resolve to the same on both sides.
-/

namespace ChainRead

open Need Coupling

/-- What an evaluation leaves to be resolved: its outputs and the bytes that back its needs. -/
def Evaluation.Leaves (e : Evaluation) (v : Value Question) : Prop :=
  v ∈ e.outputs ∨ ∃ hash, .read (.hashed hash v) ∈ e.needs

theorem Env.evaluate_of_ok {σ : Type} {env : Env σ} {program : Program} {s : Session σ}
    {exitCode : UInt8} (h : (env.run program s).1 = .ok exitCode) :
    env.evaluate program s =
      (.ok (Env.evaluation exitCode (env.run program s).2), (env.run program s).2.session) := by
  unfold Env.evaluate
  rw [← Prod.eta (env.run program s), h]

theorem Env.evaluate_of_error {σ : Type} {env : Env σ} {program : Program} {s : Session σ}
    {cause : EvalError} (h : (env.run program s).1 = .error cause) :
    env.evaluate program s = (.error cause, (env.run program s).2.session) := by
  unfold Env.evaluate
  rw [← Prod.eta (env.run program s), h]

namespace Lockstep

variable {σ τ : Type} {L : Lockstep σ τ}

inductive Ending (L : Lockstep σ τ) (p : Except EvalError UInt8 × State (σ × List Call))
    (q : Except EvalError UInt8 × State τ) : Prop
  | both (w : Progress) (exitCode : UInt8) (left : p.1 = .ok exitCode) (right : q.1 = .ok exitCode)
    (outputs : p.2.outputs = q.2.outputs) (valid : ∀ v ∈ p.2.outputs, v.Valid w.1)
    (trace : p.2.trace = q.2.trace) (inv : L.Inv p.2.session q.2.session p.2.trace w)
  | failed (e : EvalError) (left : p.1 = .error e) (right : q.1 = .error e)
    (needs : p.2.trace.needs = q.2.trace.needs)
    (back : Back p.2.trace.needs p.2.session.source.2)
    (rel : L.rel p.2.session.source q.2.session.source)
  | gone (h : L.gone p.2.trace.needs p.2.session.source.2 (q.1.map fun _ => ())
      q.2.session.source q.2.trace.needs)

theorem error_of_map {α : Type} {r : Except EvalError α} {e : EvalError}
    (h : r.map (fun _ => ()) = .error e) : r = .error e := by
  cases r with
  | error => exact congrArg _ (Except.error.inj h)
  | ok => cases h

theorem run (program : Program) {x : σ} {y : τ} (h : L.rel (x, []) y) :
    L.Ending (Env.run ⟨L.left.logged, L.config⟩ program { source := (x, []) })
      (Env.run ⟨L.right, L.config⟩ program { source := y }) := by
  have hi : L.Inv { source := (x, []) } { source := y } (Trace.new L.config) (∅, False) :=
    ⟨rfl, rfl, h, Sound.start L.config x⟩
  cases (lawful L).run program (w := (∅, False)) ⟨rfl, hi⟩ with
  | both w a b _ left right post inv =>
    obtain ⟨_, outputs, trace, inv⟩ := inv
    obtain ⟨outputs, valid⟩ := values_iff.mp outputs
    exact .both w a left (right.trans (congrArg _ post.symm)) outputs valid trace inv
  | halted h =>
    rcases h with h | ⟨e, left, right, needs, back, rel⟩
    · exact .gone h
    · exact .failed e (error_of_map left) (error_of_map right) needs back rel

theorem Ending.back {p : Except EvalError UInt8 × State (σ × List Call)}
    {q : Except EvalError UInt8 × State τ} (h : L.Ending p q)
    (hg : ∀ {needs calls r t m}, ¬ L.gone needs calls r t m) :
    Back p.2.trace.needs p.2.session.source.2 := by
  cases h with
  | both w _ _ _ _ _ _ inv => exact inv.sound.back
  | failed _ _ _ _ back => exact back
  | gone h => exact (hg h).elim

variable {s : Session (σ × List Call)} {s' : Session τ} {t : Trace Question} {w : Progress}

theorem Inv.resolve (hi : L.Inv s s' t w) (hg : ∀ {calls r u m}, ¬ L.gone t.needs calls r u m)
    {v : Value Question} (hv : v.Valid w.1) :
    (v.resolve L.left.logged.answers s).1 = (v.resolve L.right.answers s').1 ∧
      (∀ e, (v.resolve L.right.answers s').1 = .error e → e.FromSource) ∧
      L.Inv (v.resolve L.left.logged.answers s).2 (v.resolve L.right.answers s').2 t w := by
  cases (Lockstep.resolve hv).run (w := ()) trivial hi with
  | both _ a b _ left right post inv =>
    refine ⟨left.trans ((congrArg _ post).trans right.symm), fun e he => ?_, inv⟩
    rw [right] at he
    cases he
  | halted h =>
    rcases h with h | ⟨e, left, right, he, inv⟩
    · exact (hg h).elim
    · have right := error_of_map right
      refine ⟨(error_of_map left).trans right.symm, fun e' he' => ?_, inv⟩
      rw [right] at he'
      cases he'
      exact he

theorem Inv.resolveEach (hi : L.Inv s s' t w) (hg : ∀ {calls r u m}, ¬ L.gone t.needs calls r u m)
    {vs : List (Value Question)} (hv : ∀ v ∈ vs, v.Valid w.1) :
    (Value.resolveEach L.left.logged.answers vs s).1 = (Value.resolveEach L.right.answers vs s').1 ∧
      L.Inv (Value.resolveEach L.left.logged.answers vs s).2
        (Value.resolveEach L.right.answers vs s').2 t w := by
  induction vs generalizing s s' with
  | nil => exact ⟨rfl, hi⟩
  | cons v vs ih =>
    rw [List.forall_mem_cons] at hv
    obtain ⟨hr, _, hi⟩ := hi.resolve hg hv.1
    obtain ⟨ho, hi⟩ := ih hi hv.2
    rw [Value.resolveEach_cons, Value.resolveEach_cons]
    exact ⟨List.cons_eq_cons.mpr ⟨hr, ho⟩, hi⟩

/-- The sessions after both evaluations gave `e`, whose needs are those of a trace `t`. -/
structure Together (L : Lockstep σ τ) (e : Evaluation) (s : Session (σ × List Call))
    (s' : Session τ) (t : Trace Question) (w : Progress) : Prop where
  needs : e.needs = t.needs
  inv : L.Inv s s' t w
  valid : ∀ v, e.Leaves v → v.Valid w.1

inductive Verdict (L : Lockstep σ τ) (p : Except EvalError Evaluation × Session (σ × List Call))
    (q : Except EvalError Evaluation × Session τ) : Prop
  | both (e : Evaluation) (t : Trace Question) (w : Progress) (left : p.1 = .ok e)
    (right : q.1 = .ok e) (together : L.Together e p.2 q.2 t w)
  | failed (e : EvalError) (left : p.1 = .error e) (right : q.1 = .error e)
  | gone {needs m : List (Need Question)} {calls : List Call} {r : Except EvalError Unit} {u : τ}
    (h : L.gone needs calls r u m) (left : ∀ e, p.1 = .ok e → e.needs = needs)

theorem evaluate (program : Program) {x : σ} {y : τ} (h : L.rel (x, []) y) :
    L.Verdict (Env.evaluate ⟨L.left.logged, L.config⟩ program { source := (x, []) })
      (Env.evaluate ⟨L.right, L.config⟩ program { source := y }) := by
  cases L.run program h with
  | both w exitCode left right outputs valid trace inv =>
    rw [Env.evaluate_of_ok left, Env.evaluate_of_ok right]
    have he : Env.evaluation exitCode (Env.run ⟨L.right, L.config⟩ program { source := y }).2 =
        Env.evaluation exitCode
          (Env.run ⟨L.left.logged, L.config⟩ program { source := (x, []) }).2 := by
      simp only [Env.evaluation, outputs, trace]
    refine .both _ _ w rfl (congrArg _ he) ⟨rfl, inv, ?_⟩
    rintro v (hv | ⟨hash, hv⟩)
    · exact valid v hv
    · exact inv.sound.supplied (hash, v) (mem_supplied.mpr hv)
  | failed e left right =>
    rw [Env.evaluate_of_error left, Env.evaluate_of_error right]
    exact .failed e rfl rfl
  | gone hg =>
    refine .gone hg fun e he => ?_
    rcases hr : (Env.run ⟨L.left.logged, L.config⟩ program { source := (x, []) }).1 with
      c | exitCode
    · rw [Env.evaluate_of_error hr] at he
      cases he
    · rw [Env.evaluate_of_ok hr] at he
      cases he
      rfl

end Lockstep

end ChainRead
