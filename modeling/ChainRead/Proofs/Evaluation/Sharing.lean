import ChainRead.Proofs.Evaluation.Calls
import ChainRead.Proofs.Source.Alike
import ChainRead.Proofs.Source.Caching

/-! # Caches are transparent

A source is used by making calls, by requests whose answers are waited for later, and by evaluations
whose outputs are resolved and whose needs are proven. A source that answers by the arguments of a
call gives the same behind caches, whatever these still hold from earlier uses.
-/

namespace ChainRead

variable {σ τ : Type}

namespace Lockstep

def alike (config : Config) {src : Source σ} {src' : Source τ} {R : σ → τ → Prop}
    (h : src.Alike src' R) : Lockstep σ τ where
  config := config
  left := src
  right := src'
  rel s t := R s.1 t
  gone _ _ _ _ _ := False
  gone_left h _ _ := h
  gone_right _ _ _ h := h
  step c hr := Or.inl ((h c).same hr)

end Lockstep

structure SameRun (R : σ → τ → Prop) (p : Except EvalError UInt8 × State σ)
    (q : Except EvalError UInt8 × State τ) : Prop where
  result : p.1 = q.1
  source : R p.2.session.source q.2.session.source
  evaluation : ∀ exitCode, p.1 = .ok exitCode →
    Env.evaluation exitCode p.2 = Env.evaluation exitCode q.2
  session : ∀ exitCode, p.1 = .ok exitCode → Session.Over R p.2.session q.2.session

namespace Source.Alike

variable {src : Source σ} {src' : Source τ} {R : σ → τ → Prop} (h : src.Alike src' R)
include h

theorem logged_run (config : Config) (program : Program) {x : σ} {y : τ} (hr : R x y) :
    SameRun (fun s t => R s.1 t) (Env.run ⟨src.logged, config⟩ program { source := (x, []) })
      (Env.run ⟨src', config⟩ program { source := y }) := by
  cases (Lockstep.alike config h).run program (x := x) hr with
  | both w exitCode left right outputs _ trace inv =>
    refine ⟨left.trans right.symm, inv.rel, fun _ _ => ?_, fun _ _ => ?_⟩
    · exact congrArg₂ (fun o (t : Trace Question) => (⟨_, o, t.needs⟩ : Evaluation)) outputs trace
    · exact ⟨inv.next, inv.settled, inv.rel⟩
  | failed e left right _ _ rel =>
    have failed {exitCode : UInt8} (ho : _ = Except.ok exitCode) : False :=
      nomatch left.symm.trans ho
    exact ⟨left.trans right.symm, rel, fun _ ho => (failed ho).elim, fun _ ho => (failed ho).elim⟩
  | gone h => cases h

theorem run (config : Config) (program : Program) {x : σ} {y : τ} (hr : R x y) :
    SameRun R (Env.run ⟨src, config⟩ program { source := x })
      (Env.run ⟨src', config⟩ program { source := y }) := by
  have itself : src.Alike src Eq := fun c => .of_same fun h => by rw [h]; exact ⟨rfl, rfl⟩
  have hp := itself.logged_run config program (x := x) rfl
  have hq := h.logged_run config program hr
  have hs := hp.source ▸ hq.source
  constructor
  · exact hp.result.symm.trans hq.result
  · exact hs
  · intro exitCode ho
    have ho := hp.result.trans ho
    exact (hp.evaluation exitCode ho).symm.trans (hq.evaluation exitCode ho)
  · intro exitCode ho
    have ho := hp.result.trans ho
    have hp := hp.session exitCode ho
    have hq := hq.session exitCode ho
    exact ⟨hp.next.symm.trans hq.next, hp.settled.symm.trans hq.settled, hs⟩

theorem evaluate (config : Config) (program : Program) {x : σ} {y : τ} (hr : R x y) :
    let p := Env.evaluate ⟨src, config⟩ program { source := x }
    let q := Env.evaluate ⟨src', config⟩ program { source := y }
    p.1 = q.1 ∧ R p.2.source q.2.source ∧ ∀ e, p.1 = .ok e → Session.Over R p.2 q.2 := by
  have hs := h.run config program hr
  rcases hl : (Env.run ⟨src, config⟩ program { source := x }).1 with cause | exitCode
  · rw [Env.evaluate_of_error hl, Env.evaluate_of_error (hs.result ▸ hl)]
    exact ⟨rfl, hs.source, fun _ h => nomatch h⟩
  · rw [Env.evaluate_of_ok hl, Env.evaluate_of_ok (hs.result ▸ hl)]
    exact ⟨congrArg _ (hs.evaluation exitCode hl), hs.source, fun _ _ => hs.session exitCode hl⟩

end Source.Alike

/-! ## Uses of a source -/

inductive Phase
  | outputs
  | proofs

inductive Product
  | outputs (result : Except EvalError (List Bytes))
  | proofs (result : Except EvalError ProofSequence)

inductive Use (σ : Type)
  | call (c : Call)
  | request (c : Call)
  /-- Wait for the answer to an earlier request. -/
  | wait (index : Nat)
  | clear
  /-- The state moves on by itself, and so may its clock. -/
  | advance (f : σ → σ)
  | evaluate (config : Config) (program : Program) (phases : List Phase)

inductive Reply
  | nothing
  | answer (c : Call) (result : Except BackingError c.Answer)
  | evaluation (result : Except EvalError (Evaluation × List Product))

namespace Evaluation

variable (e : Evaluation) (src : Source τ)

def product : Phase → StateM (Session τ) Product
  | .outputs => fun s =>
    let (result, s) := e.resolveOutputs src.answers s
    (.outputs result, s)
  | .proofs => fun s =>
    let (result, s) := prove src src.answers e.needs s
    (.proofs result, s)

def products : List Phase → StateM (Session τ) (List Product)
  | [] => pure []
  | phase :: phases => do
    let product ← e.product src phase
    let rest ← products phases
    return product :: rest

end Evaluation

/-- Evaluate a program, and then make something of the evaluation. -/
def Source.perform (src : Source τ) (config : Config) (program : Program) (phases : List Phase) :
    StateM τ (Except EvalError (Evaluation × List Product)) := fun source =>
  match Env.evaluate ⟨src, config⟩ program { source } with
  | (.error cause, s) => (.error cause, s.source)
  | (.ok e, s) =>
    let (products, s) := e.products src phases s
    (.ok (e, products), s.source)

/-- How a source is used whose state holds one of type `σ`. -/
structure Access (σ τ : Type) where
  source : Source τ
  request : Call → StateM τ Nat
  wait : (c : Call) → Nat → Fallible BackingError τ c.Answer
  clear : τ → τ
  advance : (σ → σ) → τ → τ

namespace Access

/-- Without a cache a request does nothing and the call is made when its answer is waited for. -/
def direct (src : Source σ) : Access σ σ where
  source := src
  request _ := pure 0
  wait c _ := src.answer c
  clear := id
  advance f := f

def cached (now : σ → Nat) (src : Source σ) : Access σ (Cached σ) where
  source := src.cached now
  request := Cached.request now
  wait := Cached.wait src
  clear := Cached.clear
  advance f s := { s with inner := f s.inner }

/-- The state of a source and the requests made so far, with the numbers that they got. -/
structure Usage (τ : Type) where
  state : τ
  requests : List (Call × Nat) := []

variable (A : Access σ τ)

def use : Use σ → StateM (Usage τ) Reply
  | .call c => fun u =>
    let (result, state) := A.source.answer c u.state
    (.answer c result, { u with state })
  | .request c => fun u =>
    let (id, state) := A.request c u.state
    (.nothing, ⟨state, u.requests ++ [(c, id)]⟩)
  | .wait index => fun u =>
    match u.requests[index]? with
    | none => (.nothing, u)
    | some (c, id) =>
      let (result, state) := A.wait c id u.state
      (.answer c result, { u with state })
  | .clear => fun u => (.nothing, { u with state := A.clear u.state })
  | .advance f => fun u => (.nothing, { u with state := A.advance f u.state })
  | .evaluate config program phases => fun u =>
    let (result, state) := A.source.perform config program phases u.state
    (.evaluation result, { u with state })

def useAll : List (Use σ) → StateM (Usage τ) (List Reply)
  | [] => pure []
  | use :: uses => do
    let reply ← A.use use
    let rest ← useAll uses
    return reply :: rest

theorem useAll_cons (use : Use σ) (uses : List (Use σ)) (u : Usage τ) :
    A.useAll (use :: uses) u = ((A.use use u).1 :: (A.useAll uses (A.use use u).2).1,
      (A.useAll uses (A.use use u).2).2) := rfl

end Access

/-! ## Caches do not show -/

section Products

variable {src : Source σ} {src' : Source τ} {R : σ → τ → Prop} (h : src.Alike src' R)
include h

theorem Evaluation.products_alike (e : Evaluation) (phases : List Phase) {s : Session σ}
    {t : Session τ} (hs : Session.Over R s t) :
    (e.products src phases s).1 = (e.products src' phases t).1 ∧
      Session.Over R (e.products src phases s).2 (e.products src' phases t).2 := by
  induction phases generalizing s t with
  | nil => exact ⟨rfl, hs⟩
  | cons phase phases ih =>
    have hp : (e.product src phase s).1 = (e.product src' phase t).1 ∧
        Session.Over R (e.product src phase s).2 (e.product src' phase t).2 := by
      cases phase with
      | outputs =>
        obtain ⟨hr, ho⟩ := (h.matched.resolveAll e.outputs).same hs
        exact ⟨congrArg Product.outputs hr, ho⟩
      | proofs =>
        obtain ⟨hr, ho⟩ := (h.prove e.needs).same hs
        exact ⟨congrArg Product.proofs hr, ho⟩
    obtain ⟨hrest, ho⟩ := ih hp.2
    exact ⟨congrArg₂ List.cons hp.1 hrest, ho⟩

theorem Source.Alike.perform (config : Config) (program : Program) (phases : List Phase) {x : σ}
    {y : τ} (hr : R x y) :
    (src.perform config program phases x).1 = (src'.perform config program phases y).1 ∧
      R (src.perform config program phases x).2 (src'.perform config program phases y).2 := by
  obtain ⟨he, hs, ho⟩ := h.evaluate config program hr
  unfold Source.perform
  rcases hp : Env.evaluate ⟨src, config⟩ program { source := x } with ⟨cause | e, s⟩ <;>
    rcases hq : Env.evaluate ⟨src', config⟩ program { source := y } with ⟨cause' | e', t⟩ <;>
    rw [hp, hq] at he hs <;> cases he
  · exact ⟨rfl, hs⟩
  · rw [hp, hq] at ho
    obtain ⟨hv, ho⟩ := e.products_alike h phases (ho e rfl)
    exact ⟨congrArg (fun ps => Except.ok (e, ps)) hv, ho.source⟩

end Products

open Access

/-- The caches hold what `f` answers, and what was requested is still there. -/
structure Cached.Holds (f : (c : Call) → Except BackingError c.Answer)
    (requests : List (Call × Nat)) (s : Cached σ) : Prop where
  faithful : s.Faithful f
  requested : ∀ p ∈ requests, s.Requested p.2 p.1

structure Access.Usage.Shared (f : (c : Call) → Except BackingError c.Answer) (u : Usage σ)
    (v : Usage (Cached σ)) : Prop where
  calls : u.requests.map Prod.fst = v.requests.map Prod.fst
  holds : v.state.Holds f v.requests

variable {f : (c : Call) → Except BackingError c.Answer}

theorem Cached.Holds.kept {requests : List (Call × Nat)} {s t : Cached σ}
    (h : s.Holds f requests) (hk : Kept f s t) : t.Holds f requests :=
  ⟨hk.faithful, fun p hp => hk.requested (h.requested p hp)⟩

theorem Source.AnswersBy.alike {src : Source σ} (hf : src.AnswersBy f) (now : σ → Nat)
    (requests : List (Call × Nat)) :
    src.Alike (src.cached now) fun _ s => s.Holds f requests := by
  refine fun c => .of_same fun {x s} hs => ?_
  obtain ⟨ha, hk⟩ := hs.faithful.answer hf now c
  exact ⟨(hf c x).trans ha.symm, hs.kept hk⟩

theorem Access.Usage.Shared.step {src : Source σ} (hf : src.AnswersBy f) (now : σ → Nat)
    (use : Use σ) {u : Usage σ} {v : Usage (Cached σ)} (h : u.Shared f v) :
    ((direct src).use use u).1 = ((cached now src).use use v).1 ∧
      ((direct src).use use u).2.Shared f ((cached now src).use use v).2 := by
  have hold := h.holds
  cases use with
  | call c =>
    obtain ⟨ha, hk⟩ := hold.faithful.answer hf now c
    exact ⟨congrArg (Reply.answer c) ((hf c u.state).trans ha.symm), h.calls, hold.kept hk⟩
  | request c =>
    obtain ⟨hr, hk⟩ := hold.faithful.request now c
    have hq : ∀ p ∈ v.requests ++ [(c, (Cached.request now c v.state).1)],
        (Cached.request now c v.state).2.Requested p.2 p.1 :=
      List.forall_mem_append.mpr
        ⟨(hold.kept hk).requested, List.forall_mem_singleton.mpr hr⟩
    refine ⟨rfl, ?_, hk.faithful, hq⟩
    show (u.requests ++ [_]).map Prod.fst = (v.requests ++ [_]).map Prod.fst
    simp [h.calls]
  | wait index =>
    have hi := congrArg (fun l => l[index]?) h.calls
    simp only [List.getElem?_map] at hi
    unfold Access.use
    rcases hu : u.requests[index]? with _ | ⟨c, id⟩ <;>
      rcases hv : v.requests[index]? with _ | ⟨c', id'⟩ <;> simp only [hu, hv] at hi ⊢ <;> cases hi
    · exact ⟨trivial, h⟩
    · have hr := hold.requested _ (List.mem_of_getElem? hv)
      obtain ⟨ha, hk⟩ := hold.faithful.wait hf hr
      exact ⟨congrArg (Reply.answer c) ((hf c u.state).trans ha.symm), h.calls, hold.kept hk⟩
  | clear => exact ⟨rfl, h.calls, hold.kept hold.faithful.clear⟩
  | advance f => exact ⟨rfl, h.calls, hold.kept (hold.faithful.advance _)⟩
  | evaluate config program phases =>
    obtain ⟨hr, hs⟩ := (hf.alike now v.requests).perform config program phases (x := u.state) hold
    exact ⟨congrArg Reply.evaluation hr, h.calls, hs⟩

end ChainRead
