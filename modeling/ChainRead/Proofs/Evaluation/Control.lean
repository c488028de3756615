import Mathlib.Logic.Function.Iterate
import ChainRead.Proofs.Evaluation.Loop
import ChainRead.Proofs.Program.Listing

/-! # Evaluation step by step

A run can be taken one instruction at a time. The frames that wait for a program below them are on
a stack, each with the cursor at which it reads on, and a loop also with its seeds. Nothing says in
advance how many steps there are or how many instructions a program has, and yet the steps lead to
what a run gives.
-/

namespace ChainRead

/-- A loop between two iterations. -/
structure Looping where
  flags : LoopFlags
  program : Bytes
  index : Nat := 0
  /-- The seeds that were not used, bottom first. -/
  seeds : List (Value Question)
  /-- The values taken over so far, bottom first. -/
  taken : List (Value Question) := []

/-- What a frame does when the program below it has returned. -/
inductive Waiting
  | inline (rest : Cursor)
  | loop (rest : Cursor) (parent : Frame Question) (loop : Looping)

inductive Execution.Phase
  | reading (c : Cursor)
  | returned (exitCode : UInt8)

/-- An evaluation between two steps. -/
structure Execution (σ : Type) where
  state : State σ
  phase : Execution.Phase
  /-- The frames that wait, innermost first; there are as many as the running one is deep. -/
  waiting : List Waiting

inductive Stage (σ : Type)
  | running (x : Execution σ)
  | finished (p : Except EvalError UInt8 × State σ)

variable {σ α : Type}

namespace Stage

def bind (p : Except EvalError α × State σ) (f : α → State σ → Stage σ) : Stage σ :=
  match p with
  | (.ok a, s) => f a s
  | (.error cause, s) => .finished (.error cause, s)

def next (rest : Cursor) (K : List Waiting) (p : Except EvalError (Option UInt8) × State σ) :
    Stage σ :=
  bind p fun
    | none, s => .running ⟨s, .reading rest, K⟩
    | some exitCode, s =>
      .running ⟨{ s with frame := { s.frame with exitCode } }, .returned exitCode, K⟩

/-- Give an exit code back to the frames that wait. -/
def back (K : List Waiting) (p : Except EvalError UInt8 × State σ) : Stage σ :=
  bind p fun exitCode s => .running ⟨s, .returned exitCode, K⟩

def depth? : Stage σ → Option Nat
  | .running x => some x.waiting.length
  | .finished _ => none

theorem exists_of_depth? {p : Stage σ} {depth : Nat} (h : p.depth? = some depth) :
    ∃ x, p = .running x ∧ x.waiting.length = depth := by
  cases p with
  | running x => exact ⟨x, rfl, Option.some.inj h⟩
  | finished => cases h

/-- What holds of an evaluation that goes on, or of its result and the last state. -/
def All (P : Execution σ → Prop) (Q : Except EvalError UInt8 × State σ → Prop) : Stage σ → Prop
  | .running x => P x
  | .finished p => Q p

end Stage

namespace Eval

variable (env : Env σ)

def inlineOperands : Eval σ (Bytes × Bool) := do
  let program ← popBytes env
  return (program, ← popBool env)

def loopOperands : Eval σ (Word × Bytes) := do
  let cap ← popWord env
  return (cap, ← popBytes env)

end Eval

namespace Env

variable (env : Env σ)

/-- Run a program below the frames `K` that wait for it, of which there must not be too many. -/
def enter (program : Bytes) (K : List Waiting) (s : State σ) : Stage σ :=
  if K.length ≤ env.config.maxEvalDepth.toNat then .running ⟨s, .reading (.ofBytes program), K⟩
  else .finished (.error (.budget (.maxEvalDepth env.config.maxEvalDepth.toNat)), s)

/-- Put the seeds that were not used back, if the loop keeps them, and what was taken over. -/
def leaveLoop (rest : Cursor) (loop : Looping) (K : List Waiting) (s : State σ) : Stage σ :=
  .next rest K ((Eval.onFrame (Frame.extend
    ((if loop.flags.keepArgs then loop.seeds else []) ++ loop.taken)) >>= fun _ => pure none) s)

def nextSeed (rest : Cursor) (loop : Looping) (K : List Waiting) (s : State σ) : Stage σ :=
  match loop.seeds with
  | [] => leaveLoop rest loop K s
  | seed :: seeds =>
    env.enter loop.program (.loop rest s.frame { loop with seeds } :: K)
      { s with frame := s.frame.child seed }

/-- Take over what the loop's flags say, and stop the loop or go on with the next seed. -/
def endIteration (rest : Cursor) (parent : Frame Question) (loop : Looping) (K : List Waiting)
    (s : State σ) : Stage σ :=
  let exitCode := s.frame.exitCode
  let acquired := if loop.flags.Acquires exitCode then s.frame.stack.reverse else []
  let loop' := { loop with index := loop.index + 1, taken := loop.taken ++ acquired }
  let s := s.leave loop.flags parent loop.index exitCode
  if loop.flags.Stops exitCode then leaveLoop rest loop' K s else env.nextSeed rest loop' K s

def resume (w : Waiting) (K : List Waiting) (exitCode : UInt8) (s : State σ) : Stage σ :=
  match w with
  | .inline rest => .next rest K (.ok (if exitCode = 0 then none else some exitCode), s)
  | .loop rest parent loop => env.endIteration rest parent loop K s

/-- Execute an instruction behind which the cursor stands at `rest`. -/
def perform (rest : Cursor) (K : List Waiting) (s : State σ) : Instruction → Stage σ
  | .eval => .bind (Eval.inlineOperands env s) fun (program, condition) s =>
    if condition then env.enter program (.inline rest :: K) s else .running ⟨s, .reading rest, K⟩
  | .evalLoop flags => .bind (Eval.loopOperands env s) fun (cap, program) s =>
    let (seeds, frame) := s.frame.splitTop (min cap.toNat s.frame.size)
    env.nextSeed rest { flags, program, seeds } K { s with frame }
  -- the other instructions run no program, so none is there for them to run
  | i => .next rest K (Eval.step env (fun _ => pure 0) K.length i s)

def read (c : Cursor) (K : List Waiting) (s : State σ) : Stage σ :=
  match c.next with
  | none => .running ⟨s, .returned 0, K⟩
  | some (.error cause, _) => .finished (.error (.encoding cause), s)
  | some (.ok i, rest) => env.perform rest K s i

def advance (x : Execution σ) : Stage σ :=
  match x.phase, x.waiting with
  | .reading c, K => env.read c K x.state
  | .returned exitCode, [] => .finished (.ok exitCode, x.state)
  | .returned exitCode, w :: K => env.resume w K exitCode x.state

def tick : Stage σ → Stage σ
  | .running x => env.advance x
  | .finished p => .finished p

def begin (program : Program) (session : Session σ) : Stage σ :=
  .running ⟨env.start program session, .reading (.ofBytes program.toBytes), []⟩

/-- One stage comes some steps after another. -/
def Leads (p q : Stage σ) : Prop := ∃ n, env.tick^[n] p = q

/-- The stages of a program's evaluation. -/
def Visits (program : Program) (session : Session σ) (p : Stage σ) : Prop :=
  env.Leads (env.begin program session) p

variable {env}

theorem Leads.refl (p : Stage σ) : env.Leads p p := ⟨0, rfl⟩

theorem Leads.trans {p q r : Stage σ} (h : env.Leads p q) (h' : env.Leads q r) :
    env.Leads p r := by
  obtain ⟨m, rfl⟩ := h
  obtain ⟨n, rfl⟩ := h'
  exact ⟨n + m, Function.iterate_add_apply ..⟩

theorem Leads.step {x : Execution σ} {q : Stage σ} (h : env.Leads (env.advance x) q) :
    env.Leads (.running x) q :=
  Leads.trans ⟨1, rfl⟩ h

theorem Leads.preserves {good : Stage σ → Prop}
    (step : ∀ x, good (.running x) → good (env.advance x)) {p q : Stage σ} (h : env.Leads p q)
    (hp : good p) : good q := by
  obtain ⟨n, rfl⟩ := h
  induction n generalizing p with
  | zero => exact hp
  | succ n ih =>
    rw [Function.iterate_succ_apply]
    apply ih
    cases p with
    | running x => exact step x hp
    | finished p => exact hp

end Env

/-! ## Runs -/

namespace Eval

variable (env : Env σ) (depth : Nat)

/-- Run what a cursor reads on the running frame. -/
def runCursor (c : Cursor) : Eval σ UInt8 :=
  runList env (below env depth) depth (Listing.ofCursor c).fault (Listing.ofCursor c).instructions

variable {env depth} {c : Cursor}

theorem runCursor_of_none (h : c.next = none) : runCursor env depth c = pure 0 := by
  rw [runCursor, Listing.ofCursor_eq, h]
  rfl

theorem runCursor_of_error {cause : EncodingError} {c' : Cursor}
    (h : c.next = some (.error cause, c')) : runCursor env depth c = throw (.encoding cause) := by
  rw [runCursor, Listing.ofCursor_eq, h]
  rfl

theorem runCursor_of_ok {i : Instruction} {rest : Cursor} (h : c.next = some (.ok i, rest))
    (s : State σ) : runCursor env depth c s = match step env (below env depth) depth i s with
      | (.ok none, t) => runCursor env depth rest t
      | (.ok (some exitCode), t) => (.ok exitCode, { t with frame := { t.frame with exitCode } })
      | (.error cause, t) => (.error cause, t) := by
  rw [runCursor, Listing.ofCursor_eq, h]
  show runList env (below env depth) depth _ (i :: (Listing.ofCursor rest).instructions) s = _
  rw [runList, Fallible.bind_apply]
  rcases step env (below env depth) depth i s with ⟨_ | _ | _, t⟩ <;> rfl

theorem runFrame_runCursor (h : depth ≤ env.config.maxEvalDepth.toNat) (program : Bytes) :
    runFrame env (env.config.maxEvalDepth.toNat - depth) program =
      runCursor env depth (.ofBytes program) := by
  rw [runFrame_eq env h, runProgram, Listing.ofBytes_eq]
  rfl

end Eval

namespace Env

open Eval

variable {env : Env σ} {K : List Waiting}

/-- Below the frames `K` the steps lead to what a run gives. -/
def Runs (env : Env σ) (K : List Waiting) : Prop :=
  ∀ (c : Cursor) (s : State σ),
    env.Leads (.running ⟨s, .reading c, K⟩) (.back K (runCursor env K.length c s))

theorem enter_leads {w : Waiting}
    (H : K.length + 1 ≤ env.config.maxEvalDepth.toNat → env.Runs (w :: K)) (program : Bytes)
    (s : State σ) :
    env.Leads (env.enter program (w :: K) s) (.back (w :: K) (below env K.length program s)) := by
  rw [enter, List.length_cons, below]
  by_cases deep : K.length + 1 ≤ env.config.maxEvalDepth.toNat
  · rw [if_pos deep, if_pos deep, runFrame_runCursor deep]
    exact H deep _ s
  · rw [if_neg deep, if_neg deep]
    exact .refl _

/-- From a loop's seeds on, the steps lead to what its iterations give. -/
theorem nextSeed_leads
    (H : K.length + 1 ≤ env.config.maxEvalDepth.toNat → ∀ w, env.Runs (w :: K)) (rest : Cursor)
    (flags : LoopFlags) (program : Bytes) (index : Nat) (seeds taken : List (Value Question))
    (s : State σ) :
    env.Leads (env.nextSeed rest ⟨flags, program, index, seeds, taken⟩ K s)
      (.next rest K ((iterate (below env K.length) flags program index seeds >>= fun r =>
        onFrame (Frame.extend ((if flags.keepArgs then r.1 else []) ++ (taken ++ r.2))) >>=
          fun _ => pure none) s)) := by
  induction seeds generalizing index taken s with
  | nil =>
    rw [iterate, pure_bind, List.append_nil]
    exact .refl _
  | cons seed seeds ih =>
    have first := enter_leads (w := .loop rest s.frame ⟨flags, program, index, seeds, taken⟩)
      (fun deep => H deep _) program (s.enter seed)
    refine Leads.trans first ?_
    rcases run : below env K.length program (s.enter seed) with ⟨cause | exitCode, t⟩
    · rw [Fallible.bind_apply, iterate_of_error index seeds run]
      exact .refl _
    -- the loop decides by the code in the frame, and that is the one returned
    have hc : t.frame.exitCode = exitCode := below_tells env K.length program _ _ _ run rfl
    refine Leads.step ?_
    show env.Leads (env.endIteration rest s.frame ⟨flags, program, index, seeds, taken⟩ K t) _
    rw [Fallible.bind_apply, iterate_cons (below_tells env K.length) index seeds run,
      ← Fallible.bind_apply, endIteration, hc]
    by_cases hs : flags.Stops exitCode
    · rw [if_pos hs, if_pos hs, pure_bind, Iteration.acquired_cons]
      simp only [leaveLoop, Iteration.acquired, Iteration.taken, List.filter_nil, List.flatMap_nil,
        List.append_nil]
      exact .refl _
    · rw [if_neg hs, if_neg hs, bind_assoc]
      simp only [pure_bind]
      have rest := ih (index + 1)
        (taken ++ if flags.Acquires exitCode then t.frame.stack.reverse else [])
        (t.leave flags s.frame index exitCode)
      simp only [List.append_assoc] at rest
      exact rest

/-- An instruction leads to what it gives, with the programs below the frame run step by step. -/
theorem perform_leads
    (H : K.length + 1 ≤ env.config.maxEvalDepth.toNat → ∀ w, env.Runs (w :: K)) (rest : Cursor)
    (s : State σ) (i : Instruction) :
    env.Leads (env.perform rest K s i)
      (.next rest K (step env (below env K.length) K.length i s)) := by
  cases i with
  | eval =>
    have h : step env (below env K.length) K.length .eval = inlineOperands env >>= fun r =>
        if r.2 then below env K.length r.1 >>= fun exitCode =>
          pure (if exitCode = 0 then none else some exitCode)
        else pure none := by
      simp only [step, evalInline, inlineOperands, bind_assoc, pure_bind]
    rw [perform, h, Fallible.bind_apply]
    rcases inlineOperands env s with ⟨cause | ⟨program, _ | _⟩, t⟩
    · exact .refl _
    · exact .refl _
    · refine Leads.trans (enter_leads (fun deep => H deep _) program t) ?_
      show env.Leads _ (.next rest K ((below env K.length program >>= _) t))
      rw [Fallible.bind_apply]
      rcases below env K.length program t with ⟨cause | exitCode, u⟩
      · exact .refl _
      · exact Leads.step (.refl _)
  | evalLoop flags =>
    have h : step env (below env K.length) K.length (.evalLoop flags) =
        loopOperands env >>= fun r =>
          overSeeds (below env K.length) flags r.1.toNat r.2 >>= fun _ => pure none := by
      simp only [step, evalLoop_eq, loopOperands, bind_assoc, pure_bind]
    rw [perform, h, Fallible.bind_apply]
    rcases loopOperands env s with ⟨cause | ⟨cap, program⟩, t⟩
    · exact .refl _
    · show env.Leads _ (.next rest K ((overSeeds _ flags cap.toNat program >>= _) t))
      rw [Fallible.bind_apply, overSeeds, ← Fallible.bind_apply _ (fun _ => pure none), bind_assoc]
      exact nextSeed_leads H rest flags program 0 _ [] _
  | _ => exact .refl _

/-- If the steps lead to what runs give one frame deeper, they do so here, instruction after
instruction. -/
theorem runs_of_deeper
    (H : K.length + 1 ≤ env.config.maxEvalDepth.toNat → ∀ w, env.Runs (w :: K)) : env.Runs K := by
  intro c s
  generalize hc : c.rest.length = n
  induction n using Nat.strongRecOn generalizing c s with
  | ind n ih =>
    refine Leads.step ?_
    show env.Leads (env.read c K s) _
    rw [read]
    rcases hn : c.next with _ | ⟨cause | i, rest⟩
    · rw [runCursor_of_none hn]
      exact .refl _
    · rw [runCursor_of_error hn]
      exact .refl _
    · have hl := Cursor.length_rest_lt hn
      rw [runCursor_of_ok hn]
      refine Leads.trans (perform_leads H rest s i) ?_
      rcases step env (below env K.length) K.length i s with ⟨cause | _ | exitCode, t⟩
      · exact .refl _
      · exact ih rest.rest.length (hc ▸ hl) rest t rfl
      · exact .refl _

/-- The steps below any frames lead to what runs give. -/
theorem runs (K : List Waiting) : env.Runs K := by
  generalize hk : env.config.maxEvalDepth.toNat - K.length = k
  induction k using Nat.strongRecOn generalizing K with
  | ind k ih =>
    refine runs_of_deeper fun deep w => ih _ ?_ (w :: K) rfl
    rw [List.length_cons]
    omega

theorem visits_run (env : Env σ) (program : Program) (session : Session σ) :
    env.Visits program session (.finished (env.run program session)) := by
  have h : env.Runs [] := runs []
  have hr : env.run program session =
      runCursor env 0 (.ofBytes program.toBytes) (env.start program session) := by
    rw [run, ← runFrame_runCursor (Nat.zero_le _)]
    rfl
  refine Leads.trans (h _ _) ?_
  rw [hr, List.length_nil]
  rcases runCursor env 0 (.ofBytes program.toBytes) (env.start program session) with
    ⟨cause | exitCode, s⟩
  · exact .refl _
  · exact Leads.step (.refl _)

end Env

end ChainRead
