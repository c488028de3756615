import ChainRead.Proofs.Evaluation.ExitCode
import ChainRead.Proofs.Machine.Rows
import ChainRead.Source.Chain

/-! # What a loop does

A loop runs a program for its seeds one after the other, each in a frame of its own, until an
iteration stops it or no seeds are left. Its frame then has what lay below the seeds, the seeds that
were not used and the values of the iterations that were taken over.
-/

namespace ChainRead

namespace LoopFlags

variable (f : LoopFlags) (exitCode : UInt8)

/-- The exit codes after which a loop stops. -/
def Stops : Prop := exitCode = 0 ∧ f.stopOnSuccess ∨ exitCode ≠ 0 ∧ f.stopOnFailure

/-- The exit codes of the iterations that a loop takes over: all of them, or with a stop flag those
that stop it. -/
def Acquires : Prop := f.acquireState ∧ (f.stopOnSuccess ∨ f.stopOnFailure → f.Stops exitCode)

instance : Decidable (f.Stops exitCode) := inferInstanceAs (Decidable (_ ∨ _))

instance : Decidable (f.Acquires exitCode) := inferInstanceAs (Decidable (_ ∧ _))

theorem stopsOn_eq : f.stopsOn exitCode = decide (f.Stops exitCode) := by
  unfold stopsOn Stops
  split <;> simp [*]

theorem acquires_eq : f.acquires (f.stopsOn exitCode) = decide (f.Acquires exitCode) := by
  rw [stopsOn_eq, Bool.eq_iff_iff, decide_eq_true_iff, acquires, Bool.and_eq_true]
  refine and_congr_right fun _ => ?_
  by_cases hs : f.stopOnSuccess ∨ f.stopOnFailure
  · simp only [(Bool.or_eq_true _ _).mpr hs, Bool.not_true, Bool.or_false, decide_eq_true_eq]
    exact ⟨fun h _ => h, fun h => h hs⟩
  · simp [not_or.mp hs]

end LoopFlags

/-- An iteration of a loop: its seed, its exit code and its frame at the end. -/
structure Iteration where
  seed : Value Question
  exitCode : UInt8
  frame : Frame Question

namespace Iteration

variable (flags : LoopFlags)

def taken (its : List Iteration) : List Iteration := its.filter fun i => flags.Acquires i.exitCode

def acquired (its : List Iteration) : List (Value Question) :=
  (taken flags its).flatMap fun i => i.frame.stack.reverse

/-- The registers of a loop's frame after its iterations. -/
def registers (f : Frame Question) (its : List Iteration) : Address × Word :=
  match (taken flags its).getLast? with
  | some i => (i.frame.target, i.frame.slot)
  | none => (f.target, f.slot)

variable {flags} {i : Iteration} {its : List Iteration}

theorem taken_cons : taken flags (i :: its) =
    if flags.Acquires i.exitCode then i :: taken flags its else taken flags its := by
  unfold taken
  rw [List.filter_cons]
  simp only [decide_eq_true_eq]

theorem acquired_cons : acquired flags (i :: its) =
    (if flags.Acquires i.exitCode then i.frame.stack.reverse else []) ++ acquired flags its := by
  unfold acquired
  rw [taken_cons]
  split
  · rfl
  · rfl

theorem registers_cons (f : Frame Question) : registers flags f (i :: its) =
    registers flags (if flags.Acquires i.exitCode then
      { f with target := i.frame.target, slot := i.frame.slot } else f) its := by
  unfold registers
  rw [taken_cons]
  by_cases h : flags.Acquires i.exitCode
  · rw [if_pos h, if_pos h, List.getLast?_cons]
    rcases (taken flags its).getLast? <;> rfl
  · rw [if_neg h, if_neg h]

end Iteration

namespace State

variable {σ : Type}

def enter (s : State σ) (seed : Value Question) : State σ :=
  { s with frame := { s.frame with exitCode := 0, stack := [seed] } }

/-- The state after an iteration of a loop that runs on the frame `parent`. -/
def leave (s : State σ) (flags : LoopFlags) (parent : Frame Question) (index : Nat)
    (exitCode : UInt8) : State σ where
  frame :=
    if flags.Acquires exitCode then { parent with target := s.frame.target, slot := s.frame.slot }
    else parent
  session := s.session
  outputs := s.outputs
  trace := s.trace
  events := .iteration index exitCode (flags.Stops exitCode) :: s.events

end State

namespace Eval

variable {σ : Type}

/-- Iterations that succeed one after the other from a state. -/
inductive Iterations (nested : Bytes → Eval σ UInt8) (flags : LoopFlags) (program : Bytes) :
    Nat → State σ → List Iteration → State σ → Prop
  | nil (index : Nat) (s : State σ) : Iterations nested flags program index s [] s
  | cons {index : Nat} {s t u : State σ} {seed : Value Question} {exitCode : UInt8}
    {its : List Iteration} (run : nested program (s.enter seed) = (.ok exitCode, t))
    (rest : Iterations nested flags program (index + 1) (t.leave flags s.frame index exitCode) its
      u) :
    Iterations nested flags program index s (⟨seed, exitCode, t.frame⟩ :: its) u

variable {nested : Bytes → Eval σ UInt8} {flags : LoopFlags} {program : Bytes}

theorem Iterations.frame {index : Nat} {s u : State σ} {its : List Iteration}
    (h : Iterations nested flags program index s its u) :
    u.frame = { s.frame with
      target := (Iteration.registers flags s.frame its).1
      slot := (Iteration.registers flags s.frame its).2 } := by
  induction h with
  | nil => rfl
  | cons run rest ih =>
    rw [ih, Iteration.registers_cons]
    simp only [State.leave]
    split <;> rfl

/-- Iterations after which a loop is over: the last one stops it or no seeds are left. -/
structure Completes (nested : Bytes → Eval σ UInt8) (flags : LoopFlags) (program : Bytes)
    (index : Nat) (s : State σ) (seeds : List (Value Question)) (its : List Iteration)
    (unused : List (Value Question)) (u : State σ) : Prop where
  iterations : Iterations nested flags program index s its u
  split : seeds = its.map Iteration.seed ++ unused
  goes_on : ∀ i ∈ its.dropLast, ¬ flags.Stops i.exitCode
  ends : unused = [] ∨ ∃ i ∈ its.getLast?, flags.Stops i.exitCode

/-- How the iterations for seeds end: after some that do not stop the loop one fails, or they
complete the loop. -/
inductive Iterated (nested : Bytes → Eval σ UInt8) (flags : LoopFlags) (program : Bytes)
    (index : Nat) (s : State σ) (seeds : List (Value Question)) :
    Except EvalError (List (Value Question) × List (Value Question)) × State σ → Prop
  | failed {its : List Iteration} {u t : State σ} {seed : Value Question}
    {unused : List (Value Question)} {e : EvalError}
    (iterations : Iterations nested flags program index s its u)
    (split : seeds = its.map Iteration.seed ++ seed :: unused)
    (goes_on : ∀ i ∈ its, ¬ flags.Stops i.exitCode)
    (run : nested program (u.enter seed) = (.error e, t)) :
    Iterated nested flags program index s seeds (.error e, t)
  | done {its : List Iteration} {u : State σ} {unused : List (Value Question)}
    (h : Completes nested flags program index s seeds its unused u) :
    Iterated nested flags program index s seeds (.ok (unused, Iteration.acquired flags its), u)

theorem iterate_of_error (index : Nat) {s t : State σ} {seed : Value Question} {e : EvalError}
    (seeds : List (Value Question)) (run : nested program (s.enter seed) = (.error e, t)) :
    iterate nested flags program index (seed :: seeds) s = (.error e, t) := by
  rw [iterate, frame_bind, setFrame_bind]
  show (nested program >>= _) (s.enter seed) = _
  rw [Fallible.bind_apply, run]

/-- An iteration that stops the loop leaves the other seeds unused; otherwise they are next. -/
theorem iterate_cons (H : ∀ program, Tells (nested program)) (index : Nat) {s t : State σ}
    {seed : Value Question} {exitCode : UInt8} (seeds : List (Value Question))
    (run : nested program (s.enter seed) = (.ok exitCode, t)) :
    iterate nested flags program index (seed :: seeds) s =
      (if flags.Stops exitCode then
        pure (seeds, Iteration.acquired flags [⟨seed, exitCode, t.frame⟩])
      else iterate nested flags program (index + 1) seeds >>= fun r => pure (r.1,
        (if flags.Acquires exitCode then t.frame.stack.reverse else []) ++ r.2))
      (t.leave flags s.frame index exitCode) := by
  have hc : t.frame.exitCode = exitCode := H program _ _ _ run rfl
  rw [iterate, frame_bind, setFrame_bind]
  show (nested program >>= _) (s.enter seed) = _
  rw [Fallible.bind_of_ok run, frame_bind, report_bind, setFrame_bind, hc]
  rw [LoopFlags.acquires_eq, LoopFlags.stopsOn_eq]
  by_cases hs : flags.Stops exitCode
  · have ha : Iteration.acquired flags [⟨seed, exitCode, t.frame⟩] =
        if flags.Acquires exitCode then t.frame.stack.reverse else [] := by
      rw [Iteration.acquired_cons]
      exact List.append_nil _
    simp only [decide_eq_true_eq, if_pos hs, ha]
    rfl
  · simp only [decide_eq_true_eq, if_neg hs]
    rfl

theorem Completes.cons {index : Nat} {s t u : State σ} {seed : Value Question} {exitCode : UInt8}
    {seeds unused : List (Value Question)} {its : List Iteration}
    (run : nested program (s.enter seed) = (.ok exitCode, t)) (hs : ¬ flags.Stops exitCode)
    (h : Completes nested flags program (index + 1) (t.leave flags s.frame index exitCode) seeds its
      unused u) :
    Completes nested flags program index s (seed :: seeds) (⟨seed, exitCode, t.frame⟩ :: its)
      unused u where
  iterations := .cons run h.iterations
  split := congrArg (seed :: ·) h.split
  goes_on := by
    cases its with
    | nil => exact fun _ h => nomatch h
    | cons i its => exact List.forall_mem_cons.mpr ⟨hs, h.goes_on⟩
  ends := h.ends.imp_right fun ⟨i, hi, h⟩ => ⟨i, by rw [List.getLast?_cons, hi]; rfl, h⟩

theorem iterate_iterated (H : ∀ program, Tells (nested program)) (index : Nat) (s : State σ)
    (seeds : List (Value Question)) :
    Iterated nested flags program index s seeds (iterate nested flags program index seeds s) := by
  induction seeds generalizing index s with
  | nil => exact .done ⟨.nil index s, rfl, fun _ h => (nomatch h), Or.inl rfl⟩
  | cons seed seeds ih =>
    rcases run : nested program (s.enter seed) with ⟨e | exitCode, t⟩
    · rw [iterate_of_error index seeds run]
      exact .failed (.nil index s) rfl (fun _ h => nomatch h) run
    by_cases hs : flags.Stops exitCode
    · rw [iterate_cons H index seeds run, if_pos hs]
      exact .done ⟨.cons run (.nil _ _), rfl, fun _ h => (nomatch h), Or.inr ⟨_, rfl, hs⟩⟩
    · rw [iterate_cons H index seeds run, if_neg hs, Fallible.bind_apply]
      have h := ih (index + 1) (t.leave flags s.frame index exitCode)
      generalize iterate nested flags program (index + 1) seeds _ = r at h
      cases h with
      | failed iterations split goes_on run' =>
        refine .failed (.cons run iterations) (congrArg (seed :: ·) split) ?_ run'
        exact List.forall_mem_cons.mpr ⟨hs, goes_on⟩
      | done h =>
        have h := Iterated.done (h.cons run hs)
        rw [Iteration.acquired_cons] at h
        exact h

variable (env : Env σ)

def below (depth : Nat) (program : Bytes) : Eval σ UInt8 :=
  if depth + 1 ≤ env.config.maxEvalDepth.toNat then
    runFrame env (env.config.maxEvalDepth.toNat - (depth + 1)) program
  else throw (.budget (.maxEvalDepth env.config.maxEvalDepth.toNat))

theorem runFrame_eq {depth : Nat} (h : depth ≤ env.config.maxEvalDepth.toNat) (program : Bytes) :
    runFrame env (env.config.maxEvalDepth.toNat - depth) program =
      runProgram env (below env depth) depth program := by
  rcases Nat.eq_or_lt_of_le h with h | h
  · have hb : below env depth =
        fun _ => throw (.budget (.maxEvalDepth env.config.maxEvalDepth.toNat)) :=
      funext fun _ => if_neg (by omega)
    rw [hb, h, Nat.sub_self, runFrame]
  · obtain ⟨levels, hl⟩ := Nat.exists_eq_add_of_lt h
    have hb : below env depth = runFrame env levels := by
      funext program
      rw [below, if_pos (Nat.succ_le_of_lt h)]
      congr 1
      omega
    have hk : env.config.maxEvalDepth.toNat - depth = levels + 1 := by omega
    have hd : env.config.maxEvalDepth.toNat - (levels + 1) = depth := by omega
    rw [hb, hk, runFrame, hd]

theorem below_tells (depth : Nat) (program : Bytes) : Tells (below env depth program) := by
  unfold below
  split
  · exact runFrame_tells env _ program
  · intro s c t h
    cases h

end Eval

/-- Values can be put on the stack of a frame. -/
def Frame.Fits (f : Frame Question) (vs : List (Value Question)) : Prop :=
  vs = [] ∨ f.size + vs.length ≤ f.maxStack

theorem Frame.fits_iff (f : Frame Question) (vs : List (Value Question)) :
    f.Fits vs ↔ vs.length ≤ f.room := by
  rw [Fits, room, size, ← List.length_eq_zero_iff]
  omega

theorem Frame.extend_of_fits {f : Frame Question} {vs : List (Value Question)} (h : f.Fits vs) :
    extend vs f = (.ok (), { f with stack := vs.reverse ++ f.stack }) := by
  rw [fits_iff] at h
  rw [extend_eq, if_pos h, List.take_of_length_le h]

theorem Frame.extend_of_not_fits {f : Frame Question} {vs : List (Value Question)}
    (h : ¬ f.Fits vs) : (extend vs f).1 = .error (.stack (.overflow f.maxStack)) := by
  rw [fits_iff] at h
  rw [extend_eq, if_neg h]

namespace Eval

variable {σ : Type} (env : Env σ)

/-- How a loop at a depth ends from the state `s`, in which its seeds are off the stack. -/
inductive LoopEnds (depth : Nat) (flags : LoopFlags) (program : Bytes) (s : State σ)
    (seeds : List (Value Question)) : Except EvalError (Option UInt8) × State σ → Prop
  | empty (h : seeds = []) : LoopEnds depth flags program s seeds (.ok none, s)
  | tooDeep {t : State σ} (h : seeds ≠ []) (deep : env.config.maxEvalDepth.toNat < depth + 1) :
    LoopEnds depth flags program s seeds
      (.error (.budget (.maxEvalDepth env.config.maxEvalDepth.toNat)), t)
  | failed {e : EvalError} {t : State σ} (deep : depth + 1 ≤ env.config.maxEvalDepth.toNat)
    (h : Iterated (runFrame env (env.config.maxEvalDepth.toNat - (depth + 1))) flags program 0 s
      seeds (.error e, t)) :
    LoopEnds depth flags program s seeds (.error e, t)
  | overflow {its : List Iteration} {unused : List (Value Question)} {u t : State σ}
    (deep : depth + 1 ≤ env.config.maxEvalDepth.toNat)
    (h : Completes (runFrame env (env.config.maxEvalDepth.toNat - (depth + 1))) flags program 0 s
      seeds its unused u)
    (full : ¬ s.frame.Fits ((if flags.keepArgs then unused else []) ++
      Iteration.acquired flags its)) :
    LoopEnds depth flags program s seeds (.error (.stack (.overflow s.frame.maxStack)), t)
  | done {its : List Iteration} {unused : List (Value Question)} {u : State σ}
    (deep : depth + 1 ≤ env.config.maxEvalDepth.toNat)
    (h : Completes (runFrame env (env.config.maxEvalDepth.toNat - (depth + 1))) flags program 0 s
      seeds its unused u)
    (fits : s.frame.Fits ((if flags.keepArgs then unused else []) ++
      Iteration.acquired flags its)) :
    LoopEnds depth flags program s seeds (.ok none, { u with frame := { s.frame with
      target := (Iteration.registers flags s.frame its).1
      slot := (Iteration.registers flags s.frame its).2
      stack := (s.frame.stack.reverse ++ (if flags.keepArgs then unused else []) ++
        Iteration.acquired flags its).reverse } })

variable {env} in
theorem LoopEnds.extend {depth : Nat} {flags : LoopFlags} {program : Bytes} {s u : State σ}
    {seeds unused : List (Value Question)} {its : List Iteration}
    (deep : depth + 1 ≤ env.config.maxEvalDepth.toNat)
    (h : Completes (runFrame env (env.config.maxEvalDepth.toNat - (depth + 1))) flags program 0 s
      seeds its unused u) :
    LoopEnds env depth flags program s seeds
      ((onFrame (Frame.extend ((if flags.keepArgs then unused else []) ++
        Iteration.acquired flags its)) >>= fun _ => pure none) u) := by
  have hf := h.iterations.frame
  rw [Fallible.bind_apply, onFrame_apply]
  by_cases fits : s.frame.Fits ((if flags.keepArgs then unused else []) ++
    Iteration.acquired flags its)
  · have hu : u.frame.Fits ((if flags.keepArgs then unused else []) ++
        Iteration.acquired flags its) := by
      rw [hf]
      exact fits
    have hd := LoopEnds.done deep h fits
    rw [List.append_assoc, List.reverse_append, List.reverse_reverse] at hd
    rw [Frame.extend_of_fits hu, hf]
    exact hd
  · have hu : ¬ u.frame.Fits ((if flags.keepArgs then unused else []) ++
        Iteration.acquired flags its) := by
      rw [hf]
      exact fits
    have hm : u.frame.maxStack = s.frame.maxStack := by rw [hf]
    rw [Frame.extend_of_not_fits hu, hm]
    exact .overflow deep h fits

theorem overSeeds_ends (depth : Nat) (flags : LoopFlags) (program : Bytes) {s : State σ} {cap : Nat}
    {rest seeds : List (Value Question)} (hs : s.frame.stack.reverse = rest ++ seeds)
    (hn : seeds.length = min cap s.frame.size) :
    LoopEnds env depth flags program { s with frame := { s.frame with stack := rest.reverse } }
      seeds
      ((overSeeds (below env depth) flags cap program >>= fun _ => pure none) s) := by
  have hst : s.frame.stack = seeds.reverse ++ rest.reverse := by
    rw [← List.reverse_append, ← hs, List.reverse_reverse]
  have hsplit : s.frame.splitTop (min cap s.frame.size) =
      (seeds, { s.frame with stack := rest.reverse }) := by
    have hl : min cap s.frame.size = seeds.reverse.length := by rw [← hn, List.length_reverse]
    rw [Frame.splitTop, hl, hst, List.take_left, List.drop_left, List.reverse_reverse]
  rw [Fallible.bind_apply, overSeeds, hsplit, ← Fallible.bind_apply _ (fun _ => pure none),
    bind_assoc]
  generalize hp : ({ s with frame := { s.frame with stack := rest.reverse } } : State σ) = p
  by_cases deep : depth + 1 ≤ env.config.maxEvalDepth.toNat
  · have hb : below env depth = runFrame env (env.config.maxEvalDepth.toNat - (depth + 1)) :=
      funext fun _ => if_pos deep
    have h : Iterated (below env depth) flags program 0 p seeds
        (iterate (below env depth) flags program 0 seeds p) :=
      iterate_iterated (below_tells env depth) 0 p seeds
    rw [hb] at h ⊢
    rw [Fallible.bind_apply]
    generalize iterate _ flags program 0 seeds p = r at h
    cases h with
    | failed iterations split goes_on run =>
      exact .failed deep (.failed iterations split goes_on run)
    | done h => exact .extend deep h
  · -- without a level left the first iteration fails, if there is a seed for one
    cases seeds with
    | nil =>
      have : iterate (below env depth) flags program 0 [] p = (.ok ([], []), p) := rfl
      rw [Fallible.bind_of_ok this]
      rcases flags.keepArgs <;> exact .empty rfl
    | cons seed seeds =>
      have hb : below env depth program (p.enter seed) =
          (.error (.budget (.maxEvalDepth env.config.maxEvalDepth.toNat)), p.enter seed) := by
        rw [below, if_neg deep]
        rfl
      rw [Fallible.bind_apply, iterate_of_error 0 seeds hb]
      exact .tooDeep (List.cons_ne_nil _ _) (by omega)

/-- After its operands were popped, a loop over the top seeds ends as its flags and the runs of its
program say. -/
theorem evalLoop_ends (depth : Nat) (flags : LoopFlags) {s t : State σ} {cap : Word}
    {program : Bytes} {rest seeds : List (Value Question)}
    (operands : (popWord env >>= fun cap => popBytes env >>= fun program =>
      pure (cap, program)) s = (.ok (cap, program), t))
    (split : t.frame.stack.reverse = rest ++ seeds)
    (count : seeds.length = min cap.toNat t.frame.size) :
    LoopEnds env depth flags program { t with frame := { t.frame with stack := rest.reverse } }
      seeds
      (step env (below env depth) depth (.evalLoop flags) s) := by
  have h : step env (below env depth) depth (.evalLoop flags) s =
      (overSeeds (below env depth) flags cap.toNat program >>= fun _ => pure none) t := by
    obtain ⟨c, u, hc, h⟩ := Fallible.bind_ok operands
    obtain ⟨p, v, hp, h⟩ := Fallible.bind_ok h
    cases h
    rw [step, evalLoop_eq, bind_assoc, Fallible.bind_of_ok hc, bind_assoc, Fallible.bind_of_ok hp]
  rw [h]
  exact overSeeds_ends env depth flags program split count

/-- The second of three seeds stops the loop: its state is taken over and the third seed goes
back. -/
theorem evalLoop_ends_second :
    let env : Env Nat := ⟨Chain.source {}, {}⟩
    let flags : LoopFlags := { stopOnSuccess := true, acquireState := true, keepArgs := true }
    let program := 0 :: Instruction.encodeAll
      [.push 0, .plain .dup, .assert 9, .push 4, .plain .setSlot]
    let one := fun b : UInt8 => Value.known (Q := Question) [b]
    let f : Frame Question :=
      { stack := [one 3, .known program, one 6, one 5, one 0, one 7], maxStack := 8 }
    let s : State Nat := { env.start ⟨0, []⟩ { source := 0 } with frame := f }
    let t : State Nat := { s with frame := { f with stack := [one 6, one 5, one 0, one 7] } }
    let r := step env (below env 0) 0 (.evalLoop flags) s
    (popWord env >>= fun cap => popBytes env >>= fun program => pure (cap, program)) s =
        (.ok (3, program), t) ∧
      t.frame.stack.reverse = [one 7] ++ [one 0, one 5, one 6] ∧
      LoopEnds env 0 flags program { t with frame := { t.frame with stack := [one 7] } }
        [one 0, one 5, one 6] r ∧
      r.2.frame.stack.map (Value.peek r.2.session) = [some [5], some [6], some [7]] ∧
      r.2.frame.slot = 4 := by
  intro env flags program one f s t r
  have operands : (popWord env >>= fun cap => popBytes env >>= fun program =>
      pure (cap, program)) s = (.ok (3, program), t) := rfl
  have split : t.frame.stack.reverse = [one 7] ++ [one 0, one 5, one 6] := rfl
  have ends := evalLoop_ends env 0 flags operands split rfl
  exact ⟨operands, split, ends, by decide +kernel, by decide +kernel⟩

end Eval

end ChainRead
