import ChainRead.Proofs.Evaluation.Comparison
import ChainRead.Proofs.Evaluation.Inlining
import ChainRead.Proofs.Program.Trees

/-! # Labels left out

A program does the same without its labels for diagnostics, those in the programs that it nests
included. There the bytes on the stack differ until they are popped to be run, so a nested program
is compared together with the instruction that pushed it.
-/

namespace ChainRead

open Coupling Eval

variable {σ α : Type}

abbrev strictTwins (env : Env σ) : Simulation Unit σ σ := twins env (fun _ => False) id

/-- Two computations do the same, whatever they report. -/
abbrev Twin (env : Env σ) (x y : Eval σ α) : Prop := (strictTwins env).whole.Follows ⊤ x y same

/-! ## Programs that are only run -/

namespace Eval

variable {env : Env σ} {nested : Bytes → Eval σ UInt8} {depth : Nat}

theorem iterate_const (flags : LoopFlags) (program : Bytes) (index : Nat)
    (seeds : List (Value Question)) :
    iterate nested flags program index seeds =
      iterate (fun _ => nested program) flags [] index seeds := by
  induction seeds generalizing index with
  | nil => rfl
  | cons seed seeds ih => simp only [iterate, ih]

theorem evalInline_known (s : State σ) (program : Bytes) (rest : List (Value Question)) :
    evalInline env nested (s.withStack (.known program :: rest)) =
      evalInline env (fun _ => nested program) (s.withStack (.known [] :: rest)) := by
  rw [evalInline, evalInline, Fallible.bind_of_ok (popBytes_known ..),
    Fallible.bind_of_ok (popBytes_known ..)]

theorem evalLoop_known (s : State σ) (flags : LoopFlags) (cap : Word) (program : Bytes)
    (rest : List (Value Question)) :
    evalLoop env nested flags (s.withStack (.known cap.toBytes :: .known program :: rest)) =
      evalLoop env (fun _ => nested program) flags
        (s.withStack (.known cap.toBytes :: .known [] :: rest)) := by
  simp only [evalLoop_eq]
  rw [Fallible.bind_of_ok (popWord_known ..), Fallible.bind_of_ok (popWord_known ..),
    Fallible.bind_of_ok (popBytes_known ..), Fallible.bind_of_ok (popBytes_known ..)]
  simp only [overSeeds, iterate_const flags program]

/-- What a frame does after an instruction that gave an exit code or none. -/
def goOn (env : Env σ) (nested : Bytes → Eval σ UInt8) (depth : Nat) (is : List Instruction) :
    Option UInt8 → Eval σ UInt8
  | some exitCode => do
    modifyFrame fun f => { f with exitCode }
    return exitCode
  | none => runList env nested depth none is

theorem runList_cons (i : Instruction) (is : List Instruction) :
    runList env nested depth none (i :: is) =
      step env nested depth i >>= goOn env nested depth is := by
  rw [runList]
  exact bind_congr fun o => by cases o <;> rfl

end Eval

/-! ## One call or instruction -/

theorem Nesting.map_written (how : Nesting) (program : Bytes) :
    (how.instructions program).map Instruction.written = how.instructions program := by
  cases how <;> rfl

namespace Twin

variable {env : Env σ} {nested : Bytes → Eval σ UInt8} {depth : Nat} {program program' : Bytes}

theorem runFrame (levels : Nat) (program : Bytes) :
    Twin env (Eval.runFrame env levels program) (Eval.runFrame env levels program) := by
  have L : (strictTwins env).Lawful := Twins.lawful ..
  have h := L.toFair.runFrameBy L.steps env.config.maxEvalDepth.toNat levels 0 (Or.inl rfl) program
  have he : Eval.runFrameBy (Eval.step env) env.config.maxEvalDepth.toNat levels =
      Eval.runFrame env levels := runFrameBy_step env levels
  rw [← he]
  exact h

theorem result_push {s t : State σ} {x y : Unit → Eval σ α} {Q : α → α → Fact Unit}
    {v v' : Value Question} (hm : s.memory = t.memory) (hs : s.frame.size = t.frame.size)
    (hl : s.frame.maxStack = t.frame.maxStack)
    (h : (strictTwins env).whole.Result () Q (x () (s.withStack (v :: s.frame.stack)))
      (y () (t.withStack (v' :: t.frame.stack)))) :
    (strictTwins env).whole.Result () Q ((Eval.push v >>= x) s) ((Eval.push v' >>= y) t) := by
  by_cases room : s.frame.size < s.frame.maxStack
  · have room' : t.frame.size < t.frame.maxStack := by omega
    rwa [Fallible.bind_of_ok (push_of_lt v room), Fallible.bind_of_ok (push_of_lt v' room')]
  · have room' : ¬ t.frame.size < t.frame.maxStack := by omega
    have full {s : State σ} {v : Value Question} {x : Unit → Eval σ α}
        (room : ¬ s.frame.size < s.frame.maxStack) :
        (Eval.push v >>= x) s = (.error (.stack (.overflow s.frame.maxStack)), s) := by
      rw [Fallible.bind_apply, Eval.push, onFrame_apply, Frame.push, if_neg room]
    rw [full room, full room', hl]
    exact .halted (Or.inr ⟨⟨_, rfl⟩, congrArg _ hm⟩)

theorem of_result {x y : Eval σ α} {Q : α → α → Fact Unit}
    (h : ∀ {s t}, (strictTwins env).whole.inv s t () →
      (strictTwins env).whole.Result () Q (x s) (y t)) :
    (strictTwins env).whole.Follows ⊤ x y Q where
  run _ hi := h hi
  stays {s q} he := by
    have he : (strictTwins env).memory.ended (.ok (), s) q := he
    exact absurd he Twins.not_ended

theorem withStack {s t : State σ} (h : (strictTwins env).whole.inv s t ())
    (vs : List (Value Question)) : (strictTwins env).whole.inv (s.withStack (vs ++ s.frame.stack))
      (t.withStack (vs ++ t.frame.stack)) () := by
  have hv : (strictTwins env).values vs vs () := List.forall₂_same.mpr fun _ _ => rfl
  exact ⟨{ h.frame with stack := List.rel_append hv h.frame.stack }, h.outputs, h.memory⟩

section Nested

variable (h : Twin env (nested program) (nested program'))
include h

theorem inline : Twin env (Eval.push (.known program) >>= fun _ => evalInline env nested)
    (Eval.push (.known program') >>= fun _ => evalInline env nested) := by
  have run : Twin env (evalInline env fun _ => nested program)
      (evalInline env fun _ => nested program') :=
    Simulation.Fair.evalInline (fun _ => h) (Twins.lawful ..).toFair
  refine of_result fun {s t} hi => ?_
  have hf : s.frame = t.frame := Twins.frame_eq hi.frame
  refine result_push hi.memory (congrArg _ hf) (congrArg _ hf) ?_
  rw [evalInline_known s, evalInline_known t]
  exact run.run trivial (withStack hi [.known []])

theorem loop (cap : Word) (flags : LoopFlags) : (strictTwins env).whole.Follows ⊤
    (Eval.push (.known program) >>= fun _ => Eval.pushWord cap >>= fun _ =>
      evalLoop env nested flags)
    (Eval.push (.known program') >>= fun _ => Eval.pushWord cap >>= fun _ =>
      evalLoop env nested flags) any := by
  have run : (strictTwins env).whole.Follows ⊤ (evalLoop env (fun _ => nested program) flags)
      (evalLoop env (fun _ => nested program') flags) any :=
    Simulation.Fair.evalLoop (fun _ => h) (Twins.lawful ..).toFair flags
  refine of_result fun {s t} hi => ?_
  have hf : s.frame = t.frame := Twins.frame_eq hi.frame
  refine result_push hi.memory (congrArg _ hf) (congrArg _ hf) ?_
  -- the stacks differ in one value here, so that the states are not related
  refine result_push hi.memory (congrArg (fun f => f.size + 1) hf) (congrArg (·.maxStack) hf) ?_
  show (strictTwins env).whole.Result () any
    (evalLoop env nested flags
      (s.withStack (.known cap.toBytes :: .known program :: s.frame.stack)))
    (evalLoop env nested flags
      (t.withStack (.known cap.toBytes :: .known program' :: t.frame.stack)))
  rw [evalLoop_known s, evalLoop_known t]
  exact run.run trivial (withStack hi [.known cap.toBytes, .known []])

end Nested

variable {is is' : List Instruction}

theorem goOn (h : Twin env (runList env nested depth none is) (runList env nested depth none is'))
    (exitCode : Option UInt8) : Twin env (Eval.goOn env nested depth is exitCode)
      (Eval.goOn env nested depth is' exitCode) := by
  cases exitCode with
  | none => exact h
  | some exitCode =>
    refine (Simulation.modifyFrame fun _ hf => ?_).bind_any fun _ _ => .pure fun _ _ => rfl
    exact { hf with exitCode := rfl }

section Rest

variable (h : Twin env (runList env nested depth none is) (runList env nested depth none is'))
include h

theorem cons (H : ∀ program, Twin env (nested program) (nested program)) {i : Instruction}
    (hi : i.Encodable) : Twin env (runList env nested depth none (i :: is))
      (runList env nested depth none (i :: is')) := by
  rw [runList_cons, runList_cons]
  exact ((Twins.lawful ..).steps H depth i hi).bind_same h.goOn

theorem debug (label : String) : Twin env (runList env nested depth none (.debug label :: is))
    (runList env nested depth none is') :=
  of_result fun hi => h.run trivial ⟨hi.frame, hi.outputs, hi.memory⟩

theorem evalIf (hp : Twin env (nested program) (nested program')) :
    Twin env (runList env nested depth none (.pushBytes program :: .eval :: is))
      (runList env nested depth none (.pushBytes program' :: .eval :: is')) := by
  have unfolded (p : Bytes) (is : List Instruction) :
      runList env nested depth none (.pushBytes p :: .eval :: is) =
        (Eval.push (.known p) >>= fun _ => evalInline env nested) >>=
          Eval.goOn env nested depth is := by
    simp only [runList_cons, step, bind_assoc, pure_bind, Eval.goOn]
  rw [unfolded, unfolded]
  exact hp.inline.bind_same h.goOn

theorem evalLoop (hp : Twin env (nested program) (nested program')) (cap : Word)
    (flags : LoopFlags) : Twin env
      (runList env nested depth none (.pushBytes program :: .push cap :: .evalLoop flags :: is))
      (runList env nested depth none
        (.pushBytes program' :: .push cap :: .evalLoop flags :: is')) := by
  have unfolded (p : Bytes) (is : List Instruction) :
      runList env nested depth none (.pushBytes p :: .push cap :: .evalLoop flags :: is) =
        (Eval.push (.known p) >>= fun _ => Eval.pushWord cap >>= fun _ =>
          Eval.evalLoop env nested flags) >>= fun _ => runList env nested depth none is := by
    simp only [runList_cons, step, bind_assoc, pure_bind, Eval.goOn]
  rw [unfolded, unfolded]
  exact (hp.loop cap flags).bind_any fun _ _ => h

theorem nest (H : ∀ program, Twin env (nested program) (nested program))
    (hp : Twin env (nested program) (nested program')) (how : Nesting) :
    Twin env (runList env nested depth none (how.instructions program ++ is))
      (runList env nested depth none (how.instructions program' ++ is')) := by
  cases how with
  | eval => exact (h.evalIf hp).cons H trivial
  | evalIf => exact h.evalIf hp
  | evalLoop options => exact h.evalLoop hp _ _

end Rest

/-! ## Whole programs -/

/-- Code does the same on a frame without its labels if the programs nested in it do. -/
theorem code (H : ∀ program, Twin env (nested program) (nested program))
    (hp : ∀ (inner : Code) (outputs : UInt8), inner.Fits →
      Twin env (nested (inner.program outputs).toBytes)
        (nested (inner.withoutDebug.program outputs).toBytes)) {c : Code} (hc : c.Fits) :
    Twin env (runList env nested depth none (c.instructions.map .written))
      (runList env nested depth none (c.withoutDebug.instructions.map .written)) := by
  induction c with
  | done => exact .pure fun _ _ => rfl
  | instruction i rest ih =>
    cases i with
    | debug label =>
      rw [Code.instructions, List.map_cons, Instruction.written_debug]
      exact (ih hc.2).debug _
    | _ => exact (ih hc.2).cons H hc.1.written
  | nested how outputs inner rest _ ih =>
    simp only [Code.instructions, Code.withoutDebug, List.map_append, Nesting.map_written]
    exact (ih hc.2.2).nest H (hp inner outputs hc.2.1) how

theorem runProgram_code {c : Code} (hc : c.Fits) (outputs : UInt8) :
    runProgram env nested depth (c.program outputs).toBytes =
      runList env nested depth none (c.instructions.map .written) := by
  simp only [runProgram, c.toBytes_program, Listing.ofBytes_encodeAll _ hc.encodable]

theorem withoutDebug (levels : Nat) {c : Code} (hc : c.Fits) (outputs : UInt8) :
    Twin env (Eval.runFrame env levels (c.program outputs).toBytes)
      (Eval.runFrame env levels (c.withoutDebug.program outputs).toBytes) := by
  -- the code of the programs one level below is any code that fits
  induction levels generalizing c outputs with
  | zero =>
    rw [Eval.runFrame, runProgram_code hc, runProgram_code hc.withoutDebug]
    have tooDeep : Twin env (MonadExcept.throw
        (.budget (.maxEvalDepth env.config.maxEvalDepth.toNat)) : Eval σ UInt8)
        (MonadExcept.throw (.budget (.maxEvalDepth env.config.maxEvalDepth.toNat))) :=
      (Twins.lawful ..).toFair.throw _
    exact code (fun _ => tooDeep) (fun _ _ _ => tooDeep) hc
  | succ levels ih =>
    rw [Eval.runFrame, runProgram_code hc, runProgram_code hc.withoutDebug]
    exact code (runFrame levels) (fun inner outputs hi => ih hi outputs) hc

end Twin

theorem EndAlike.evaluate {env : Env σ} {p q : Program} {session : Session σ}
    (h : EndAlike (env.run p session) (env.run q session)) :
    env.evaluate p session = env.evaluate q session := by
  rcases hp : (env.run p session).1 with cause | exitCode
  · rw [Env.evaluate_of_error hp, Env.evaluate_of_error (h.result ▸ hp), h.session]
  · rw [Env.evaluate_of_ok hp, Env.evaluate_of_ok (h.result ▸ hp), Env.evaluation, Env.evaluation,
      h.outputs exitCode hp, h.trace, h.session]

/-- Labels for diagnostics can be left out of a program and out of all the programs that it nests,
and none is left then. The evaluation has the same result, outputs and needs, and leaves the same
budgets. -/
theorem run_withoutDebug (env : Env σ) {c : Code} (hc : c.Fits) (outputs : UInt8)
    (session : Session σ) :
    let p := c.program outputs
    let q := c.withoutDebug.program outputs
    c.withoutDebug.Silent ∧ EndAlike (env.run p session) (env.run q session) ∧
      env.evaluate p session = env.evaluate q session := by
  intro p q
  have start : env.start q session = env.start p session := by
    simp only [p, q, Env.start, Code.program_eq]
  have same : EndAlike (env.run p session) (env.run q session) := by
    rw [Env.run, Env.run, start]
    have started : (strictTwins env).whole.inv (env.start p session) (env.start p session) () :=
      Twins.state_self rfl
    exact Twins.endAlike ((Twin.withoutDebug _ hc outputs).run trivial started) fun h => h
  exact ⟨c.silent_withoutDebug, same, same.evaluate⟩

/-- A program runs one in place that runs another one for two seeds, and all of them have labels. -/
theorem run_withoutDebug_nested :
    let env : Env Nat := ⟨(Chain.withStorage {} 0 5 3).source, {}⟩
    let seed : Code := .instruction (.debug "seed") (.instruction (.plain .setSlot)
      (.instruction (.plain .readSlot) .done))
    let inPlace : Code := .instruction (.push 4) (.instruction (.push 5)
      (.nested (.evalLoop { flags := { acquireState := true } }) 0 seed
        (.instruction (.debug "after") .done)))
    let c : Code := .instruction (.debug "before") (.nested .eval 0 inPlace
      (.instruction (.push 0) (.instruction (.plain .setOutput) .done)))
    let p := c.program 1
    let q := c.withoutDebug.program 1
    let session : Session Nat := { source := 0 }
    c.Fits ∧ q.code.length + 21 = p.code.length ∧ (env.run p session).1 = .ok 0 ∧
      c.withoutDebug.Silent ∧ EndAlike (env.run p session) (env.run q session) ∧
      env.evaluate p session = env.evaluate q session := by
  intro env seed inPlace c p q session
  have short : (seed.program 0).toBytes.length < 2 ^ 32 ∧
      (inPlace.program 0).toBytes.length < 2 ^ 32 := by decide +kernel
  have fits : c.Fits := ⟨trivial, short.2,
    ⟨trivial, trivial, short.1, ⟨trivial, trivial, trivial, trivial⟩, trivial, trivial⟩,
    trivial, trivial, trivial⟩
  exact ⟨fits, by decide +kernel, by decide +kernel, run_withoutDebug env fits 1 session⟩

end ChainRead
