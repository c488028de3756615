import ChainRead.Evaluation.Step

/-! # Running programs

A frame executes the instructions of its program in order until one stops it. Frames nest as deep
as the limit allows. The outcome of an evaluation is the exit code of its outermost frame, the
outputs, which may still be pending, and the needs.
-/

namespace ChainRead

structure Evaluation where
  exitCode : UInt8
  outputs : List (Value Question)
  needs : List (Need Question)

namespace Eval

variable {σ : Type} (env : Env σ)

/-- Execute instructions until one stops the frame or they run out, and then fail with the fault
behind them if there is one. -/
def runList (nested : Bytes → Eval σ UInt8) (depth : Nat) (fault : Option EncodingError) :
    List Instruction → Eval σ UInt8
  | [] => match fault with
    | none => pure 0
    | some cause => throw (.encoding cause)
  | i :: rest => do
    match ← step env nested depth i with
    | some exitCode =>
      modifyFrame fun f => { f with exitCode }
      return exitCode
    | none => runList nested depth fault rest

def runProgram (nested : Bytes → Eval σ UInt8) (depth : Nat) (program : Bytes) : Eval σ UInt8 :=
  let listing := Listing.ofBytes program
  runList env nested depth listing.fault listing.instructions

/-- Run a program on the running frame, below which `levels` more frames may nest. -/
def runFrame : Nat → Bytes → Eval σ UInt8
  | 0 =>
    let limit := env.config.maxEvalDepth.toNat
    runProgram env (fun _ => throw (.budget (.maxEvalDepth limit))) limit
  | levels + 1 => runProgram env (runFrame levels) (env.config.maxEvalDepth.toNat - (levels + 1))

end Eval

namespace Env

variable {σ : Type} (env : Env σ)

def start (program : Program) (session : Session σ) : State σ where
  frame := { maxStack := env.config.maxStackSize.toNat }
  session := session
  outputs := List.replicate program.outputs.toNat (.known [])
  trace := Trace.new env.config

/-- Run a program. The result is its exit code, or the cause of failure, and the last state. -/
def run (program : Program) (session : Session σ) : Except EvalError UInt8 × State σ :=
  Eval.runFrame env env.config.maxEvalDepth.toNat program.toBytes (env.start program session)

def evaluation (exitCode : UInt8) (s : State σ) : Evaluation :=
  ⟨exitCode, s.outputs, s.trace.needs⟩

def evaluate (program : Program) : Fallible EvalError (Session σ) Evaluation := fun session =>
  match env.run program session with
  | (.ok exitCode, s) => (.ok (evaluation exitCode s), s.session)
  | (.error cause, s) => (.error cause, s.session)

end Env

namespace Evaluation

def resolveOutputs {σ : Type} (e : Evaluation) (answers : Answers Question σ) :
    Fallible EvalError (Session σ) (List Bytes) :=
  Value.resolveAll answers e.outputs

end Evaluation

end ChainRead
